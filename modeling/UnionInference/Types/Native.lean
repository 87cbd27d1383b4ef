import UnionInference.Text.Fold
import UnionInference.Text.Decimal

/-!
The built-in types, the kinds of array key, and the keys of array shapes.
-/

namespace UnionInference

/-- The built-in types. -/
inductive NativeKind where
  | int | float | string | bool | false | true | array | iterable | object | callable | resource
  | void | mixed | null | scalar | static | self
  deriving DecidableEq, Repr, Inhabited

namespace NativeKind

/-- Every built-in type, in the order in which a table holds them. -/
def all : List NativeKind :=
  [.int, .float, .string, .bool, .false, .true, .array, .iterable, .object, .callable, .resource,
   .void, .mixed, .null, .scalar, .static, .self]

/-- The place of a built-in type in every table. -/
def id : NativeKind → Nat
  | .int => 0
  | .float => 1
  | .string => 2
  | .bool => 3
  | .false => 4
  | .true => 5
  | .array => 6
  | .iterable => 7
  | .object => 8
  | .callable => 9
  | .resource => 10
  | .void => 11
  | .mixed => 12
  | .null => 13
  | .scalar => 14
  | .static => 15
  | .self => 16

/-- The name of a built-in type. -/
def name : NativeKind → String
  | .int => "int"
  | .float => "float"
  | .string => "string"
  | .bool => "bool"
  | .false => "false"
  | .true => "true"
  | .array => "array"
  | .iterable => "iterable"
  | .object => "object"
  | .callable => "callable"
  | .resource => "resource"
  | .void => "void"
  | .mixed => "mixed"
  | .null => "null"
  | .scalar => "scalar"
  | .static => "static"
  | .self => "self"

/-- The second names that some built-in types have. -/
def aliases : List (String × NativeKind) :=
  [("integer", .int), ("double", .float), ("boolean", .bool), ("$this", .static)]

/-- The built-in type of a name in any letter case; the usual second names are known too. -/
def ofName? (s : String) : Option NativeKind :=
  let folded := Text.fold s
  match all.find? fun k => k.name == folded with
  | some k => some k
  | none => (aliases.find? fun a => a.1 == folded).map Prod.snd

/-- Whether the type has no variant that also admits null. -/
def ignoresNull : NativeKind → Bool
  | .void | .mixed | .null => Bool.true
  | _ => Bool.false

/-- Whether the values of the type are scalars. -/
def isScalar : NativeKind → Bool
  | .int | .float | .string | .bool | .false | .true | .scalar => Bool.true
  | _ => Bool.false

end NativeKind

/-- What the keys of an array are. -/
inductive KeyKind where
  | int | string | mixed
  deriving DecidableEq, Repr, Inhabited

namespace KeyKind

/-- The kind that covers two kinds. -/
def merge (a b : KeyKind) : KeyKind := if a = b then a else .mixed

/-- The kind that covers all of a list, if the list has any. -/
def mergeAll : List KeyKind → Option KeyKind
  | [] => none
  | k :: ks => some (ks.foldl merge k)

/-- Whether keys of one kind may stand for keys of the other. -/
def casts (a b : KeyKind) : Bool := a = b || a = .mixed || b = .mixed

/-- The name of the kind. -/
def text : KeyKind → String
  | .int => "int"
  | .string => "string"
  | .mixed => "mixed"

/-- The kind with the given name; any other name stands for all keys. -/
def ofText : String → KeyKind
  | "int" => .int
  | "string" => .string
  | _ => .mixed

end KeyKind

/-- The key of a field of an array shape. -/
inductive ShapeKey where
  | int (value : Int)
  | str (value : String)
  deriving DecidableEq, Repr, Inhabited

namespace ShapeKey

/-- The key that a string denotes: the decimal form of an integer denotes the integer. -/
def ofText (s : String) : ShapeKey :=
  match Text.integer? s.toList with
  | some n => if Text.decimal n == s then .int n else .str s
  | none => .str s

/-- What kind of key it is. -/
def kind : ShapeKey → KeyKind
  | .int _ => .int
  | .str _ => .string

/-- Whether the character is a letter, a digit or the underscore. -/
def isWordChar (c : Char) : Bool := c.isAlphanum || c == '_'

/-- Whether a string key is written without quotes. -/
def isBare (s : String) : Bool :=
  !s.toList.isEmpty && s.toList.all isWordChar && (Text.integer? s.toList).isNone

end ShapeKey

/-- A character inside single quotes. -/
def quoteChar (c : Char) : List Char := if c = '\\' ∨ c = '\'' then ['\\', c] else [c]

/-- A string literal in single quotes. -/
def quote (s : String) : String :=
  "'" ++ String.ofList (s.toList.flatMap quoteChar) ++ "'"

/-- The key as it stands in a shape. -/
def ShapeKey.text : ShapeKey → String
  | .int n => Text.decimal n
  | .str s => if isBare s then s else quote s

end UnionInference
