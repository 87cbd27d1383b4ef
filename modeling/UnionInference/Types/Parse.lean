import UnionInference.Types.Union
import UnionInference.Text.Blank

/-!
Reading types. A text is a union of members divided by bars; a member is a name, a literal, an
array, a shape, a callable or a union in brackets, with a question mark in front and pairs of square
brackets behind where they apply. Types join the table as they are read, also when the text turns
out to be wrong further on. Errors tell the byte at which the text stops making sense.
-/

namespace UnionInference

/-- Why a text is no type. -/
inductive TypeParseError where
  | unexpectedEnd (input : String)
  | unexpectedChar (input : String) (offset : Nat) (found : Char)
  | invalidName (input name : String)
  | invalidLiteral (input literal : String)
  | tooDeep (input : String) (limit : Nat)
  | notSingleType (input : String)
  deriving DecidableEq, Repr

namespace TypeParseError

/-- The name of the error. -/
def name : TypeParseError → String
  | .unexpectedEnd _ => "UnexpectedEnd"
  | .unexpectedChar .. => "UnexpectedChar"
  | .invalidName .. => "InvalidName"
  | .invalidLiteral .. => "InvalidLiteral"
  | .tooDeep .. => "TooDeep"
  | .notSingleType _ => "NotSingleType"

/-- What the error says. -/
def message : TypeParseError → String
  | .unexpectedEnd input => "unexpected end of type string " ++ Text.quoted input
  | .unexpectedChar input offset found =>
    "unexpected " ++ Text.quotedChar found ++ " at offset " ++ Text.decimalNat offset ++
      " in type string " ++ Text.quoted input
  | .invalidName input name =>
    "invalid name " ++ Text.quoted name ++ " in type string " ++ Text.quoted input
  | .invalidLiteral input literal =>
    "invalid literal " ++ Text.quoted literal ++ " in type string " ++ Text.quoted input
  | .tooDeep input limit =>
    "type string " ++ Text.quoted input ++ " nests deeper than " ++ Text.decimalNat limit ++
      " levels"
  | .notSingleType input => "type string " ++ Text.quoted input ++ " is not a single type"

end TypeParseError

/-- What names in a text stand for. -/
structure NameResolver where
  /-- The class of a name that is not fully qualified. -/
  resolveClass : String → ClassName
  /-- Whether a name is one of the template placeholders. -/
  isTemplate : String → Bool := fun _ => false
  /-- The class that the text is written in. -/
  selfClass : Option ClassName := none

/-- Every name is taken to be fully qualified. -/
def NameResolver.fullyQualified : NameResolver := { resolveClass := QualifiedName.ofFullName }

namespace TypeParser

/-- How deeply brackets may nest in a text. -/
def maxDepth : Nat := 64

/-- What a reading looks up: the names and the whole text. -/
structure Source where
  names : NameResolver
  input : String

/-- Reading from the text that is left. An error keeps the types that joined the table. -/
abbrev ParseM := StateT (List Char) (ExceptT TypeParseError TypeM)

/-- Work on the table. -/
def types {α : Type} (work : TypeM α) : ParseM α := fun cs => do return (← work, cs)

/-- Gives up with an error. -/
def fail {α : Type} (e : TypeParseError) : ParseM α := throw e

/-- The number of bytes of characters. -/
def byteSize (cs : List Char) : Nat := (String.ofList cs).utf8ByteSize

/-! ### The text that is left -/

/-- The blanks that may stand between the parts of a type. -/
def isSpace (c : Char) : Bool := c == ' ' || c == '\t' || c == '\n' || c == '\r'

/-- Passes over blanks. -/
def skipSpace : ParseM Unit := modify fun cs => cs.dropWhile isSpace

/-- The next character. -/
def peek? : ParseM (Option Char) := return (← get).head?

/-- Passes over one character. -/
def advance : ParseM Unit := modify List.tail

/-- Passes over the characters that satisfy a test and tells them. -/
def takeWhile (p : Char → Bool) : ParseM (List Char) :=
  modifyGet fun cs => (cs.takeWhile p, cs.dropWhile p)

/-- Passes over a text, after blanks, if it comes next. -/
def eat (token : List Char) : ParseM Bool := do
  skipSpace
  let cs ← get
  if token.isPrefixOf cs then
    set (cs.drop token.length)
    return true
  else return false

/-- Complains about the next character, or about the end of the text. -/
def unexpected {α : Type} (src : Source) : ParseM α := do
  let cs ← get
  match cs.head? with
  | some c => fail (.unexpectedChar src.input (src.input.utf8ByteSize - byteSize cs) c)
  | none => fail (.unexpectedEnd src.input)

/-- Passes over a character that must come next. -/
def expect (src : Source) (c : Char) : ParseM Unit := do
  if !(← eat [c]) then unexpected src

/-- Complains that brackets nest too deeply. -/
def tooDeep {α : Type} (src : Source) : ParseM α := fail (.tooDeep src.input maxDepth)

/-! ### Literals and names -/

/-- The text inside quotes and what follows the closing one. A backslash keeps the character after
it from ending the text. -/
def quotedBody : List Char → Option (List Char × List Char)
  | '\'' :: rest => some ([], rest)
  | '\\' :: c :: rest =>
    (quotedBody rest).map fun r =>
      (if c = '\\' ∨ c = '\'' then c :: r.1 else '\\' :: c :: r.1, r.2)
  | ['\\'] => none
  | c :: rest => (quotedBody rest).map fun r => (c :: r.1, r.2)
  | [] => none

/-- A text in quotes, of which the first one comes next. -/
def quotedText (src : Source) : ParseM String := do
  match quotedBody (← get).tail with
  | some (body, rest) =>
    set rest
    return String.ofList body
  | none => fail (.unexpectedEnd src.input)

/-- Whether the character stands outside ASCII. -/
def isWide (c : Char) : Bool := decide (128 ≤ c.toNat)

/-- Whether a name can start with the character. -/
def isNameStart (c : Char) : Bool :=
  c.isAlpha || c == '_' || c == '\\' || c == '$' || isWide c

/-- Whether a name can go on with the character. -/
def isNameChar (c : Char) : Bool := ShapeKey.isWordChar c || c == '\\' || isWide c

/-- Whether a numeral can hold the character. -/
def isNumeralChar (c : Char) : Bool := c == '-' || c.isDigit

/-- Whether a key without quotes can hold the character. -/
def isKeyChar (c : Char) : Bool := ShapeKey.isWordChar c || c == '-'

/-- A name, with the sign of a variable in front or without. -/
def name : ParseM (List Char) := do
  match ← peek? with
  | some '$' =>
    advance
    return '$' :: (← takeWhile isNameChar)
  | _ => takeWhile isNameChar

/-- Whether two separators stand side by side. -/
def hasDoubleSeparator : List Char → Bool
  | a :: b :: rest => (isSeparator a && isSeparator b) || hasDoubleSeparator (b :: rest)
  | _ => false

/-- Whether the characters spell no class: a segment is empty, or the sign of a variable is in it.
-/
def isBadClassName (cs : List Char) : Bool :=
  let bare := cs.dropWhile isSeparator
  bare.isEmpty || (bare.getLast?.map isSeparator).getD false || hasDoubleSeparator bare ||
    bare.contains '$'

/-- An integer literal. -/
def intLiteral (src : Source) : ParseM UnionType := do
  let literal ← takeWhile isNumeralChar
  match Text.integer? literal with
  | some n => return .of (← types (TypeM.intern (.intLiteral n) false))
  | none => fail (.invalidLiteral src.input (String.ofList literal))

/-! ### Lists -/

/-- Further members after a bar, added to those read so far. The number bounds the bars. -/
def moreMembers (member : ParseM UnionType) : Nat → UnionType → ParseM UnionType
  | 0, u => return u
  | n + 1, u => do
    if ← eat ['|'] then moreMembers member n (u.union (← member)) else return u

/-- Members divided by bars. -/
def alternatives (member : ParseM UnionType) : ParseM UnionType := do
  let first ← member
  moreMembers member (← get).length first

/-- Further unions after a comma. The number bounds the commas. -/
def moreUnions (union : ParseM UnionType) : Nat → ParseM (List UnionType)
  | 0 => return []
  | n + 1 => do
    if ← eat [','] then
      let u ← union
      return u :: (← moreUnions union n)
    else return []

/-- Unions divided by commas, up to the closing bracket. -/
def typeList (src : Source) (union : ParseM UnionType) : ParseM (List UnionType) := do
  let first ← union
  let rest ← moreUnions union (← get).length
  expect src '>'
  return first :: rest

/-- Array types of all members. -/
def arraysOf (u : UnionType) (key : KeyKind) : ParseM UnionType := types (u.asArrays key)

/-- An array type, from its opening bracket on. -/
def genericArray (src : Source) (union : ParseM UnionType) : ParseM UnionType := do
  advance
  let list ← typeList src union
  let key :=
    match list with
    | first :: _ :: _ =>
      if first.isOnly NativeKind.int.id then KeyKind.int
      else if first.isOnly NativeKind.string.id then .string
      else .mixed
    | _ => .mixed
  arraysOf (list.getLast?.getD .empty) key

/-- The key of a field. -/
def fieldKey (src : Source) : ParseM ShapeKey := do
  skipSpace
  match ← peek? with
  | some '\'' => return .ofText (← quotedText src)
  | some _ =>
    let raw ← takeWhile isKeyChar
    if raw.isEmpty then unexpected src else return .ofText (String.ofList raw)
  | none => fail (.unexpectedEnd src.input)

/-- The fields of a shape from the first one on, stored after those read so far. The number bounds
the fields. -/
def fields (src : Source) (union : ParseM UnionType) : Nat → ShapeFields → ParseM ShapeFields
  | 0, _ => fail (.unexpectedEnd src.input)
  | n + 1, found => do
    let key ← fieldKey src
    let optional ← eat ['?']
    expect src ':'
    let type ← union
    let found := ShapeFields.insert found key { type, optional }
    if ← eat ['\x7d'] then return found
    else
      expect src ','
      fields src union n found

/-- A shape, from its opening brace on. -/
def shape (src : Source) (union : ParseM UnionType) : ParseM UnionType := do
  advance
  let found ←
    if ← eat ['\x7d'] then pure []
    else
      let left ← get
      fields src union (left.length + 1) []
  return .of (← types (TypeM.intern (.shape found) false))

/-- The name that a parameter may have. -/
def paramName : ParseM Unit := do
  skipSpace
  match ← peek? with
  | some '$' =>
    advance
    let _ ← takeWhile ShapeKey.isWordChar
  | _ => pure ()

/-- The parameters of a callable from the first one on. The number bounds the parameters. -/
def params (src : Source) (union : ParseM UnionType) : Nat → ParseM (List CallableParam)
  | 0 => fail (.unexpectedEnd src.input)
  | n + 1 => do
    let byRef ← eat ['&']
    let type ← union
    let variadic ← eat ['.', '.', '.']
    paramName
    let optional ← eat ['=']
    let param : CallableParam := { type, byRef, variadic, optional }
    if ← eat [')'] then return [param]
    else
      expect src ','
      return param :: (← params src union n)

/-- A callable, from its opening bracket on. -/
def callable (src : Source) (isClosure : Bool) (union member : ParseM UnionType) :
    ParseM UnionType := do
  advance
  let params ←
    if ← eat [')'] then pure []
    else
      let left ← get
      params src union (left.length + 1)
  let result ← if ← eat [':'] then member else pure .empty
  return .of (← types (TypeM.intern (.callable { isClosure, params, result }) false))

/-! ### The grammar -/

/-- How unions and members are read inside a number of brackets. -/
structure Grammar where
  union : ParseM UnionType
  member : ParseM UnionType

/-- A class type with the arguments that follow its name. -/
def classType (src : Source) (union : ParseM UnionType) (name : List Char) :
    ParseM UnionType := do
  if isBadClassName name then fail (.invalidName src.input (String.ofList name))
  else
    let owner :=
      if (name.head?.map isSeparator).getD false then
        QualifiedName.ofFullName (String.ofList name)
      else src.names.resolveClass (String.ofList name)
    let args ← if ← eat ['<'] then typeList src union else pure []
    return .of (← types (TypeM.make owner.space owner.name args false))

/-- A built-in type, a template placeholder or a class. -/
def plainName (src : Source) (union : ParseM UnionType) (name : List Char) :
    ParseM UnionType := do
  let text := String.ofList name
  if (name.head?.map isSeparator).getD false then classType src union name
  else
    match NativeKind.ofName? text with
    | some .self =>
      match src.names.selfClass with
      | some owner => return .of (← types (TypeM.classType owner))
      | none => return .native .self
    | some k => return .native k
    | none =>
      if src.names.isTemplate text then return .of (← types (TypeM.template text))
      else classType src union name

/-- What starts with a name. The brackets of a shape or a callable count as a level of their own. -/
def named (src : Source) (union : ParseM UnionType) (inner : Option Grammar) :
    ParseM UnionType := do
  let name ← name
  match Text.fold (String.ofList name), ← peek? with
  | "array", some '\x7b' =>
    match inner with
    | some g => shape src g.union
    | none => tooDeep src
  | "array", some '<' => genericArray src union
  | "closure", some '(' | "\\closure", some '(' =>
    match inner with
    | some g => callable src true g.union g.member
    | none => tooDeep src
  | "callable", some '(' =>
    match inner with
    | some g => callable src false g.union g.member
    | none => tooDeep src
  | _, _ => plainName src union name

/-- A member without marks. -/
def atom (src : Source) (union : ParseM UnionType) (inner : Option Grammar) :
    ParseM UnionType := do
  skipSpace
  match ← peek? with
  | none => fail (.unexpectedEnd src.input)
  | some c =>
    if c = '(' then
      advance
      let u ← union
      expect src ')'
      return u
    else if c = '\'' then
      return .of (← types (TypeM.intern (.stringLiteral (← quotedText src)) false))
    else if isNumeralChar c then intLiteral src
    else if isNameStart c then named src union inner
    else unexpected src

/-- The pairs of square brackets after an atom. The number bounds the pairs. -/
def arraySuffixes : Nat → UnionType → ParseM UnionType
  | 0, u => return u
  | n + 1, u => do
    if ← eat ['[', ']'] then arraySuffixes n (← arraysOf u .mixed) else return u

/-- A member with its marks. -/
def memberWith (src : Source) (union : ParseM UnionType) (inner : Option Grammar) :
    ParseM UnionType := do
  let nullable ← eat ['?']
  let u ← atom src union inner
  let u ← arraySuffixes (← get).length u
  if nullable then types u.withNull else return u

/-- The grammar with a number of levels left. -/
def grammar (src : Source) : Nat → Grammar
  | 0 => { union := tooDeep src, member := memberWith src (tooDeep src) none }
  | n + 1 =>
    let inner := grammar src n
    let union := alternatives inner.member
    { union, member := memberWith src union (some inner) }

/-- A union that makes up the whole text. -/
def whole (src : Source) : ParseM UnionType := do
  let u ← (grammar src maxDepth).union
  skipSpace
  if (← get).isEmpty then return u else unexpected src

end TypeParser

namespace UnionType

/-- Reads a union. A blank text is the empty union. -/
def parse (names : NameResolver) (input : String) : TypeM (Except TypeParseError UnionType) :=
  if Text.isBlank input then pure (.ok empty)
  else do
    let result ← ((TypeParser.whole ⟨names, input⟩).run input.toList).run
    return result.map Prod.fst

/-- Reads a union with fully qualified names. -/
def parseFullyQualified (input : String) : TypeM (Except TypeParseError UnionType) :=
  parse .fullyQualified input

/-- Reads a single type with fully qualified names. -/
def parseSingle (input : String) : TypeM (Except TypeParseError TypeId) := do
  match ← parseFullyQualified input with
  | .error e => return .error e
  | .ok u =>
    match u.single? with
    | some id => return .ok id
    | none => return .error (.notSingleType input)

end UnionType

end UnionInference
