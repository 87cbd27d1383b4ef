/-!
What the number on a node says. Operators, conversions, names and type keywords are numbered; the
modifiers of declarations are bits of one number.
-/

namespace UnionInference

/-- The operators with two operands. -/
inductive BinaryOp where
  | bitwiseOr | bitwiseAnd | bitwiseXor | concat | add | sub | mul | div | mod | pow | shiftLeft
  | shiftRight | boolXor | boolAnd | boolOr | isIdentical | isNotIdentical | isEqual
  | isNotEqual | isSmaller | isSmallerOrEqual | isGreater | isGreaterOrEqual | spaceship
  | coalesce
  deriving DecidableEq, Repr

namespace BinaryOp

/-- The number and the spelling. -/
def label : BinaryOp → Nat × String
  | .bitwiseOr => (1, "|")
  | .bitwiseAnd => (2, "&")
  | .bitwiseXor => (3, "^")
  | .concat => (4, ".")
  | .add => (5, "+")
  | .sub => (6, "-")
  | .mul => (7, "*")
  | .div => (8, "/")
  | .mod => (9, "%")
  | .pow => (10, "**")
  | .shiftLeft => (11, "<<")
  | .shiftRight => (12, ">>")
  | .boolXor => (13, "xor")
  | .boolAnd => (14, "&&")
  | .boolOr => (15, "||")
  | .isIdentical => (16, "===")
  | .isNotIdentical => (17, "!==")
  | .isEqual => (18, "==")
  | .isNotEqual => (19, "!=")
  | .isSmaller => (20, "<")
  | .isSmallerOrEqual => (21, "<=")
  | .isGreater => (22, ">")
  | .isGreaterOrEqual => (23, ">=")
  | .spaceship => (24, "<=>")
  | .coalesce => (25, "??")

/-- Every one, by ascending number. -/
def all : List BinaryOp :=
  [.bitwiseOr, .bitwiseAnd, .bitwiseXor, .concat, .add, .sub, .mul, .div, .mod, .pow,
   .shiftLeft, .shiftRight, .boolXor, .boolAnd, .boolOr, .isIdentical, .isNotIdentical,
   .isEqual, .isNotEqual, .isSmaller, .isSmallerOrEqual, .isGreater, .isGreaterOrEqual,
   .spaceship, .coalesce]

/-- The number on the node. -/
def code (x : BinaryOp) : Nat := x.label.1

/-- The spelling. -/
def text (x : BinaryOp) : String := x.label.2

/-- The one with the given number. -/
def ofCode? (n : Nat) : Option BinaryOp := all.find? fun x => x.code == n

/-- Whether the operator compares its operands. -/
def isComparison : BinaryOp → Bool
  | .isIdentical | .isNotIdentical | .isEqual | .isNotEqual | .isSmaller | .isSmallerOrEqual
  | .isGreater | .isGreaterOrEqual => true
  | _ => false

/-- Whether the operator calculates with numbers. -/
def isArithmetic : BinaryOp → Bool
  | .add | .sub | .mul | .div | .mod | .pow => true
  | _ => false

end BinaryOp

/-- The operators with one operand. -/
inductive UnaryOp where
  | boolNot | bitwiseNot | minus | plus | silence
  deriving DecidableEq, Repr

namespace UnaryOp

/-- The number and the spelling. -/
def label : UnaryOp → Nat × String
  | .boolNot => (1, "!")
  | .bitwiseNot => (2, "~")
  | .minus => (3, "-")
  | .plus => (4, "+")
  | .silence => (5, "@")

/-- Every one, by ascending number. -/
def all : List UnaryOp :=
  [.boolNot, .bitwiseNot, .minus, .plus, .silence]

/-- The number on the node. -/
def code (x : UnaryOp) : Nat := x.label.1

/-- The spelling. -/
def text (x : UnaryOp) : String := x.label.2

/-- The one with the given number. -/
def ofCode? (n : Nat) : Option UnaryOp := all.find? fun x => x.code == n

end UnaryOp

/-- The targets of an explicit conversion. -/
inductive CastKind where
  | null | bool | int | float | string | array | object
  deriving DecidableEq, Repr

namespace CastKind

/-- The number and the spelling. -/
def label : CastKind → Nat × String
  | .null => (1, "unset")
  | .bool => (2, "bool")
  | .int => (3, "int")
  | .float => (4, "float")
  | .string => (5, "string")
  | .array => (6, "array")
  | .object => (7, "object")

/-- Every one, by ascending number. -/
def all : List CastKind :=
  [.null, .bool, .int, .float, .string, .array, .object]

/-- The number on the node. -/
def code (x : CastKind) : Nat := x.label.1

/-- The spelling. -/
def text (x : CastKind) : String := x.label.2

/-- The one with the given number. -/
def ofCode? (n : Nat) : Option CastKind := all.find? fun x => x.code == n

end CastKind

/-- The constants whose value depends on where they stand. -/
inductive MagicConst where
  | lineConst | fileConst | dirConst | namespaceConst | functionConst | methodConst | classConst
  | traitConst
  deriving DecidableEq, Repr

namespace MagicConst

/-- The number and the spelling. -/
def label : MagicConst → Nat × String
  | .lineConst => (1, "__LINE__")
  | .fileConst => (2, "__FILE__")
  | .dirConst => (3, "__DIR__")
  | .namespaceConst => (4, "__NAMESPACE__")
  | .functionConst => (5, "__FUNCTION__")
  | .methodConst => (6, "__METHOD__")
  | .classConst => (7, "__CLASS__")
  | .traitConst => (8, "__TRAIT__")

/-- Every one, by ascending number. -/
def all : List MagicConst :=
  [.lineConst, .fileConst, .dirConst, .namespaceConst, .functionConst, .methodConst,
   .classConst, .traitConst]

/-- The number on the node. -/
def code (x : MagicConst) : Nat := x.label.1

/-- The spelling. -/
def text (x : MagicConst) : String := x.label.2

/-- The one with the given number. -/
def ofCode? (n : Nat) : Option MagicConst := all.find? fun x => x.code == n

end MagicConst

/-- How a name is written. -/
inductive NameKind where
  | fullyQualified | notFullyQualified | relative
  deriving DecidableEq, Repr

namespace NameKind

/-- The number and the spelling. -/
def label : NameKind → Nat × String
  | .fullyQualified => (0, "fully-qualified")
  | .notFullyQualified => (1, "not-fully-qualified")
  | .relative => (2, "relative")

/-- Every one, by ascending number. -/
def all : List NameKind :=
  [.fullyQualified, .notFullyQualified, .relative]

/-- The number on the node. -/
def code (x : NameKind) : Nat := x.label.1

/-- The spelling. -/
def text (x : NameKind) : String := x.label.2

/-- The one with the given number. -/
def ofCode? (n : Nat) : Option NameKind := all.find? fun x => x.code == n

end NameKind

/-- The keywords of built-in types. -/
inductive TypeHint where
  | array | callable | void | bool | int | float | string | iterable | object | null | false
  | true | static | mixed
  deriving DecidableEq, Repr

namespace TypeHint

/-- The number and the spelling. -/
def label : TypeHint → Nat × String
  | .array => (1, "array")
  | .callable => (2, "callable")
  | .void => (3, "void")
  | .bool => (4, "bool")
  | .int => (5, "int")
  | .float => (6, "float")
  | .string => (7, "string")
  | .iterable => (8, "iterable")
  | .object => (9, "object")
  | .null => (10, "null")
  | .false => (11, "false")
  | .true => (12, "true")
  | .static => (13, "static")
  | .mixed => (14, "mixed")

/-- Every one, by ascending number. -/
def all : List TypeHint :=
  [.array, .callable, .void, .bool, .int, .float, .string, .iterable, .object, .null, .false,
   .true, .static, .mixed]

/-- The number on the node. -/
def code (x : TypeHint) : Nat := x.label.1

/-- The spelling. -/
def text (x : TypeHint) : String := x.label.2

/-- The one with the given number. -/
def ofCode? (n : Nat) : Option TypeHint := all.find? fun x => x.code == n

end TypeHint

/-- The modifiers of a class, a member or a closure. -/
structure Modifiers where
  isPublic : Bool := false
  isProtected : Bool := false
  isPrivate : Bool := false
  isStatic : Bool := false
  isAbstract : Bool := false
  isFinal : Bool := false
  isReadonly : Bool := false
  deriving DecidableEq, Repr, Inhabited

namespace Modifiers

/-- The modifiers whose bits are set. -/
def ofBits (n : Nat) : Modifiers :=
  { isPublic := n.testBit 0, isProtected := n.testBit 1, isPrivate := n.testBit 2
    isStatic := n.testBit 3, isAbstract := n.testBit 4, isFinal := n.testBit 5
    isReadonly := n.testBit 6 }

/-- Only those that say who may see a member. -/
def visibility (m : Modifiers) : Modifiers :=
  { isPublic := m.isPublic, isProtected := m.isProtected, isPrivate := m.isPrivate }

/-- The number with the bits of the modifiers. -/
def bits (m : Modifiers) : Nat :=
  m.isPublic.toNat + 2 * m.isProtected.toNat + 4 * m.isPrivate.toNat + 8 * m.isStatic.toNat +
    16 * m.isAbstract.toNat + 32 * m.isFinal.toNat + 64 * m.isReadonly.toNat

/-- The modifiers with their names. -/
def labels (m : Modifiers) : List (String × Bool) :=
  [("public", m.isPublic), ("protected", m.isProtected), ("private", m.isPrivate),
   ("static", m.isStatic), ("abstract", m.isAbstract), ("final", m.isFinal),
   ("readonly", m.isReadonly)]

/-- The names of the modifiers that are set. -/
def names (m : Modifiers) : List String :=
  (m.labels.filter fun l => l.2).map Prod.fst

/-- The modifiers with the given names. -/
def ofNames (names : List String) : Modifiers :=
  { isPublic := names.contains "public", isProtected := names.contains "protected"
    isPrivate := names.contains "private", isStatic := names.contains "static"
    isAbstract := names.contains "abstract", isFinal := names.contains "final"
    isReadonly := names.contains "readonly" }

end Modifiers

/-- The marks on a parameter. -/
structure ParamMarks where
  byRef : Bool := false
  variadic : Bool := false
  deriving DecidableEq, Repr, Inhabited

namespace ParamMarks

/-- The marks whose bits are set. -/
def ofBits (n : Nat) : ParamMarks := ⟨n.testBit 0, n.testBit 1⟩

/-- The number with the bits of the marks. -/
def bits (m : ParamMarks) : Nat := m.byRef.toNat + 2 * m.variadic.toNat

/-- The names of the marks that are set. -/
def names (m : ParamMarks) : List String :=
  (if m.byRef then ["by_ref"] else []) ++ (if m.variadic then ["variadic"] else [])

end ParamMarks

/-- Whether an array element or a captured variable is taken by reference. -/
def elementByRef (n : Nat) : Bool := n.testBit 0

end UnionInference
