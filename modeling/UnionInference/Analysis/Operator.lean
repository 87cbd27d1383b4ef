import UnionInference.Analysis.Evaluator

/-!
Operators: what they make of the types of their operands.
-/

namespace UnionInference.Evaluator

open AnalysisM (query types display unanalyzable)

/-- The numbers, whole or not. -/
def numeric : UnionType := .ofList [NativeKind.int.id, NativeKind.float.id]

/-- Whether all values of a type are arrays. -/
def isArray (u : UnionType) : AnalysisM Bool := query u.isArrayLike <&&> pure (!u.isNull)

/-- Whether all values of a type are scalars. -/
def isScalar (u : UnionType) : AnalysisM Bool := query u.isScalar <&&> pure (!u.isNull)

/-- Reports a loose comparison of an array with a scalar. -/
def checkComparison (v : Evaluator) (n : Node) (op : BinaryOp) (left right : UnionType) :
    AnalysisM Unit := do
  if op = .isIdentical ∨ op = .isNotIdentical then return
  else if ← isArray left <&&> isScalar right then
    v.report .typeComparisonFromArray n.line [← display right]
  else if ← isScalar left <&&> isArray right then
    v.report .typeComparisonToArray n.line [← display left]

/-- The type of a bitwise operation. Strings stay strings and all else becomes an integer; where
nothing is known it may be either. -/
def bitwiseType (left : UnionType) : AnalysisM UnionType := do
  if left.isEmpty || left.hasMixed then
    return .ofList [NativeKind.int.id, NativeKind.string.id]
  else
    let left ← types left.withoutNull
    let strings := if ← query left.hasStringLike then UnionType.native .string else .empty
    if left.isEmpty || !(← query left.isStringLike) then return strings.insert NativeKind.int.id
    else return strings

/-- The type of a calculation. Arrays can be added to arrays; otherwise they are no operands. -/
def arithmeticType (v : Evaluator) (n : Node) (op : BinaryOp) (left right : UnionType) :
    AnalysisM UnionType := do
  let leftArray ← isArray left
  let rightArray ← isArray right
  if op = .add ∧ leftArray ∧ rightArray then
    let left ← types left.withoutNull
    return left.union (← types right.withoutNull)
  else if leftArray || rightArray then
    v.failWith .typeArrayOperator n.line [op.text, ← display left, ← display right]
  else if op = .mod then return .native .int
  else if ← query left.isIntLike <&&> query right.isIntLike then
    return if op = .div then numeric else .native .int
  else if ← query left.isFloat <||> query right.isFloat then return .native .float
  else return numeric

/-- The type of an operation on two operands. -/
def operationType (v : Evaluator) (n : Node) (op : BinaryOp) (left right : UnionType) :
    AnalysisM UnionType := do
  match op with
  | .concat => return .native .string
  | .boolAnd | .boolOr | .boolXor => return .native .bool
  | .spaceship | .shiftLeft | .shiftRight => return .native .int
  | .bitwiseAnd | .bitwiseOr | .bitwiseXor => bitwiseType left
  | op =>
    if op.isComparison then
      v.checkComparison n op left right
      return .native .bool
    else v.arithmeticType n op left right

/-- An operation on the children in two slots. A missing value is what the operator for it is there
for, so the first operand is then evaluated quietly. -/
def operation (v : Evaluator) (n : Node) (first second unknown : String) : AnalysisM UnionType := do
  match BinaryOp.ofCode? n.flags with
  | none => unanalyzable n unknown
  | some op =>
    let left ← required n first
    let right ← required n second
    if op = .coalesce then
      let left ← v.visitQuietly left
      let right ← v.visit right
      return (← types left.withoutNull).union right
    else
      let left ← v.visit left
      let right ← v.visit right
      v.operationType n op left right

/-- An operation on two operands. -/
def binaryOp (v : Evaluator) (n : Node) : AnalysisM UnionType :=
  v.operation n "left" "right" "unknown binary operator"

/-- An assignment that combines the old value with a new one. -/
def assignOp (v : Evaluator) (n : Node) : AnalysisM UnionType :=
  v.operation n "var" "expr" "unknown assignment operator"

/-- The integer that is the only value of a type. -/
def intValue? (u : UnionType) : AnalysisM (Option Int) := do
  match u.single? with
  | none => return none
  | some id =>
    match (← query fun t => t.fetch id).kind with
    | .intLiteral n => return some n
    | _ => return none

/-- The type of a number with a sign in front. -/
def signedType (op : UnaryOp) (u : UnionType) : AnalysisM UnionType := do
  match ← intValue? u with
  | some n =>
    let signed := if op = .minus then -n else n
    if Text.isInteger signed then return .of (← types (TypeM.intern (.intLiteral signed) false))
    else return .native .float
  | none =>
    if ← query u.isIntLike then return .native .int
    else if ← query u.isFloat then return .native .float
    else return numeric

/-- An operation on one operand. -/
def unaryOp (v : Evaluator) (n : Node) : AnalysisM UnionType := do
  match UnaryOp.ofCode? n.flags with
  | none => unanalyzable n "unknown unary operator"
  | some op =>
    let operand ← v.visit (← required n "expr")
    match op with
    | .boolNot => return .native .bool
    | .bitwiseNot =>
      return if ← query operand.isStringLike then .native .string else .native .int
    | .silence => return operand
    | .minus | .plus => signedType op operand

/-- An increment or a decrement. -/
def incDec (v : Evaluator) (n : Node) : AnalysisM UnionType := do
  let operand ← v.visit (← required n "var")
  if ← query operand.isIntLike then return .native .int
  else if ← query operand.isFloat then return .native .float
  else types operand.widenLiterals

/-- An explicit conversion. -/
def cast (v : Evaluator) (n : Node) : AnalysisM UnionType := do
  let operand ← v.visit (← required n "expr")
  match CastKind.ofCode? n.flags with
  | none => unanalyzable n "unknown cast"
  | some .null => return .native .null
  | some .bool => return .native .bool
  | some .int => return .native .int
  | some .float => return .native .float
  | some .string => return .native .string
  | some .array =>
    if ← isArray operand then types operand.withoutNull else return .native .array
  | some .object =>
    if ← query fun t => operand.allMembers t Ty.isObjectLike then return operand
    else return .of (← types (TypeM.make "\\" "stdClass" [] false))

end UnionInference.Evaluator
