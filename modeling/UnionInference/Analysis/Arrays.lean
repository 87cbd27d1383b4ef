import UnionInference.Analysis.Evaluator

/-!
Array literals and indexing. A literal whose keys are known and differ is an exact shape; any other
is an array over the types of its values. An index is looked up in the shapes and checked against
the keys of the arrays it is used on.
-/

namespace UnionInference

/-- What is known of an array literal from its elements so far. -/
structure LiteralKeys where
  fields : ShapeFields := []
  values : UnionType := .empty
  keyKind : Option KeyKind := none
  /-- The key of the next element without one. -/
  next : Int := 0
  /-- Whether all keys are known and differ. -/
  isShape : Bool := true

namespace LiteralKeys

/-- Takes the kind of another key into account. -/
def addKind (k : LiteralKeys) (kind : KeyKind) : LiteralKeys :=
  { k with keyKind := some ((k.keyKind.map fun old => old.merge kind).getD kind) }

/-- Takes the values of spread elements into account. -/
def addSpread (k : LiteralKeys) (kind : KeyKind) (values : UnionType) : LiteralKeys :=
  { k.addKind kind with values := k.values.union values, isShape := false }

/-- Takes an element with an unknown key into account. -/
def addUnknown (k : LiteralKeys) (kind : KeyKind) (value : UnionType) : LiteralKeys :=
  { k.addKind kind with values := k.values.union value.orMixed, isShape := false }

/-- Takes an element with a known key into account. -/
def addKnown (k : LiteralKeys) (key : ShapeKey) (value : UnionType) : LiteralKeys :=
  { k.addKind key.kind with
    values := k.values.union value.orMixed
    next :=
      match key with
      | .int i => max k.next (Text.clampInteger (i + 1))
      | .str _ => k.next
    isShape := k.isShape && (ShapeFields.get? k.fields key).isNone
    fields := ShapeFields.insert k.fields key { type := value.orMixed } }

end LiteralKeys

namespace Evaluator

open AnalysisM (query types display hierarchy options)

/-! ### Array literals -/

/-- The key that a child stands for, if it is a literal or has the type of one. Numbers with a
fraction, truth values and null are keys only where the options allow it. -/
def literalKey (key : Child) (type : UnionType) : AnalysisM (Option ShapeKey) := do
  let lenient := (← options).scalarArrayKeyCast
  match key with
  | .int n => return some (.int n)
  | .str s => return some (.ofText s)
  | .float bits =>
    return if lenient && Binary64.isFinite bits then some (.int (Binary64.truncate bits)) else none
  | .bool b => return if lenient then some (.int b.toNat) else none
  | .null => return if lenient then some (.str "") else none
  | .node _ =>
    match type.single? with
    | none => return none
    | some id =>
      match (← query fun t => t.fetch id).kind with
      | .intLiteral n => return some (.int n)
      | .stringLiteral s => return some (.ofText s)
      | _ => return none

/-- The kind of the keys of a type. -/
def keyKindOf (u : UnionType) : AnalysisM KeyKind := do
  if ← query u.isIntLike then return .int
  else if ← query u.isStringLike then return .string
  else return .mixed

/-- Takes a spread element into account. -/
def addUnpacked (v : Evaluator) (element : Node) (keys : LiteralKeys) :
    AnalysisM LiteralKeys := do
  let unpacked ← v.visit (← required element "expr")
  if unpacked.isEmpty || unpacked.hasMixed then return keys.addSpread .int .mixed
  else if !(← query fun t => unpacked.anyMember t fun ty =>
      ty.isIterableLike || ty.isObjectLike) then
    v.report .typeMismatchUnpackValue element.line [← display unpacked]
    return keys.addSpread .int .mixed
  else
    let kind := (← query unpacked.keyKind).getD .int
    let allowed := (← options).allowStringKeyUnpack
    if kind = .string ∧ !allowed then
      v.report .typeMismatchUnpackKey element.line [← display unpacked, "string"]
    let values ← query unpacked.iterableValues
    return keys.addSpread (if allowed then kind else .int) values.orMixed

/-- Takes an element into account. -/
def addElement (v : Evaluator) (element : Node) (keys : LiteralKeys) : AnalysisM LiteralKeys := do
  if element.kind = .unpack then v.addUnpacked element keys
  else
    let value ← v.visit (← required element "value")
    match optional? element "key" with
    | none => return keys.addKnown (.int keys.next) value
    | some child =>
      let type ← v.visit child
      match ← literalKey child type with
      | some key => return keys.addKnown key value
      | none => return keys.addUnknown (← keyKindOf type) value

/-- An array literal. -/
def arrayLiteral (v : Evaluator) (n : Node) : AnalysisM UnionType := do
  let keys ← (n.list.filterMap Child.node?).foldlM (fun keys e => v.addElement e keys)
    ({} : LiteralKeys)
  if keys.isShape then return .of (← types (TypeM.intern (.shape keys.fields) false))
  else
    let elements ← types keys.values.widenLiterals
    types (elements.orMixed.asArrays (keys.keyKind.getD .int))

/-! ### Indexing -/

/-- Whether some class of a type lets its objects be indexed. -/
def hasArrayAccess (u : UnionType) : AnalysisM Bool := do
  let arrayAccess := QualifiedName.ofFullName "\\ArrayAccess"
  (← query u.classNames).anyM fun name => do
    if name.sameClass arrayAccess then return true
    else
      let type ← types (TypeM.classType name)
      hierarchy ((UnionType.of type).hasAncestor arrayAccess)

/-- Whether a type is an integer, or a string that denotes one. -/
def isWhole (ty : Ty) : Bool :=
  ty.isIntLike ||
    match ty.kind with
    | .stringLiteral s => (ShapeKey.ofText s).kind == .int
    | _ => false

/-- Whether an index of a type can be a key of the given kind. -/
def acceptsIndex (lenient : Bool) (kind : KeyKind) (ty : Ty) : Bool :=
  let castable := lenient && (ty.isNative .float || ty.isBoolLike || ty.isNative .null)
  match kind with
  | .int => isWhole ty || castable || (lenient && ty.isStringLike)
  | .string => ty.isStringLike || castable || (lenient && ty.isIntLike)
  | .mixed => ty.isIntLike || ty.isStringLike || castable

/-- Whether an index of a type can be an offset into a string. -/
def acceptsOffset (lenient : Bool) (ty : Ty) : Bool :=
  isWhole ty || (lenient && (ty.isNative .float || ty.isBoolLike || ty.isStringLike))

/-- Reports an index that cannot be an offset into a string. -/
def checkStringOffset (v : Evaluator) (n : Node) (base index : UnionType) : AnalysisM Unit := do
  let lenient := (← options).scalarArrayKeyCast
  let nonNull ← types index.withoutNull
  if nonNull.isEmpty then return
  else if ← query fun t => nonNull.anyMember t (acceptsOffset lenient) then return
  else v.report .typeMismatchDimFetch n.line [← display base, ← display index, "int"]

/-- Reports an index that cannot be a key of the given kind, or that may be null. -/
def checkKey (v : Evaluator) (n : Node) (base index : UnionType) (kind : KeyKind) :
    AnalysisM Unit := do
  let lenient := (← options).scalarArrayKeyCast
  let nonNull ← types index.withoutNull
  if nonNull.isEmpty then return
  else
    let expected := UnionType.ofKeyKind (if lenient then .mixed else kind)
    if !(← query fun t => nonNull.anyMember t (acceptsIndex lenient kind)) then
      v.report .typeMismatchDimFetch n.line
        [← display base, ← display index, ← display expected]
    else if ← query index.admitsNull <&&> pure (!lenient) then
      v.report .typeMismatchDimFetchNullable n.line
        [← display base, ← display index, ← display expected]

/-- Reports an index that does not fit what it is used on. -/
def checkIndex (v : Evaluator) (n : Node) (base nonNull index : UnionType) : AnalysisM Unit := do
  if index.isEmpty || index.hasMixed then return
  else if ← query index.hasTemplate then return
  else
    match ← query nonNull.keyKind with
    | some kind => v.checkKey n base index kind
    | none => if ← query nonNull.hasStringLike then v.checkStringOffset n base index

/-- What the shapes of a type hold under an index. -/
def indexShapes (v : Evaluator) (n : Node) (base nonNull : UnionType)
    (index : Option (Child × UnionType)) : AnalysisM UnionType := do
  let otherArrays ← query fun t => do (← nonNull.withoutShapes t).hasArrayLike t
  let key ←
    match index with
    | some (child, type) => literalKey child type
    | none => pure none
  match key with
  | some key =>
    match ← query fun t => nonNull.shapeField? t key with
    | some found => return found
    | none =>
      if !otherArrays && !(← query nonNull.hasStringLike) then
        v.failWith .typeInvalidDimOffset n.line [key.text, ← display base]
      else return .empty
  | none => query fun t => do (← nonNull.filterMembers t Ty.isShape).elementTypes t

/-- The type of an index, where there is one. -/
def indexType (v : Evaluator) (n : Node) : AnalysisM (Option (Child × UnionType)) := do
  match optional? n "dim" with
  | none => return none
  | some child => return some (child, ← v.visit child)

/-- Indexing. -/
def dim (v : Evaluator) (n : Node) : AnalysisM UnionType := do
  let base ← v.visit (← required n "expr")
  let index ← v.indexType n
  if base.isEmpty then return .empty
  else
    let nonNull ← types base.withoutNull
    let hasShape ← query nonNull.hasShape
    let fromShapes ← if hasShape then v.indexShapes n base nonNull index else pure .empty
    let others ← query nonNull.withoutShapes
    let hasArray ← query others.hasArrayLike <||> pure others.hasMixed
    let fromArrays ← if hasArray then query others.elementTypes else pure .empty
    let hasString ← query nonNull.hasStringLike
    let hasObject ← query nonNull.hasTemplate <||> hasArrayAccess nonNull
    if !hasShape && !hasArray && !hasString && !hasObject then
      v.failWith .typeArraySuspicious n.line [← display base]
    else
      if ← query base.admitsNull <&&> pure (!base.hasMixed) then
        v.report .typeArraySuspiciousNullable n.line [← display nonNull]
      match index with
      | some (_, type) => v.checkIndex n base nonNull type
      | none => pure ()
      let result := (UnionType.empty.union fromShapes).union fromArrays
      let result := if hasString then result.insert NativeKind.string.id else result
      return if hasObject then result.insert NativeKind.mixed.id else result

end Evaluator

end UnionInference
