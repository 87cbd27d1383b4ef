import UnionInference.Types.Table
import UnionInference.Options.Basic

/-!
Unions and what their members are. Questions about the members look into the table; operations that
may need new types work on it.
-/

namespace UnionInference.UnionType

/-- The union as text: the texts of its members in ascending order. -/
def display (u : UnionType) (t : TypeTable) : Checked String :=
  match u.members.find? fun id => decide (t.size ≤ id) with
  | some id => .error (.outOfBounds t.size id)
  | none => .ok (t.renderUnion u)

/-! ### Questions about the members -/

/-- Whether some member satisfies a test. -/
def anyMember (u : UnionType) (t : TypeTable) (p : Ty → Bool) : Checked Bool :=
  u.members.anyM fun id => (t.fetch id).map p

/-- Whether there are members and all of them satisfy a test. -/
def allMembers (u : UnionType) (t : TypeTable) (p : Ty → Bool) : Checked Bool :=
  if u.isEmpty then .ok false else u.members.allM fun id => (t.fetch id).map p

/-- The members that satisfy a test. -/
def filterMembers (u : UnionType) (t : TypeTable) (p : Ty → Bool) : Checked UnionType := do
  let kept ← u.members.filterM fun id => (t.fetch id).map p
  return ofList kept

/-- Whether some member admits null. -/
def admitsNull (u : UnionType) (t : TypeTable) : Checked Bool := u.anyMember t Ty.admitsNull

/-- Whether some member is an array. -/
def hasArrayLike (u : UnionType) (t : TypeTable) : Checked Bool := u.anyMember t Ty.isArrayLike

/-- Whether every member is an array or null. -/
def isArrayLike (u : UnionType) (t : TypeTable) : Checked Bool :=
  u.allMembers t fun ty => ty.isArrayLike || ty.isNative .null

/-- Whether some member is an array shape. -/
def hasShape (u : UnionType) (t : TypeTable) : Checked Bool := u.anyMember t Ty.isShape

/-- Whether some member is an array of elements of one type. -/
def hasGenericArray (u : UnionType) (t : TypeTable) : Checked Bool :=
  u.anyMember t Ty.isGenericArray

/-- Whether some member names a class. -/
def hasClassLike (u : UnionType) (t : TypeTable) : Checked Bool :=
  u.anyMember t fun ty => ty.className?.isSome

/-- Whether the values of some member are objects. -/
def hasObjectLike (u : UnionType) (t : TypeTable) : Checked Bool := u.anyMember t Ty.isObjectLike

/-- Whether some member is a template placeholder. -/
def hasTemplate (u : UnionType) (t : TypeTable) : Checked Bool := u.anyMember t Ty.isTemplate

/-- Whether some member stands for the class that the code belongs to. -/
def hasStatic (u : UnionType) (t : TypeTable) : Checked Bool := u.anyMember t Ty.isStaticLike

/-- Whether some member is an integer type. -/
def hasIntLike (u : UnionType) (t : TypeTable) : Checked Bool := u.anyMember t Ty.isIntLike

/-- Whether some member is the floating-point type. -/
def hasFloat (u : UnionType) (t : TypeTable) : Checked Bool := u.anyMember t (Ty.isNative · .float)

/-- Whether some member is a string type. -/
def hasStringLike (u : UnionType) (t : TypeTable) : Checked Bool := u.anyMember t Ty.isStringLike

/-- Whether every member is an integer type. -/
def isIntLike (u : UnionType) (t : TypeTable) : Checked Bool := u.allMembers t Ty.isIntLike

/-- Whether every member is the floating-point type. -/
def isFloat (u : UnionType) (t : TypeTable) : Checked Bool := u.allMembers t (Ty.isNative · .float)

/-- Whether every member is a string type. -/
def isStringLike (u : UnionType) (t : TypeTable) : Checked Bool := u.allMembers t Ty.isStringLike

/-- Whether every member is a scalar type. -/
def isScalar (u : UnionType) (t : TypeTable) : Checked Bool := u.allMembers t Ty.isScalar

/-- Whether every member can be the key of an array. -/
def isKeyLike (u : UnionType) (t : TypeTable) : Checked Bool :=
  u.allMembers t fun ty => ty.isIntLike || ty.isStringLike

/-- Adds a class name unless the list has it up to letter case. -/
def addClass (names : List ClassName) (name : ClassName) : List ClassName :=
  if names.any name.sameClass then names else names ++ [name]

/-- The classes that the members name, each once, in the order of the members. -/
def classNames (u : UnionType) (t : TypeTable) : Checked (List ClassName) :=
  u.members.foldlM (fun names id => do
    match (← t.fetch id).className? with
    | some name => return addClass names name
    | none => return names) []

/-- The members that are neither arrays nor null. -/
def withoutArrays (u : UnionType) (t : TypeTable) : Checked UnionType :=
  u.filterMembers t fun ty => !ty.isArrayLike && !ty.isNative .null

/-- The members that are no array shapes. -/
def withoutShapes (u : UnionType) (t : TypeTable) : Checked UnionType :=
  u.filterMembers t fun ty => !ty.isShape

/-! ### Arrays -/

/-- The types of the elements of the members from the given ones on, added to those found so far.
The plain array type makes it all values. -/
def elementTypesFrom (t : TypeTable) : UnionType → List TypeId → Checked UnionType
  | found, [] => .ok found
  | found, id :: rest => do
    match (← t.fetch id).kind with
    | .native .array | .native .mixed => return mixed
    | .array _ element => elementTypesFrom t (found.insert element) rest
    | .shape fields =>
      elementTypesFrom t (fields.foldl (fun u f => u.union f.2.type) found) rest
    | _ => elementTypesFrom t found rest

/-- The types of the elements of the array members. -/
def elementTypes (u : UnionType) (t : TypeTable) : Checked UnionType :=
  elementTypesFrom t empty u.members

/-- The types of the values met when iterating. -/
def iterableValues (u : UnionType) (t : TypeTable) : Checked UnionType := do
  let elements ← u.elementTypes t
  if ← u.anyMember t fun ty => ty.isNative .iterable || ty.isObjectLike then
    return elements.insert NativeKind.mixed.id
  else return elements

/-- The kind of the keys of a type, if it is an array. -/
def keyKindOf (ty : Ty) : Option KeyKind :=
  match ty.kind with
  | .native .array | .native .iterable => some .mixed
  | .array key _ => some key
  | .shape fields => some ((ShapeFields.keyKind fields).getD .mixed)
  | _ => none

/-- The kind that covers the keys of all array members, if there are any. -/
def keyKind (u : UnionType) (t : TypeTable) : Checked (Option KeyKind) := do
  let kinds ← u.members.mapM fun id => (t.fetch id).map keyKindOf
  return KeyKind.mergeAll (kinds.filterMap fun k => k)

/-- The types of the keys met when iterating. -/
def iterableKeys (u : UnionType) (t : TypeTable) : Checked UnionType := do
  return ofKeyKind ((← u.keyKind t).getD .mixed)

/-- What the shape members hold under a key, if one of them has it. -/
def shapeField? (u : UnionType) (t : TypeTable) (key : ShapeKey) : Checked (Option UnionType) :=
  u.members.foldlM (fun found id => do
    match (← t.fetch id).kind with
    | .shape fields =>
      match ShapeFields.get? fields key with
      | some field => return some ((found.getD empty).union field.type)
      | none => return found
    | _ => return found) none

/-! ### Operations that may need new types -/

/-- The union of what a function makes of each member. -/
def mapMembers (u : UnionType) (f : TypeId → TypeM TypeId) : TypeM UnionType := do
  return ofList (← u.members.mapM f)

/-- Every member with null. -/
def withNull (u : UnionType) : TypeM UnionType := u.mapMembers fun id => TypeM.withNull id true

/-- Every member without null, and without the null type itself. -/
def withoutNull (u : UnionType) : TypeM UnionType :=
  (u.erase NativeKind.null.id).mapMembers fun id => TypeM.withNull id false

/-- Every literal replaced by its built-in type. -/
def widenLiterals (u : UnionType) : TypeM UnionType := u.mapMembers TypeM.widenLiteral

/-- Arrays whose elements are the members. -/
def asArrays (u : UnionType) (key : KeyKind) : TypeM UnionType :=
  u.mapMembers fun id => TypeM.array key id false

/-- The arrays that cover a shape: one for each type of a field, with the kind of all its keys. -/
def flattenShape (fields : ShapeFields) (nullable : Bool) : TypeM UnionType := do
  match ShapeFields.keyKind fields with
  | none => return of (← TypeM.native .array nullable)
  | some key =>
    fields.foldlM (fun result f => do
      let elements ← if f.2.type.isEmpty then pure mixed else f.2.type.widenLiterals
      elements.members.foldlM (fun result element => do
        return result.insert (← TypeM.array key element nullable)) result) empty

/-- Every shape replaced by the arrays that cover it. -/
def flattenShapes (u : UnionType) : TypeM UnionType := do
  if !(← TypeM.query u.hasShape) then return u
  else
    u.members.foldlM (fun result id => do
      let ty ← TypeM.fetch id
      match ty.kind with
      | .shape fields => return result.union (← flattenShape fields ty.nullable)
      | _ => return result.insert id) empty

/-- The type of a literal value. -/
def ofScalar (s : Scalar) (o : Options) : TypeM UnionType :=
  match s with
  | .int n => if o.literalScalarTypes then of <$> TypeM.intern (.intLiteral n) false
    else pure (native .int)
  | .float _ => pure (native .float)
  | .string s =>
    if o.literalScalarTypes && decide (s.utf8ByteSize ≤ o.maxLiteralStringLength) then
      of <$> TypeM.intern (.stringLiteral s) false
    else pure (native .string)
  | .bool true => pure (native .true)
  | .bool false => pure (native .false)
  | .null => pure (native .null)

end UnionInference.UnionType
