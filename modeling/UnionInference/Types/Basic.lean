import UnionInference.Types.Native
import UnionInference.Name

/-!
Types and unions of types. A type is held once in a table and known by its place there; a union is a
set of such places that remembers the order in which its members came. What a type is made of are
unions and places again, so a type never contains another one directly.
-/

namespace UnionInference

/-- The place of a type in its table. -/
abbrev TypeId := Nat

/-- A union of types: a set of places in order of arrival. The empty union says that nothing is
known. -/
structure UnionType where
  members : List TypeId
  nodup : members.Nodup
  deriving DecidableEq

namespace UnionType

/-- The union of no types. -/
def empty : UnionType := ⟨[], List.nodup_nil⟩

instance : Inhabited UnionType := ⟨empty⟩

/-- Whether the type is a member. -/
def contains (u : UnionType) (id : TypeId) : Bool := u.members.contains id

/-- Adds a type at the end unless it is a member. -/
def insert (u : UnionType) (id : TypeId) : UnionType :=
  if h : id ∈ u.members then u
  else
    ⟨u.members ++ [id], by
      rw [List.nodup_append]
      refine ⟨u.nodup, by simp, ?_⟩
      intro a ha b hb
      simp only [List.mem_singleton] at hb
      subst hb
      exact fun heq => h (heq ▸ ha)⟩

/-- The union of a list of types. -/
def ofList (ids : List TypeId) : UnionType := ids.foldl insert empty

/-- The union of one type. -/
def of (id : TypeId) : UnionType := ofList [id]

/-- The union of one built-in type. -/
def native (k : NativeKind) : UnionType := of k.id

/-- The union that admits every value. -/
def mixed : UnionType := native .mixed

/-- Adds the members of another union. -/
def union (u v : UnionType) : UnionType := v.members.foldl insert u

/-- The members that satisfy a test. -/
def filter (u : UnionType) (p : TypeId → Bool) : UnionType :=
  ⟨u.members.filter p, List.Nodup.sublist List.filter_sublist u.nodup⟩

/-- Removes a member. -/
def erase (u : UnionType) (id : TypeId) : UnionType := u.filter fun m => m != id

/-- The members that the other union does not have. -/
def subtract (u v : UnionType) : UnionType := u.filter fun m => !v.contains m

/-- The number of members. -/
def size (u : UnionType) : Nat := u.members.length

/-- Whether there is no member. -/
def isEmpty (u : UnionType) : Bool := u.members.isEmpty

/-- Whether the given type is the only member. -/
def isOnly (u : UnionType) (id : TypeId) : Bool := u.members == [id]

/-- The only member, if there is just one. -/
def single? (u : UnionType) : Option TypeId :=
  match u.members with
  | [id] => some id
  | _ => none

/-- Whether two unions have the same members in any order. -/
def same (u v : UnionType) : Bool := u.size == v.size && u.members.all v.contains

/-- Whether the union admits every value by name. -/
def hasMixed (u : UnionType) : Bool := u.contains NativeKind.mixed.id

/-- Whether null is the only member. -/
def isNull (u : UnionType) : Bool := u.isOnly NativeKind.null.id

/-- Whether the plain array type is the only member. -/
def isBareArray (u : UnionType) : Bool := u.isOnly NativeKind.array.id

/-- The union itself, or all values if it is empty. -/
def orMixed (u : UnionType) : UnionType := if u.isEmpty then mixed else u

/-- The types of keys of a kind. -/
def ofKeyKind : KeyKind → UnionType
  | .int => native .int
  | .string => native .string
  | .mixed => ofList [NativeKind.int.id, NativeKind.string.id]

end UnionType

/-- What a field of an array shape holds, and whether it may be missing. -/
structure ShapeField where
  type : UnionType
  optional : Bool := false
  deriving DecidableEq

/-- The fields of an array shape in order, each key once. -/
abbrev ShapeFields := List (ShapeKey × ShapeField)

namespace ShapeFields

/-- The field of a key. -/
def get? (fields : ShapeFields) (key : ShapeKey) : Option ShapeField := fields.lookup key

/-- Stores a field: in place of the one with the same key, else at the end. -/
def insert (fields : ShapeFields) (key : ShapeKey) (field : ShapeField) : ShapeFields :=
  match fields with
  | [] => [(key, field)]
  | (k, f) :: rest =>
    if k = key then (key, field) :: rest else (k, f) :: insert rest key field

/-- The fields stored one after the other. -/
def ofList (fields : List (ShapeKey × ShapeField)) : ShapeFields :=
  fields.foldl (fun fs f => insert fs f.1 f.2) []

/-- The kind that covers all keys, if there are any. -/
def keyKind (fields : ShapeFields) : Option KeyKind :=
  KeyKind.mergeAll (fields.map fun f => f.1.kind)

end ShapeFields

/-- A parameter of a callable type. The empty union stands for any value. -/
structure CallableParam where
  type : UnionType
  byRef : Bool := false
  variadic : Bool := false
  optional : Bool := false
  deriving DecidableEq

/-- The signature of a callable type: of a closure object, or of anything that can be called. -/
structure CallableSignature where
  isClosure : Bool
  params : List CallableParam
  result : UnionType
  deriving DecidableEq

/-- What a type is, apart from whether it also admits null. -/
inductive TypeKind where
  | native (kind : NativeKind)
  | object (name : ClassName) (args : List UnionType)
  | array (key : KeyKind) (element : TypeId)
  | shape (fields : ShapeFields)
  | intLiteral (value : Int)
  | stringLiteral (value : String)
  | callable (sig : CallableSignature)
  | template (name : String)
  deriving DecidableEq

namespace TypeKind

/-- Whether there is a variant that also admits null. -/
def acceptsNull : TypeKind → Bool
  | .native k => !k.ignoresNull
  | _ => true

/-- The types that a type is made of, in the order in which they are written. -/
def embedded : TypeKind → List TypeId
  | .object _ args => args.flatMap UnionType.members
  | .array _ element => [element]
  | .shape fields => fields.flatMap fun f => f.2.type.members
  | .callable sig => (sig.params.flatMap fun p => p.type.members) ++ sig.result.members
  | _ => []

end TypeKind

/-- A type: its kind, and whether it also admits null. -/
structure Ty where
  kind : TypeKind
  nullable : Bool
  deriving DecidableEq

namespace Ty

/-- The built-in kind, if it is one. -/
def native? (t : Ty) : Option NativeKind :=
  match t.kind with
  | .native k => some k
  | _ => none

/-- Whether it is the given built-in type, up to null. -/
def isNative (t : Ty) (k : NativeKind) : Bool := t.native? == some k

/-- Whether it admits null. -/
def admitsNull (t : Ty) : Bool := t.nullable || t.isNative .null

/-- Whether it is built in, an array or a literal, and so names no class. -/
def isNativeType (t : Ty) : Bool :=
  match t.kind with
  | .native _ | .array .. | .shape _ | .intLiteral _ | .stringLiteral _ => true
  | _ => false

/-- Whether its values are arrays. -/
def isArrayLike (t : Ty) : Bool :=
  match t.kind with
  | .native .array | .array .. | .shape _ => true
  | _ => false

/-- Whether it is an array shape. -/
def isShape (t : Ty) : Bool :=
  match t.kind with
  | .shape _ => true
  | _ => false

/-- Whether it is an array of elements of one type. -/
def isGenericArray (t : Ty) : Bool :=
  match t.kind with
  | .array .. => true
  | _ => false

/-- Whether it is an array or the type of all that can be iterated over. -/
def isIterableLike (t : Ty) : Bool := t.isArrayLike || t.isNative .iterable

/-- Whether its values are objects. -/
def isObjectLike (t : Ty) : Bool :=
  match t.kind with
  | .object .. => true
  | .callable sig => sig.isClosure
  | .native .object | .native .static | .native .self => true
  | _ => false

/-- Whether its values are integers. -/
def isIntLike (t : Ty) : Bool :=
  match t.kind with
  | .native .int | .intLiteral _ => true
  | _ => false

/-- Whether its values are strings. -/
def isStringLike (t : Ty) : Bool :=
  match t.kind with
  | .native .string | .stringLiteral _ => true
  | _ => false

/-- Whether its values are truth values. -/
def isBoolLike (t : Ty) : Bool :=
  match t.kind with
  | .native .bool | .native .true | .native .false => true
  | _ => false

/-- Whether its values are scalars. -/
def isScalar (t : Ty) : Bool :=
  match t.kind with
  | .native k => k.isScalar
  | .intLiteral _ | .stringLiteral _ => true
  | _ => false

/-- Whether it is the type of one literal. -/
def isLiteral (t : Ty) : Bool :=
  match t.kind with
  | .intLiteral _ | .stringLiteral _ => true
  | _ => false

/-- Whether it is a template placeholder. -/
def isTemplate (t : Ty) : Bool :=
  match t.kind with
  | .template _ => true
  | _ => false

/-- Whether it stands for the class that the code belongs to. -/
def isStaticLike (t : Ty) : Bool :=
  match t.kind with
  | .native .static | .native .self => true
  | _ => false

/-- The class whose objects it holds; closures belong to a class of their own. -/
def className? (t : Ty) : Option ClassName :=
  match t.kind with
  | .object name _ => some name
  | .callable sig => if sig.isClosure then some (.make "\\" "Closure") else none
  | _ => none

/-- Whether it is the type of the class with the given full name. -/
def isClassNamed (t : Ty) (full : String) : Bool :=
  match t.kind with
  | .object name _ => name.isNamed full
  | _ => false

end Ty

/-- A literal value of the analysed program. -/
inductive Scalar where
  | int (value : Int)
  | float (bits : UInt64)
  | string (value : String)
  | bool (value : Bool)
  | null
  deriving DecidableEq, Repr

end UnionInference
