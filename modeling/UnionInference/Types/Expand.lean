import UnionInference.Types.Cast

/-!
The ancestors of class types. A class type expands to itself and to the expansions of the types its
class declares: the parent and the interfaces. Asking for a class may load it, so expansion works on
the hierarchy as well as on the table. Hierarchies that nest too deeply, and so all that are cyclic,
are refused.
-/

namespace UnionInference

/-- What expansion asks of the classes of a program. -/
class Hierarchy (σ : Type) where
  /-- The type that a class declares: its own, its parent and its interfaces. Answering may load the
  class. -/
  declaredType : ClassName → σ → Option UnionType × σ
  /-- A number that changes whenever an answer can have changed. -/
  generation : σ → Nat

/-- Work on a table of types and a hierarchy. -/
abbrev ExpandM (σ : Type) := StateT (TypeTable × σ) Checked

namespace ExpandM

variable {σ : Type}

/-- Work on the table alone. -/
def types {α : Type} (work : TypeM α) : ExpandM σ α := fun s => do
  let (a, t) ← work s.1
  return (a, (t, s.2))

/-- Asks the table. -/
def query {α : Type} (f : TypeTable → Checked α) : ExpandM σ α := types (TypeM.query f)

/-- What a class declares. -/
def declaredType [Hierarchy σ] (name : ClassName) : ExpandM σ (Option UnionType) := fun s =>
  let (answer, h) := Hierarchy.declaredType name s.2
  .ok (answer, (s.1, h))

end ExpandM

/-- How deeply ancestors may nest. -/
def maxExpansionDepth : Nat := 20

namespace TypeTable

set_option linter.unusedVariables false in
/-- Whether a type is an array, of arrays perhaps, of objects of a class. -/
def isArrayOfClass (t : TypeTable) (id : TypeId) : Checked Bool := do
  let ⟨ty, below⟩ ← t.fetchBelow id
  match hk : ty.kind with
  | .array _ element =>
    if (← t.fetch element).className?.isSome then return true else t.isArrayOfClass element
  | _ => return false
termination_by id
decreasing_by exact below _ (by simp [hk, TypeKind.embedded])

end TypeTable

/-- A type with its ancestors, with a number of levels left. -/
def expandWithin {σ : Type} [Hierarchy σ] : Nat → TypeId → ExpandM σ UnionType
  | 0, id => do
    throw (.expansionTooDeep (← ExpandM.query fun t => t.typeKey id) maxExpansionDepth)
  | n + 1, id => do
    let ty ← ExpandM.query fun t => t.fetch id
    match ty.kind with
    | .object name _ =>
      match ← ExpandM.declaredType name with
      | none => return .of id
      | some declared =>
        declared.members.foldlM (fun result member => do
          let member ←
            if ty.nullable then ExpandM.types (TypeM.withNull member true) else pure member
          if member = id then return result
          else
            match (← ExpandM.query fun t => t.fetch member).className? with
            | some other =>
              if other.sameClass name then return result.insert member
              else return result.union (← expandWithin n member)
            | none => return result.union (← expandWithin n member)) (.of id)
    | .array key element =>
      if (← ExpandM.query fun t => t.fetch element).className?.isNone &&
          !(← ExpandM.query fun t => t.isArrayOfClass element) then return .of id
      else
        let expanded ← expandWithin n element
        ExpandM.types (expanded.mapMembers fun e => TypeM.array key e ty.nullable)
    | _ => return .of id

namespace ExpansionCache

/-- The cache as of the given state of the hierarchy. -/
def sync (c : ExpansionCache) (generation : Nat) : ExpansionCache :=
  if c.generation = generation then c else { generation, entries := {} }

end ExpansionCache

namespace TypeTable

/-- The table with its cache as of the given state of the hierarchy. -/
def syncCache (t : TypeTable) (generation : Nat) : TypeTable :=
  { t with cache := t.cache.sync generation }

/-- Remembers the ancestors of a type. -/
def remember (t : TypeTable) (id : TypeId) (u : UnionType) : TypeTable :=
  { t with cache := { t.cache with entries := t.cache.entries.insert id u } }

end TypeTable

/-- A type with its ancestors, from the cache if they were found before in the same state of the
hierarchy. -/
def expandType {σ : Type} [Hierarchy σ] (id : TypeId) : ExpandM σ UnionType := do
  modify fun s => (s.1.syncCache (Hierarchy.generation s.2), s.2)
  match (← get).1.cache.entries[id]? with
  | some u => return u
  | none =>
    let u ← expandWithin maxExpansionDepth id
    modify fun s => ((s.1.syncCache (Hierarchy.generation s.2)).remember id u, s.2)
    return u

namespace UnionType

/-- The members with their ancestors. -/
def expand {σ : Type} [Hierarchy σ] (u : UnionType) : ExpandM σ UnionType :=
  u.members.foldlM (fun result id => do return result.union (← expandType id)) empty

/-- Whether the class is one of the members or of their ancestors. -/
def hasAncestor {σ : Type} [Hierarchy σ] (u : UnionType) (owner : ClassName) :
    ExpandM σ Bool := do
  let expanded ← u.expand
  expanded.members.anyM fun id => do
    match (← ExpandM.query fun t => t.fetch id).className? with
    | some name => return name.sameClass owner
    | none => return false

/-- Whether a union casts to another one when descendants may stand for their ancestors. -/
def canCastExpanded {σ : Type} [Hierarchy σ] (u v : UnionType) : ExpandM σ Bool := do
  if ← ExpandM.query (u.canCast v) then return true
  else
    let expanded ← u.expand
    ExpandM.query (expanded.canCast v)

end UnionType

end UnionInference
