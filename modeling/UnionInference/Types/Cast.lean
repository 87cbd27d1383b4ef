import UnionInference.Types.Union

/-!
Whether a value of one type may be used where another type is expected. Of the two types only the
source is held to account for null; then their kinds are compared. Both types become smaller at each
step down, so the comparison comes to an end.
-/

namespace UnionInference

/-- The classes whose objects can be iterated over. -/
def traversableClasses : List String :=
  ["Traversable", "Iterator", "IteratorAggregate", "Generator"]

/-- Whether a built-in type may stand for another one. -/
def nativeCasts (a b : NativeKind) : Bool :=
  a == b ||
  match a, b with
  | .int, .float => true
  | .true, .bool | .false, .bool => true
  | .bool, .true | .bool, .false => true
  | .array, .iterable => true
  | .string, .callable | .array, .callable => true
  | .static, .self | .static, .object | .self, .static | .self, .object => true
  | a, .scalar => a.isScalar
  | .scalar, b => b.isScalar
  | _, _ => false

namespace UnionType

/-- Whether some member of a union casts to some member of another one, as told by `cast`. An empty
union on either side is no obstacle, nor is the type of all values. -/
def castsWith (u v : UnionType) (nullCasts : Bool)
    (cast : (a : TypeId) → a ∈ u.members → TypeId → Checked Bool) : Checked Bool :=
  if u.isEmpty || v.isEmpty || u.same v then .ok true
  else if u.hasMixed || v.hasMixed then .ok true
  else if nullCasts && u.isNull then .ok true
  else u.members.attach.anyM fun a => v.members.anyM fun b => cast a.1 a.2 b

end UnionType

namespace TypeTable

/-- Whether one kind of type casts to another, given the answers for the types it is made of. -/
def castsKind (nullCasts : Bool) (source target : TypeKind)
    (cast : (a : TypeId) → a ∈ source.embedded → TypeId → Checked Bool) : Checked Bool :=
  match source, target with
  | .native a, .native b => .ok (nativeCasts a b)
  | .template _, _ => .ok true
  | _, .template _ => .ok true
  | .native a, .object name _ =>
    .ok (match a with
      | .static | .self | .object => true
      | .iterable => name.isNamed "Traversable"
      | .callable => name.isNamed "Closure"
      | _ => false)
  | .object name _, .native b =>
    .ok (match b with
      | .static | .self | .object => true
      | .iterable => traversableClasses.any name.isNamed
      | .callable => name.isNamed "Closure"
      | _ => false)
  | .intLiteral _, .native b => .ok (b == .int || b == .float || b == .scalar)
  | .stringLiteral _, .native b => .ok (b == .string || b == .scalar || b == .callable)
  | .native a, .intLiteral _ => .ok (a == .int)
  | .native a, .stringLiteral _ => .ok (a == .string)
  | .array .., .native b => .ok (b == .array || b == .iterable)
  | .shape _, .native b => .ok (b == .array || b == .iterable)
  | .native a, .array .. => .ok (a == .array)
  | .native a, .shape _ => .ok (a == .array)
  | .array k₁ e₁, .array k₂ e₂ =>
    if k₁.casts k₂ then cast e₁ (by simp [TypeKind.embedded]) e₂ else .ok false
  | .shape fields, .array key element =>
    fields.attach.allM fun f => do
      if f.1.1.kind.casts key then
        f.1.2.type.castsWith (.of element) nullCasts fun a ha b =>
          cast a (by
            simp only [TypeKind.embedded, List.mem_flatMap]
            exact ⟨f.1, f.2, ha⟩) b
      else return false
  | .array _ element, .shape fields =>
    fields.allM fun f =>
      (UnionType.of element).castsWith f.2.type nullCasts fun a ha b =>
        cast a (by
          simpa [UnionType.of, UnionType.ofList, UnionType.insert, UnionType.empty,
            TypeKind.embedded] using ha) b
  | .shape fields, .shape expected =>
    expected.allM fun e =>
      match hf : fields.lookup e.1 with
      | some actual =>
        actual.type.castsWith e.2.type nullCasts fun a ha b =>
          cast a (by
            simp only [TypeKind.embedded, List.mem_flatMap]
            obtain ⟨l₁, l₂, hl, _⟩ := List.lookup_eq_some_iff.1 hf
            exact ⟨(e.1, actual), by simp [hl], ha⟩) b
      | none => .ok e.2.optional
  | .array .., .object name _ => .ok (name.isNamed "Traversable")
  | .shape _, .object name _ => .ok (name.isNamed "Traversable")
  | .native a, .callable _ => .ok (a == .callable)
  | .callable sig, .native b => .ok (b == .callable || (b == .object && sig.isClosure))
  | .callable _, .object name _ => .ok (name.isNamed "Closure")
  | .object name _, .callable _ => .ok (name.isNamed "Closure")
  | .callable a, .callable b =>
    a.result.castsWith b.result nullCasts fun x hx y =>
      cast x (by simp only [TypeKind.embedded, List.mem_append]; exact .inr hx) y
  | .object a as, .object b bs =>
    if !a.sameClass b then .ok false
    else if as.isEmpty || bs.isEmpty then .ok true
    else if as.length != bs.length then .ok false
    else
      (as.attach.zip bs).allM fun p =>
        p.1.1.castsWith p.2 nullCasts fun x hx y =>
          cast x (by
            simp only [TypeKind.embedded, List.mem_flatMap]
            exact ⟨p.1.1, p.1.2, hx⟩) y
  | _, _ => .ok false

set_option linter.unusedVariables false in
/-- Whether a value of the source type may be used where the target type is expected. -/
def canCast (t : TypeTable) (source target : TypeId) : Checked Bool :=
  if source = target then .ok true
  else do
    let ⟨s, hs⟩ ← t.fetchBelow source
    let d ← t.fetch target
    if d.isNative .mixed || s.isNative .mixed then return true
    else if s.isNative .null then return d.admitsNull || t.nullCasts
    else if s.nullable && !d.admitsNull && !t.nullCasts then return false
    else castsKind t.nullCasts s.kind d.kind fun a _ b => t.canCast a b
termination_by source
decreasing_by exact hs _ ‹_›

end TypeTable

namespace UnionType

/-- Whether some member of a union casts to some member of another one. -/
def canCast (u v : UnionType) (t : TypeTable) : Checked Bool :=
  u.castsWith v t.nullCasts fun a _ b => t.canCast a b

end UnionType

end UnionInference
