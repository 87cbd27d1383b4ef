import Mathlib.Data.List.Basic
import UnionInference.Types.Union

/-!
Unions as sets. The members of a union are told apart by place alone, so two unions stand for the
same values when they have the same members, in whatever order these came.
-/

namespace UnionInference.UnionType

/-- The unions have the same members. -/
def SameMembers (u v : UnionType) : Prop := ∀ id, id ∈ u.members ↔ id ∈ v.members

theorem SameMembers.refl (u : UnionType) : SameMembers u u := fun _ => Iff.rfl

theorem SameMembers.symm {u v : UnionType} (h : SameMembers u v) : SameMembers v u :=
  fun id => (h id).symm

theorem SameMembers.trans {u v w : UnionType} (h : SameMembers u v) (k : SameMembers v w) :
    SameMembers u w := fun id => (h id).trans (k id)

/-- Members come once, so unions with the same members are rearrangements of each other. -/
theorem SameMembers.perm {u v : UnionType} (h : SameMembers u v) : u.members.Perm v.members :=
  (List.perm_ext_iff_of_nodup u.nodup v.nodup).2 h

theorem sameMembers_iff_perm {u v : UnionType} : SameMembers u v ↔ u.members.Perm v.members :=
  ⟨SameMembers.perm, fun h _ => h.mem_iff⟩

theorem ext {u v : UnionType} (h : u.members = v.members) : u = v := by
  cases u; cases v; cases h; rfl

theorem SameMembers.isEmpty_eq {u v : UnionType} (h : SameMembers u v) : u.isEmpty = v.isEmpty := by
  have hlen := h.perm.length_eq
  rw [isEmpty, isEmpty]
  cases hu : u.members <;> cases hv : v.members <;> simp_all

theorem isEmpty_iff {u : UnionType} : u.isEmpty = true ↔ u.members = [] := by
  rw [isEmpty, List.isEmpty_iff]

/-! ### Members of what is built -/

@[simp] theorem members_empty : empty.members = [] := rfl

@[simp] theorem mem_insert {u : UnionType} {a id : TypeId} :
    a ∈ (u.insert id).members ↔ a ∈ u.members ∨ a = id := by
  rw [insert]
  split
  · next h =>
    constructor
    · exact Or.inl
    · rintro (ha | rfl)
      · exact ha
      · exact h
  · simp

theorem mem_foldl_insert {a : TypeId} (ids : List TypeId) (u : UnionType) :
    a ∈ (ids.foldl insert u).members ↔ a ∈ u.members ∨ a ∈ ids := by
  induction ids generalizing u with
  | nil => simp
  | cons id ids ih => rw [List.foldl_cons, ih, mem_insert, List.mem_cons, or_assoc]

@[simp] theorem mem_union {u v : UnionType} {a : TypeId} :
    a ∈ (u.union v).members ↔ a ∈ u.members ∨ a ∈ v.members := mem_foldl_insert v.members u

@[simp] theorem mem_ofList {ids : List TypeId} {a : TypeId} : a ∈ (ofList ids).members ↔ a ∈ ids := by
  rw [ofList, mem_foldl_insert]; simp

theorem members_of (id : TypeId) : (of id).members = [id] := by
  simp [of, ofList, insert, empty]

@[simp] theorem mem_of {id a : TypeId} : a ∈ (of id).members ↔ a = id := by
  rw [members_of, List.mem_singleton]

theorem members_native (k : NativeKind) : (native k).members = [k.id] := members_of k.id

theorem orMixed_of_isEmpty {u : UnionType} (h : u.isEmpty = true) : u.orMixed = mixed := if_pos h

theorem orMixed_of_not_isEmpty {u : UnionType} (h : u.isEmpty = false) : u.orMixed = u := by
  rw [orMixed, h]; rfl

theorem orMixed_members_ne_nil (u : UnionType) : u.orMixed.members ≠ [] := by
  cases h : u.isEmpty with
  | true => rw [orMixed_of_isEmpty h, mixed, members_native]; simp
  | false =>
    rw [orMixed_of_not_isEmpty h]
    exact fun hnil => by rw [isEmpty_iff.2 hnil] at h; cases h

end UnionInference.UnionType
