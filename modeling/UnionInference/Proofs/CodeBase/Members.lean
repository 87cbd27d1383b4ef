import UnionInference.CodeBase.Hydrate
import UnionInference.Proofs.Name
import UnionInference.Proofs.Table.Ordered

/-!
The members of classes and their copies. A copy differs from its original in the class that its name
tells, and that class may be spelled in any letter case: members that agree up to this are alike.
Inheriting is taken apart into what it does to the rows of members: the class keeps its own row and
takes over, in order, what the other row has under keys that are still free.
-/

namespace UnionInference

/-- A sort of class members. Moving a member changes the class in its name and nothing else, and a
code base hands on the members of each sort by themselves. -/
class MemberSort (μ : Type) [ClassMember μ] where
  /-- The members of this sort. -/
  members : CodeBase → MemberTables μ
  members_inherit : ∀ (b : CodeBase) (source target : ClassName),
    members (b.inherit source target) = (members b).inherit source target
  members_mark : ∀ (b : CodeBase) (marks : Std.HashSet QualifiedName),
    members { b with hydrated := marks } = members b
  owner_moveTo : ∀ (m : μ) (owner : ClassName),
    (ClassMember.name (ClassMember.moveTo m owner)).owner = owner
  moveTo_moveTo : ∀ (m : μ) (owner owner' : ClassName),
    ClassMember.moveTo (ClassMember.moveTo m owner) owner' = ClassMember.moveTo m owner'
  moveTo_owner : ∀ m : μ, ClassMember.moveTo m (ClassMember.name m).owner = m
  definedAs_moveTo : ∀ (m : μ) (owner : ClassName),
    ClassMember.definedAs (ClassMember.moveTo m owner) = ClassMember.definedAs m

instance : MemberSort Method where
  members := CodeBase.methods
  members_inherit _ _ _ := rfl
  members_mark _ _ := rfl
  owner_moveTo _ _ := rfl
  moveTo_moveTo _ _ _ := rfl
  moveTo_owner _ := rfl
  definedAs_moveTo _ _ := rfl

instance : MemberSort Property where
  members := CodeBase.properties
  members_inherit _ _ _ := rfl
  members_mark _ _ := rfl
  owner_moveTo _ _ := rfl
  moveTo_moveTo _ _ _ := rfl
  moveTo_owner _ := rfl
  definedAs_moveTo _ _ := rfl

instance : MemberSort ClassConstant where
  members := CodeBase.constants
  members_inherit _ _ _ := rfl
  members_mark _ _ := rfl
  owner_moveTo _ _ := rfl
  moveTo_moveTo _ _ _ := rfl
  moveTo_owner _ := rfl
  definedAs_moveTo _ _ := rfl

namespace ClassMember

variable {μ : Type} [ClassMember μ]

/-- The members agree in everything but the letter case of the class that has them. -/
def Alike (m m' : μ) : Prop :=
  (name m).owner.fold = (name m').owner.fold ∧ moveTo m (name m').owner = m'

variable [MemberSort μ] {m m' m'' : μ} {o o' : ClassName}

theorem Alike.refl (m : μ) : Alike m m := ⟨rfl, MemberSort.moveTo_owner m⟩

theorem Alike.moveTo_eq (h : Alike m m') (o : ClassName) : moveTo m o = moveTo m' o := by
  rw [← h.2, MemberSort.moveTo_moveTo]

theorem Alike.symm (h : Alike m m') : Alike m' m :=
  ⟨h.1.symm, by rw [← h.moveTo_eq, MemberSort.moveTo_owner]⟩

theorem Alike.trans (h : Alike m m') (h' : Alike m' m'') : Alike m m'' :=
  ⟨h.1.trans h'.1, by rw [h.moveTo_eq, h'.2]⟩

theorem Alike.definedAs_eq (h : Alike m m') : definedAs m = definedAs m' := by
  rw [← h.2, MemberSort.definedAs_moveTo]

theorem alike_moveTo (m : μ) (h : o.fold = o'.fold) : Alike (moveTo m o) (moveTo m o') := by
  refine ⟨?_, ?_⟩
  · rw [MemberSort.owner_moveTo, MemberSort.owner_moveTo, h]
  · rw [MemberSort.owner_moveTo, MemberSort.moveTo_moveTo]

/-- The rows have the same keys in the same order, with members that are alike. -/
def RowsAlike (es es' : List (String × μ)) : Prop :=
  List.Forall₂ (fun e e' => e.1 = e'.1 ∧ Alike e.2 e'.2) es es'

theorem RowsAlike.refl (es : List (String × μ)) : RowsAlike es es := by
  induction es with
  | nil => exact .nil
  | cons e es ih => exact .cons ⟨rfl, Alike.refl e.2⟩ ih

theorem RowsAlike.symm {es es' : List (String × μ)} (h : RowsAlike es es') : RowsAlike es' es := by
  induction h with
  | nil => exact .nil
  | cons hd _ ih => exact .cons ⟨hd.1.symm, hd.2.symm⟩ ih

theorem RowsAlike.trans {es es' es'' : List (String × μ)} (h : RowsAlike es es')
    (h' : RowsAlike es' es'') : RowsAlike es es'' := by
  induction h generalizing es'' with
  | nil => exact h'
  | cons hd _ ih =>
    obtain _ | ⟨hd', tl'⟩ := h'
    exact .cons ⟨hd.1.trans hd'.1, hd.2.trans hd'.2⟩ (ih tl')

omit [MemberSort μ] in
theorem RowsAlike.keys_eq {es es' : List (String × μ)} (h : RowsAlike es es') :
    es.map Prod.fst = es'.map Prod.fst := by
  induction h with
  | nil => rfl
  | cons hd _ ih => rw [List.map_cons, List.map_cons, hd.1, ih]

omit [MemberSort μ] in
theorem RowsAlike.lookup {es es' : List (String × μ)} (h : RowsAlike es es') (k : String) :
    Option.Rel Alike (es.lookup k) (es'.lookup k) := by
  induction h with
  | nil => exact .none
  | @cons e e' es es' hd _ ih =>
    obtain ⟨k₁, m₁⟩ := e
    obtain ⟨k₂, m₂⟩ := e'
    obtain ⟨rfl, hm⟩ := hd
    rw [List.lookup_cons, List.lookup_cons]
    cases k == k₁ with
    | true => exact .some hm
    | false => exact ih

/-! ### Taking over the members of another class -/

/-- The row of a class after it has taken over what another row has under keys that are free. -/
def adopt (owner : ClassName) (own inherited : List (String × μ)) : List (String × μ) :=
  inherited.foldl (fun t e =>
    if e.1 ∈ t.map Prod.fst then t else t ++ [(e.1, moveTo e.2 owner)]) own

omit [MemberSort μ] in
/-- What a class has itself goes before what it takes over. -/
theorem lookup_adopt (owner : ClassName) (own inherited : List (String × μ)) (k : String) :
    (adopt owner own inherited).lookup k =
      (own.lookup k).or ((inherited.lookup k).map fun m => moveTo m owner) := by
  induction inherited generalizing own with
  | nil => simp [adopt]
  | cons e es ih =>
    obtain ⟨k₁, m₁⟩ := e
    simp only [adopt, List.foldl_cons] at ih ⊢
    rw [ih, List.lookup_cons]
    split
    case isTrue hmem =>
      cases hk : k == k₁ with
      | true =>
        obtain ⟨⟨k₂, m₂⟩, he, rfl⟩ := List.mem_map.1 hmem
        obtain ⟨m, hm⟩ := Option.isSome_iff_exists.1 (List.lookup_isSome_iff.2 ⟨(k₂, m₂), he, hk⟩)
        rw [hm, Option.some_or, Option.some_or]
      | false => rfl
    case isFalse =>
      rw [List.lookup_append, Option.or_assoc, List.lookup_cons]
      cases k == k₁ <;> rfl

omit [MemberSort μ] in
/-- What a class has itself stays where it is. -/
theorem isPrefix_adopt (owner : ClassName) (own inherited : List (String × μ)) :
    own <+: adopt owner own inherited := by
  induction inherited generalizing own with
  | nil => exact List.prefix_refl own
  | cons e es ih =>
    refine List.IsPrefix.trans ?_ (ih _)
    dsimp only
    split
    · exact List.prefix_refl own
    · exact List.prefix_append own _

/-- Rows that are alike lead to rows that are alike. -/
theorem RowsAlike.adopt {own own' inherited inherited' : List (String × μ)}
    (ho : RowsAlike own own') (hi : RowsAlike inherited inherited') (h : o.fold = o'.fold) :
    RowsAlike (adopt o own inherited) (adopt o' own' inherited') := by
  induction hi generalizing own own' with
  | nil => exact ho
  | @cons e e' es es' hd _ ih =>
    simp only [ClassMember.adopt, List.foldl_cons] at ih ⊢
    rw [← hd.1, ← ho.keys_eq, hd.2.moveTo_eq]
    refine ih ?_
    split
    · exact ho
    · exact List.rel_append ho (.cons ⟨rfl, alike_moveTo e'.2 h⟩ .nil)

end ClassMember

/-! ### The tables of a sort of members -/

namespace MemberTables

open ClassMember

variable {μ : Type} {ms : MemberTables μ} {c d source target : ClassName}

theorem table_congr (ms : MemberTables μ) (h : c.fold = d.fold) : ms.table c = ms.table d := by
  rw [table, table, table?, table?, h]

theorem table_setTable_self (t : OrderedTable String μ) : (ms.setTable c t).table c = t := by
  simp [table, table?, setTable]

theorem table_setTable_of_ne (t : OrderedTable String μ) (h : c.fold ≠ d.fold) :
    (ms.setTable c t).table d = ms.table d := by
  simp [table, table?, setTable, Std.HashMap.getElem?_insert, h]

/-- The classes of the tables are valid ones. -/
def Valid (ms : MemberTables μ) : Prop := ∀ c, (ms.table c).Valid

theorem valid_empty : ({} : MemberTables μ).Valid := by
  intro c
  simpa [table, table?] using OrderedTable.valid_empty

theorem Valid.setTable (h : ms.Valid) (c : ClassName) {t : OrderedTable String μ} (ht : t.Valid) :
    (ms.setTable c t).Valid := by
  intro d
  by_cases hd : c.fold = d.fold
  · rw [← table_congr _ hd, table_setTable_self]
    exact ht
  · rw [table_setTable_of_ne t hd]
    exact h d

variable [ClassMember μ]

theorem Valid.get?_eq_lookup (h : ms.Valid) (c : ClassName) (n : String) :
    ms.get? c n = (ms.table c).toList.lookup (key μ n) :=
  (h c).get?_eq_lookup

/-- The rows that a class takes over one by one. -/
theorem foldl_inherit (target : ClassName) (es : List (String × μ)) {t : OrderedTable String μ}
    (ht : t.Valid) :
    let t' := es.foldl (fun t e =>
      if t.contains e.1 then t else t.insert e.1 (moveTo e.2 target)) t
    t'.Valid ∧ t'.toList = adopt target t.toList es := by
  induction es generalizing t with
  | nil => exact ⟨ht, rfl⟩
  | cons e es ih =>
    simp only [List.foldl_cons, adopt] at ih ⊢
    by_cases hc : t.contains e.1 = true
    · have hmem : e.1 ∈ t.toList.map Prod.fst := ht.contains_iff.1 hc
      rw [if_pos hc, if_pos hmem]
      exact ih ht
    · have hmem : e.1 ∉ t.toList.map Prod.fst := fun h => hc (ht.contains_iff.2 h)
      rw [if_neg hc, if_neg hmem, ← OrderedTable.toList_insert_of_not_contains (by simpa using hc)]
      exact ih (ht.insert _ _)

theorem table_inherit_of_ne (h : target.fold ≠ d.fold) :
    (ms.inherit source target).table d = ms.table d := by
  unfold inherit
  split
  · rfl
  · exact table_setTable_of_ne _ h

theorem Valid.toList_table_inherit (h : ms.Valid) (source target : ClassName) :
    ((ms.inherit source target).table target).toList =
      adopt target (ms.table target).toList (ms.table source).toList := by
  unfold inherit
  split
  case h_1 hnone => simp [table, hnone, OrderedTable.empty, OrderedTable.toList, adopt]
  case h_2 inherited hsome =>
    rw [table_setTable_self, (foldl_inherit target _ (h target)).2]
    simp [table, hsome]

theorem Valid.inherit (h : ms.Valid) (source target : ClassName) :
    (ms.inherit source target).Valid := by
  unfold MemberTables.inherit
  split
  · exact h
  · exact h.setTable target (foldl_inherit target _ (h target)).1

end MemberTables

end UnionInference
