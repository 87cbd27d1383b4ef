import Mathlib.Data.Fintype.Card
import Mathlib.Data.Set.Finite.List
import UnionInference.Proofs.CodeBase.Members

/-!
What a class inherits, said without tables that are filled step by step. A class has a member if it
declares one itself; else it has a copy of the first one that a registered trait, its parent or an
interface has by the same rule. The rule descends from a class to its sources, so it is defined for
code bases in which no class is among its own sources. The whole row of members is described the
same way, and looking a member up in the row is following the rule.
-/

namespace UnionInference

namespace CodeBase

variable {b : CodeBase} {c d s s' : ClassName}

/-! ### The sources of a class -/

theorem class?_congr (b : CodeBase) (h : c.fold = d.fold) : b.class? c = b.class? d := by
  rw [class?, class?, h]

theorem isRegistered_congr (b : CodeBase) (h : c.fold = d.fold) :
    b.isRegistered c = b.isRegistered d := by
  rw [isRegistered, isRegistered, h]

/-- Where a class should inherit from, the first to ask first: its traits in order, then its parent,
then its interfaces in order. -/
def lineage (decl : ClassDecl) : List ClassName :=
  decl.traits ++ decl.parent.toList ++ decl.interfaces

theorem sources_eq_lineage (decl : ClassDecl) : decl.sources = lineage decl := rfl

/-- The registered classes that a class should inherit from, the first to ask first. -/
def sourcesOf (b : CodeBase) (c : ClassName) : List ClassName :=
  (((b.class? c).map lineage).getD []).filter b.isRegistered

theorem sourcesOf_congr (b : CodeBase) (h : c.fold = d.fold) : b.sourcesOf c = b.sourcesOf d := by
  rw [sourcesOf, sourcesOf, b.class?_congr h]

/-- The class is, up to letter case, one that the other class inherits from directly. -/
def IsSource (b : CodeBase) (s c : ClassName) : Prop := ∃ s' ∈ b.sourcesOf c, s'.fold = s.fold

theorem isSource_of_mem (h : s ∈ b.sourcesOf c) : b.IsSource s c := ⟨s, h, rfl⟩

theorem IsSource.congr (h : b.IsSource s c) (hs : s.fold = s'.fold) (hc : c.fold = d.fold) :
    b.IsSource s' d := by
  obtain ⟨t, ht, hts⟩ := h
  exact ⟨t, b.sourcesOf_congr hc ▸ ht, hts.trans hs⟩

theorem IsSource.isRegistered (h : b.IsSource s c) : b.isRegistered s = true := by
  obtain ⟨t, ht, hts⟩ := h
  rw [← b.isRegistered_congr hts]
  exact (List.mem_filter.1 ht).2

/-- The class is an ancestor of the other one: a source of it, or a source of an ancestor. -/
def IsAncestor (b : CodeBase) : ClassName → ClassName → Prop := Relation.TransGen b.IsSource

theorem IsAncestor.congr_right (h : b.IsAncestor s c) (hc : c.fold = d.fold) :
    b.IsAncestor s d := by
  cases h with
  | single h => exact .single (h.congr rfl hc)
  | tail h h' => exact .tail h (h'.congr rfl hc)

/-- No class is its own ancestor. -/
def Acyclic (b : CodeBase) : Prop := ∀ c, ¬ b.IsAncestor c c

/-- A measure that falls from each class to its sources shows that there is no cycle. -/
theorem acyclic_of_measure (rank : ClassName → Nat)
    (h : ∀ s c, b.IsSource s c → rank s < rank c) : b.Acyclic := by
  have hlt : ∀ s c, b.IsAncestor s c → rank s < rank c := by
    intro s c hsc
    induction hsc with
    | single h' => exact h _ _ h'
    | tail _ h' ih => exact Nat.lt_trans ih (h _ _ h')
  intro c hc
  exact Nat.lt_irrefl _ (hlt c c hc)

/-- Sources are registered, and there are finitely many registered classes, so every way from a
class to its sources comes to an end. -/
theorem Acyclic.wellFounded (h : b.Acyclic) : WellFounded b.IsSource := by
  have hfin : Finite { k : QualifiedName // b.classes.contains k = true } := by
    refine Set.Finite.subset (List.finite_toSet b.classes.index.keys) fun k hk => ?_
    exact Std.HashMap.mem_keys.2 (Std.HashMap.mem_iff_contains.2 hk)
  let above (k k' : { k : QualifiedName // b.classes.contains k = true }) : Prop :=
    b.IsAncestor k.1 k'.1
  have : IsTrans _ above := ⟨fun _ _ _ => Relation.TransGen.trans⟩
  have : Std.Irrefl above := ⟨fun k => h k.1⟩
  have hwf : WellFounded above := Finite.wellFounded_of_trans_of_irrefl above
  -- names that are no folded ones reach the folded ones in one step
  have hacc : ∀ (k : { k : QualifiedName // b.classes.contains k = true }) (c : ClassName),
      c.fold = k.1 → Acc b.IsSource c := by
    intro k
    induction k using hwf.induction with
    | _ k ih =>
      intro c hc
      refine .intro c fun s hs => ?_
      refine ih ⟨s.fold, hs.isRegistered⟩ ?_ s rfl
      exact .single (hs.congr s.fold_fold.symm (by rw [hc, ← hc, c.fold_fold]))
  exact ⟨fun c => .intro c fun s hs => hacc ⟨s.fold, hs.isRegistered⟩ s rfl⟩

/-! ### The rule of inheritance -/

open ClassMember

variable {μ : Type} [ClassMember μ]

/-- The member that a class has by the rule of inheritance, when `own` are the members that the
classes declare. -/
def resolveMember (b : CodeBase) (h : b.Acyclic) (own : MemberTables μ) (n : String)
    (c : ClassName) : Option μ :=
  (own.get? c n).or
    ((b.sourcesOf c).attach.findSome? fun s =>
      (b.resolveMember h own n s.1).map fun m => moveTo m c)
termination_by h.wellFounded.wrap c
decreasing_by exact isSource_of_mem s.2

theorem resolveMember_eq (h : b.Acyclic) (own : MemberTables μ) (n : String) (c : ClassName) :
    b.resolveMember h own n c = (own.get? c n).or
      ((b.sourcesOf c).findSome? fun s => (b.resolveMember h own n s).map fun m => moveTo m c) := by
  rw [resolveMember]
  conv_rhs => rw [← List.attach_map_subtype_val (b.sourcesOf c), List.findSome?_map]
  rfl

/-- What a class takes over from the first of the classes that is registered and has the member by
the rule of inheritance. -/
def firstOf (b : CodeBase) (h : b.Acyclic) (own : MemberTables μ) (n : String) (c : ClassName)
    (ss : List ClassName) : Option μ :=
  (ss.filter b.isRegistered).findSome? fun s =>
    (b.resolveMember h own n s).map fun m => moveTo m c

/-- A class has its own member; else one of its traits, the first one first; else one of its parent;
else one of its interfaces, the first one first. -/
theorem resolveMember_rule (h : b.Acyclic) (own : MemberTables μ) (n : String) {decl : ClassDecl}
    (hd : b.class? c = some decl) :
    b.resolveMember h own n c = (((own.get? c n).or (b.firstOf h own n c decl.traits)).or
      (b.firstOf h own n c decl.parent.toList)).or (b.firstOf h own n c decl.interfaces) := by
  have hs : b.sourcesOf c = (lineage decl).filter b.isRegistered := by
    rw [sourcesOf, hd, Option.map_some, Option.getD_some]
  rw [resolveMember_eq, hs, lineage, List.filter_append, List.filter_append,
    List.findSome?_append, List.findSome?_append, Option.or_assoc, Option.or_assoc, Option.or_assoc]
  rfl

/-- The row of members that a class has by the rule of inheritance. -/
def resolveRow (b : CodeBase) (h : b.Acyclic) (own : MemberTables μ) (c : ClassName) :
    List (String × μ) :=
  (b.sourcesOf c).attach.foldl (fun row s => adopt c row (b.resolveRow h own s.1))
    (own.table c).toList
termination_by h.wellFounded.wrap c
decreasing_by exact isSource_of_mem s.2

theorem resolveRow_eq (h : b.Acyclic) (own : MemberTables μ) (c : ClassName) :
    b.resolveRow h own c = (b.sourcesOf c).foldl (fun row s => adopt c row (b.resolveRow h own s))
      (own.table c).toList := by
  rw [resolveRow]
  exact List.foldl_attach (f := fun row s => adopt c row (b.resolveRow h own s))

/-- The row of members that a class comes to have: a marked one keeps the row that it has, and any
other one takes over the rows that its sources come to have. -/
def stockRow (b : CodeBase) (h : b.Acyclic) (own : MemberTables μ) (c : ClassName) :
    List (String × μ) :=
  if b.hydrated.contains c.fold then (own.table c).toList
  else (b.sourcesOf c).attach.foldl (fun row s => adopt c row (b.stockRow h own s.1))
    (own.table c).toList
termination_by h.wellFounded.wrap c
decreasing_by exact isSource_of_mem s.2

theorem stockRow_of_marked (h : b.Acyclic) (own : MemberTables μ)
    (hc : b.hydrated.contains c.fold = true) : b.stockRow h own c = (own.table c).toList := by
  rw [stockRow, if_pos hc]

theorem stockRow_of_not_marked (h : b.Acyclic) (own : MemberTables μ)
    (hc : b.hydrated.contains c.fold = false) :
    b.stockRow h own c = (b.sourcesOf c).foldl (fun row s => adopt c row (b.stockRow h own s))
      (own.table c).toList := by
  rw [stockRow, if_neg (by simp [hc])]
  exact List.foldl_attach (f := fun row s => adopt c row (b.stockRow h own s))

/-- Where no class is marked the rows are those of the rule of inheritance. -/
theorem stockRow_eq_resolveRow (h : b.Acyclic) (own : MemberTables μ)
    (hb : ∀ k, b.hydrated.contains k = false) (c : ClassName) :
    b.stockRow h own c = b.resolveRow h own c := by
  induction c using h.wellFounded.induction with
  | _ c ih =>
    rw [stockRow_of_not_marked h own (hb _), resolveRow_eq]
    exact List.foldl_ext _ _ _ fun row s hs => by rw [ih s (isSource_of_mem hs)]

theorem lookup_foldl_adopt (c : ClassName) {rows : ClassName → List (String × μ)} {k : String}
    {found : ClassName → Option μ} (ss : List ClassName)
    (hrows : ∀ s ∈ ss, (rows s).lookup k = found s) (row : List (String × μ)) :
    (ss.foldl (fun row s => adopt c row (rows s)) row).lookup k =
      (row.lookup k).or (ss.findSome? fun s => (found s).map fun m => moveTo m c) := by
  induction ss generalizing row with
  | nil => simp
  | cons s ss ih =>
    rw [List.foldl_cons, ih fun s' hs' => hrows s' (List.mem_cons_of_mem s hs'), lookup_adopt,
      hrows s List.mem_cons_self, Option.or_assoc, List.findSome?_cons]
    cases found s <;> rfl

/-- Looking a member up in the row of a class is following the rule. -/
theorem lookup_resolveRow (h : b.Acyclic) {own : MemberTables μ} (hv : own.Valid) (n : String)
    (c : ClassName) : (b.resolveRow h own c).lookup (key μ n) = b.resolveMember h own n c := by
  induction c using h.wellFounded.induction with
  | _ c ih =>
    rw [resolveRow_eq, resolveMember_eq, hv.get?_eq_lookup]
    exact lookup_foldl_adopt c _ (fun s hs => ih s (isSource_of_mem hs)) _

variable [MemberSort μ]

/-- What the rule finds beyond the own members of a class is the copy of a member that an ancestor
declares. -/
theorem resolveMember_origin (h : b.Acyclic) {own : MemberTables μ} {n : String} {m : μ}
    (hm : b.resolveMember h own n c = some m) (hown : own.get? c n = none) :
    ∃ a m₀, b.IsAncestor a c ∧ own.get? a n = some m₀ ∧ m = moveTo m₀ c := by
  induction c using h.wellFounded.induction generalizing m with
  | _ c ih =>
    rw [resolveMember_eq, hown, Option.none_or] at hm
    obtain ⟨s, hs, hsm⟩ := List.exists_of_findSome?_eq_some hm
    obtain ⟨m', hm', rfl⟩ := Option.map_eq_some_iff.1 hsm
    have hsource := isSource_of_mem hs
    cases hso : own.get? s n with
    | some m₀ =>
      -- the source declares it
      rw [resolveMember_eq, hso, Option.some_or] at hm'
      exact ⟨s, m₀, .single hsource, hso, congrArg (moveTo · c) (Option.some.inj hm').symm⟩
    | none =>
      obtain ⟨a, m₀, ha, hm₀, rfl⟩ := ih s hsource hm' hso
      exact ⟨a, m₀, ha.tail hsource, hm₀, MemberSort.moveTo_moveTo m₀ s c⟩

theorem rowsAlike_foldl_adopt (hc : c.fold = d.fold) (rows : ClassName → List (String × μ))
    (ss : List ClassName) {row row' : List (String × μ)} (hr : RowsAlike row row') :
    RowsAlike (ss.foldl (fun row s => adopt c row (rows s)) row)
      (ss.foldl (fun row s => adopt d row (rows s)) row') := by
  induction ss generalizing row row' with
  | nil => exact hr
  | cons s ss ih => exact ih (hr.adopt (RowsAlike.refl (rows s)) hc)

/-- How a class is spelled shows in its row only in the names of the copies. -/
theorem resolveRow_congr (h : b.Acyclic) (own : MemberTables μ) (hc : c.fold = d.fold) :
    RowsAlike (b.resolveRow h own c) (b.resolveRow h own d) := by
  rw [resolveRow_eq, resolveRow_eq, b.sourcesOf_congr hc, own.table_congr hc]
  exact rowsAlike_foldl_adopt hc (b.resolveRow h own) _ (RowsAlike.refl _)

/-- So it does in the row that a class comes to have. -/
theorem stockRow_congr (h : b.Acyclic) (own : MemberTables μ) (hc : c.fold = d.fold) :
    RowsAlike (b.stockRow h own c) (b.stockRow h own d) := by
  cases hm : b.hydrated.contains c.fold with
  | true =>
    rw [stockRow_of_marked h own hm, stockRow_of_marked h own (hc ▸ hm), own.table_congr hc]
    exact RowsAlike.refl _
  | false =>
    rw [stockRow_of_not_marked h own hm, stockRow_of_not_marked h own (hc ▸ hm),
      b.sourcesOf_congr hc, own.table_congr hc]
    exact rowsAlike_foldl_adopt hc (b.stockRow h own) _ (RowsAlike.refl _)

end CodeBase

end UnionInference
