import UnionInference.Proofs.CodeBase.Inheritance
import UnionInference.Proofs.CodeBase.Loading

/-!
Filling the tables of a code base with inherited members. A class is marked first, then each of its
sources is filled and handed down. Two facts carry the proof. No class is its own ancestor, so while
a class is being filled none of the classes below it in the recursion hands anything to it; and a
class that is marked and not being filled is complete, so it may be handed down as it is. What comes
out is what the rule of inheritance says, whichever classes are filled first.
-/

namespace UnionInference

namespace CodeBase

open ClassMember MemberSort

variable {b b' b₁ b₂ : CodeBase} {c d s : ClassName} {n : Nat}

/-! ### Classes that are not filled yet -/

/-- The number of registered classes that are not marked. -/
def unmarked (b : CodeBase) : Nat :=
  b.classes.keys.countP fun k => !b.hydrated.contains k.fold

theorem unmarked_le (hc : b'.classes = b.classes)
    (h : ∀ d : ClassName, b.hydrated.contains d.fold = true → b'.hydrated.contains d.fold = true) :
    b'.unmarked ≤ b.unmarked := by
  unfold unmarked
  rw [hc]
  refine List.countP_mono_left fun k _ hk => ?_
  rw [Bool.not_eq_true'] at hk ⊢
  exact Bool.eq_false_iff.2 fun hm => Bool.eq_false_iff.1 hk (h k hm)

theorem contains_mark (b : CodeBase) (c : ClassName) (k : QualifiedName) :
    (b.mark c).hydrated.contains k = (c.fold == k || b.hydrated.contains k) :=
  Std.HashSet.contains_insert

theorem unmarked_mark_lt (hv : b.classes.Valid) (hc : b.isRegistered c = true)
    (hm : b.hydrated.contains c.fold = false) : (b.mark c).unmarked < b.unmarked := by
  have hmem : c.fold ∈ b.classes.keys := hv.contains_iff.1 hc
  obtain ⟨l₁, l₂, hl⟩ := List.append_of_mem hmem
  have hmono : ∀ l : List QualifiedName,
      l.countP (fun k => !(b.mark c).hydrated.contains k.fold) ≤
        l.countP fun k => !b.hydrated.contains k.fold := by
    intro l
    refine List.countP_mono_left fun k _ hk => ?_
    rw [contains_mark] at hk
    cases h : b.hydrated.contains k.fold <;> simp_all
  have h₁ := hmono l₁
  have h₂ := hmono l₂
  -- the class itself is counted before, and not after
  unfold unmarked
  show List.countP _ b.classes.keys < _
  rw [hl, List.countP_append, List.countP_append, List.countP_cons_of_neg,
    List.countP_cons_of_pos]
  · omega
  · rw [c.fold_fold, hm]
    rfl
  · rw [c.fold_fold, contains_mark]
    simp

theorem unmarked_lt_hydrationBound (b : CodeBase) : b.unmarked < b.hydrationBound := by
  have h : b.unmarked ≤ b.classes.size := by
    refine Nat.le_trans List.countP_le_length ?_
    simp [OrderedTable.keys, OrderedTable.toList, OrderedTable.size]
  have hle := Nat.le_mul_of_pos_left
    (b.classes.size + b.pending.size + ((b.resolver.getD []).flatMap fun e => e.definitions).length
      + 1) (Nat.add_one_pos (b.pending.size + (b.resolver.getD []).length))
  unfold hydrationBound
  dsimp only
  omega

/-! ### What filling a class does

The members of one sort are followed; `b₀` is the code base before any class is filled. -/

section

variable {μ : Type} [ClassMember μ] [MemberSort μ] {b₀ : CodeBase} {h : b₀.Acyclic}

/-- Filling classes changes the members and adds marks, and keeps the members valid. -/
structure Filling (μ : Type) [ClassMember μ] [MemberSort μ] (b₀ b : CodeBase) : Prop where
  classes : b.classes = b₀.classes
  marks : ∀ k, b₀.hydrated.contains k = true → b.hydrated.contains k = true
  pending : b.pending = {}
  resolver : b.resolver = none
  valid : (members b : MemberTables μ).Valid

/-- The class is marked, and has the row that it comes to have, with its own members as they were in
front. -/
structure Complete (μ : Type) [ClassMember μ] [MemberSort μ] (h : b₀.Acyclic) (b : CodeBase)
    (c : ClassName) : Prop where
  marked : b.hydrated.contains c.fold = true
  row : RowsAlike ((members b : MemberTables μ).table c).toList (b₀.stockRow h (members b₀) c)
  own : ((members b₀ : MemberTables μ).table c).toList <+: ((members b).table c).toList

/-- The class is complete, or it is not marked and has its own members only. -/
def Settled (μ : Type) [ClassMember μ] [MemberSort μ] (h : b₀.Acyclic) (b : CodeBase)
    (c : ClassName) : Prop :=
  Complete μ h b c ∨ b.hydrated.contains c.fold = false ∧
    (members b : MemberTables μ).table c = (members b₀).table c

/-- The class has the mark and the members that it had. -/
def Kept (μ : Type) [ClassMember μ] [MemberSort μ] (b b' : CodeBase) (c : ClassName) : Prop :=
  b'.hydrated.contains c.fold = b.hydrated.contains c.fold ∧
    (members b' : MemberTables μ).table c = (members b).table c

theorem Complete.congr (hc : Complete μ h b c) (hd : c.fold = d.fold) : Complete μ h b d := by
  refine ⟨hd ▸ hc.marked, ?_, ?_⟩
  · rw [← MemberTables.table_congr _ hd]
    exact hc.row.trans (stockRow_congr h _ hd)
  · rw [← MemberTables.table_congr _ hd, ← MemberTables.table_congr _ hd]
    exact hc.own

theorem Kept.refl (b : CodeBase) (c : ClassName) : Kept μ b b c := ⟨rfl, rfl⟩

theorem Kept.trans (h₁ : Kept μ b b₁ c) (h₂ : Kept μ b₁ b₂ c) : Kept μ b b₂ c :=
  ⟨h₂.1.trans h₁.1, h₂.2.trans h₁.2⟩

theorem Kept.complete (hk : Kept μ b b' c) (hc : Complete μ h b c) : Complete μ h b' c := by
  refine ⟨hk.1.trans hc.marked, ?_, ?_⟩
  · rw [hk.2]
    exact hc.row
  · rw [hk.2]
    exact hc.own

theorem Kept.settled (hk : Kept μ b b' c) (hc : Settled μ h b c) : Settled μ h b' c := by
  obtain hc | ⟨hm, ht⟩ := hc
  · exact .inl (hk.complete hc)
  · exact .inr ⟨hk.1.trans hm, hk.2.trans ht⟩

/-- What filling a class brings about: the class is complete if it is registered; every class is
kept, or it is the class or an ancestor of it and is complete now. -/
structure Filled (μ : Type) [ClassMember μ] [MemberSort μ] (h : b₀.Acyclic) (c : ClassName)
    (b b' : CodeBase) : Prop where
  filling : Filling μ b₀ b'
  complete : b₀.isRegistered c = true → Complete μ h b' c
  rest : ∀ d, Kept μ b b' d ∨ (c.fold = d.fold ∨ b₀.IsAncestor d c) ∧ Complete μ h b' d

theorem Filled.of_kept (hb : Filling μ b₀ b) (hc : b₀.isRegistered c = true → Complete μ h b c) :
    Filled μ h c b b :=
  ⟨hb, hc, fun d => .inl (Kept.refl b d)⟩

theorem Filled.complete_of_complete (hf : Filled μ h c b b') (hd : Complete μ h b d) :
    Complete μ h b' d := by
  obtain hk | ⟨-, hd'⟩ := hf.rest d
  · exact hk.complete hd
  · exact hd'

theorem Filled.settled (hf : Filled μ h c b b') (hd : Settled μ h b d) : Settled μ h b' d := by
  obtain hk | ⟨-, hd'⟩ := hf.rest d
  · exact hk.settled hd
  · exact .inl hd'

/-- A class is marked and has the row so far, while its sources are handed down to it. -/
structure Receiving (μ : Type) [ClassMember μ] [MemberSort μ] (h : b₀.Acyclic) (c : ClassName)
    (b b₁ : CodeBase) (row : List (String × μ)) : Prop where
  filling : Filling μ b₀ b₁
  marked : b₁.hydrated.contains c.fold = true
  row : RowsAlike ((members b₁).table c).toList row
  own : ((members b₀ : MemberTables μ).table c).toList <+: ((members b₁).table c).toList
  rest : ∀ d, c.fold ≠ d.fold → Kept μ b b₁ d ∨ b₀.IsAncestor d c ∧ Complete μ h b₁ d

theorem Receiving.unmarked_le {row : List (String × μ)} (hb : Filling μ b₀ b)
    (hr : Receiving μ h c (b.mark c) b₁ row) : b₁.unmarked ≤ (b.mark c).unmarked := by
  refine CodeBase.unmarked_le (hr.filling.classes.trans hb.classes.symm) fun d hd => ?_
  by_cases hcd : c.fold = d.fold
  · exact hcd ▸ hr.marked
  · obtain hk | ⟨-, hd'⟩ := hr.rest d hcd
    · exact hk.1.trans hd
    · exact hd'.1

theorem Receiving.settled {row : List (String × μ)} (hr : Receiving μ h c b b₁ row)
    (hb : ∀ d, b₀.IsAncestor d c → Settled μ h b d) (hd : b₀.IsAncestor d c) :
    Settled μ h b₁ d := by
  have hne : c.fold ≠ d.fold := fun he => h d (hd.congr_right he)
  obtain hk | ⟨-, hd'⟩ := hr.rest d hne
  · exact hk.settled (hb d hd)
  · exact .inl hd'

/-- A source hands down its row. The class itself is no ancestor of the source, so filling the
source does not touch it. -/
theorem Receiving.inherit {row : List (String × μ)} (hr : Receiving μ h c b b₁ row)
    (hs : b₀.IsSource s c) (hf : Filled μ h s b₁ b₂) :
    Receiving μ h c b (b₂.inherit s c) (adopt c row (b₀.stockRow h (members b₀) s)) := by
  have hself : Kept μ b₁ b₂ c := by
    refine (hf.rest c).resolve_right fun hc => ?_
    obtain he | ha := hc.1
    · exact h c (.single (hs.congr he rfl))
    · exact h c (ha.tail hs)
  have hkept : ∀ d, c.fold ≠ d.fold → Kept μ b₂ (b₂.inherit s c) d := by
    intro d hd
    refine ⟨rfl, ?_⟩
    rw [members_inherit, MemberTables.table_inherit_of_ne hd]
  refine ⟨⟨hf.filling.classes, hf.filling.marks, hf.filling.pending, hf.filling.resolver, ?_⟩,
    ?_, ?_, ?_, ?_⟩
  · rw [members_inherit]
    exact hf.filling.valid.inherit s c
  · exact hself.1.trans hr.marked
  · rw [members_inherit, hf.filling.valid.toList_table_inherit, hself.2]
    exact hr.row.adopt (hf.complete hs.isRegistered).row rfl
  · rw [members_inherit, hf.filling.valid.toList_table_inherit, hself.2]
    exact hr.own.trans (isPrefix_adopt c _ _)
  · intro d hd
    obtain hk | ⟨hd', hc⟩ := hf.rest d
    · obtain hk' | ⟨ha, hc⟩ := hr.rest d hd
      · exact .inl ((hk'.trans hk).trans (hkept d hd))
      · exact .inr ⟨ha, (hkept d hd).complete (hk.complete hc)⟩
    · refine .inr ⟨?_, (hkept d hd).complete hc⟩
      obtain he | ha := hd'
      · exact .single (hs.congr he rfl)
      · exact ha.tail hs

theorem Filling.handDown_eq (hb : Filling μ b₀ b) (n : Nat) (c s : ClassName) :
    handDown n c b s =
      if b₀.isRegistered s then ((hydrateWithin n s b).2).inherit s c else b := by
  have hreg : b₀.isRegistered s = b.isRegistered s := by rw [isRegistered, isRegistered, hb.classes]
  have hclass : hasClass s b = (b.isRegistered s, b) := by
    rw [hasClass_eq hb.resolver, hb.pending]
    cases b.isRegistered s <;> simp
  rw [handDown, hclass, hreg]

/-- The run over the sources of a class, given what filling each of them does. -/
theorem Receiving.foldl_handDown {row : List (String × μ)} (hb : Filling μ b₀ b)
    (ih : ∀ s b₁, Filling μ b₀ b₁ → b₁.unmarked < n →
      (∀ d, s.fold = d.fold ∨ b₀.IsAncestor d s → Settled μ h b₁ d) →
      Filled μ h s b₁ (hydrateWithin n s b₁).2)
    (hlt : (b.mark c).unmarked < n) (hset : ∀ d, b₀.IsAncestor d c → Settled μ h (b.mark c) d)
    (ss : List ClassName) (hss : ∀ s ∈ ss, b₀.isRegistered s = true → b₀.IsSource s c)
    (hr : Receiving μ h c (b.mark c) b₁ row) :
    Receiving μ h c (b.mark c) (ss.foldl (handDown n c) b₁)
      ((ss.filter b₀.isRegistered).foldl
        (fun row s => adopt c row (b₀.stockRow h (members b₀) s)) row) := by
  induction ss generalizing b₁ row with
  | nil => exact hr
  | cons s ss ih' =>
    have hss' : ∀ s' ∈ ss, b₀.isRegistered s' = true → b₀.IsSource s' c :=
      fun s' hs' => hss s' (List.mem_cons_of_mem s hs')
    rw [List.foldl_cons, hr.filling.handDown_eq]
    cases hreg : b₀.isRegistered s with
    | false =>
      rw [List.filter_cons_of_neg (by simp [hreg])]
      exact ih' hss' hr
    | true =>
      have hs : b₀.IsSource s c := hss s List.mem_cons_self hreg
      rw [List.filter_cons_of_pos hreg, List.foldl_cons]
      refine ih' hss' (hr.inherit hs (ih s b₁ hr.filling ?_ ?_))
      · exact Nat.lt_of_le_of_lt (hr.unmarked_le hb) hlt
      · rintro d (he | ha)
        · exact hr.settled hset (.single (hs.congr he rfl))
        · exact hr.settled hset (ha.tail hs)

theorem kept_mark (hcd : c.fold ≠ d.fold) : Kept μ b (b.mark c) d := by
  refine ⟨?_, by rw [mark, members_mark]⟩
  rw [contains_mark, beq_eq_false_iff_ne.2 hcd, Bool.false_or]

/-- Marking a class whose members are its own ones starts the run over its sources. -/
theorem receiving_mark (hb : Filling μ b₀ b) (hc : Settled μ h b c)
    (hm : b.hydrated.contains c.fold = false) :
    Receiving μ h c (b.mark c) (b.mark c) (((members b₀ : MemberTables μ).table c).toList) := by
  have hmembers : (members (b.mark c) : MemberTables μ) = members b := members_mark b _
  have htable : (members b : MemberTables μ).table c = (members b₀).table c := by
    obtain hc | ⟨-, ht⟩ := hc
    · exact absurd hc.marked (by simp [hm])
    · exact ht
  refine ⟨⟨hb.classes, fun k hk => ?_, hb.pending, hb.resolver, hmembers ▸ hb.valid⟩, ?_, ?_, ?_, ?_⟩
  · rw [contains_mark, hb.marks k hk, Bool.or_true]
  · rw [contains_mark]
    simp
  · rw [hmembers, htable]
    exact RowsAlike.refl _
  · rw [hmembers, htable]
  · exact fun d _ => .inl (Kept.refl _ d)

/-- Filling a class does what it should, whenever the class and its ancestors are settled and the
steps down suffice. -/
theorem filled_hydrateWithin (hv : b₀.classes.Valid) (n : Nat) :
    ∀ (c : ClassName) (b : CodeBase), Filling μ b₀ b → b.unmarked < n →
      (∀ d, c.fold = d.fold ∨ b₀.IsAncestor d c → Settled μ h b d) →
      Filled μ h c b (hydrateWithin n c b).2 := by
  induction n with
  | zero => exact fun _ _ _ hlt => absurd hlt (Nat.not_lt_zero _)
  | succ n ih =>
    intro c b hb hlt hset
    rw [hydrateWithin_succ]
    cases hm : b.hydrated.contains c.fold with
    | true =>
      refine Filled.of_kept hb fun _ => ?_
      obtain hc | ⟨hm', -⟩ := hset c (.inl rfl)
      · exact hc
      · rw [hm] at hm'
        cases hm'
    | false =>
      have hreg : b₀.isRegistered c = (b.class? c).isSome := by
        rw [isRegistered, hv.contains_eq_isSome, class?, hb.classes, Option.isSome_map]
      cases hd : b.class? c with
      | none =>
        rw [hd] at hreg
        exact Filled.of_kept hb fun hc => absurd (hc.symm.trans hreg) (by simp)
      | some decl =>
        rw [hd] at hreg
        -- marking leaves the ancestors as they are, and one class fewer to fill
        have hanc : ∀ d, b₀.IsAncestor d c → Settled μ h (b.mark c) d := by
          intro d hdc
          have hne : c.fold ≠ d.fold := fun he => h d (hdc.congr_right he)
          exact (kept_mark hne).settled (hset d (.inr hdc))
        have hlt' : (b.mark c).unmarked < n := by
          have hbreg : b.isRegistered c = true := by
            rw [isRegistered, hb.classes]
            exact hreg
          have := unmarked_mark_lt (hb.classes ▸ hv) hbreg hm
          omega
        have hsources : b₀.sourcesOf c = decl.sources.filter b₀.isRegistered := by
          have : b₀.class? c = b.class? c := by rw [class?, class?, hb.classes]
          rw [sourcesOf, this, hd, Option.map_some, Option.getD_some, sources_eq_lineage]
        have hrun := (receiving_mark hb (hset c (.inl rfl)) hm).foldl_handDown hb ih hlt' hanc
          decl.sources fun s hs hr =>
            isSource_of_mem (hsources ▸ List.mem_filter.2 ⟨hs, hr⟩)
        have hm₀ : b₀.hydrated.contains c.fold = false := by
          refine Bool.eq_false_iff.2 fun hmarked => ?_
          rw [hb.marks _ hmarked] at hm
          cases hm
        rw [← hsources, ← stockRow_of_not_marked h _ hm₀] at hrun
        have hcomplete : Complete μ h (decl.sources.foldl (handDown n c) (b.mark c)) c :=
          ⟨hrun.marked, hrun.row, hrun.own⟩
        refine ⟨hrun.filling, fun _ => hcomplete, fun d => ?_⟩
        by_cases hcd : c.fold = d.fold
        · exact .inr ⟨.inl hcd, hcomplete.congr hcd⟩
        · obtain hk | ⟨ha, hdc⟩ := hrun.rest d hcd
          · exact .inl ((kept_mark hcd).trans hk)
          · exact .inr ⟨.inr ha, hdc⟩

/-! ### Any number of classes in any order -/

/-- The code base after classes were filled one after the other. -/
def hydrateEach (order : List ClassName) (b : CodeBase) : CodeBase :=
  order.foldl (fun b c => (hydrate c b).2) b

theorem hydrateAll_eq (b : CodeBase) : (hydrateAll b).2 = hydrateEach b.classNames b :=
  congrArg Prod.snd (forM_eq_foldl hydrate b.classNames b)

/-- The run over classes: all classes stay settled, complete ones stay complete, and those that were
filled are complete. -/
theorem settled_hydrateEach (hv : b₀.classes.Valid) (order : List ClassName)
    (hb : Filling μ b₀ b) (hset : ∀ d, Settled μ h b d) :
    Filling μ b₀ (hydrateEach order b) ∧
      (∀ d, Settled μ h (hydrateEach order b) d) ∧
      (∀ d, Complete μ h b d → Complete μ h (hydrateEach order b) d) ∧
      ∀ c ∈ order, b₀.isRegistered c = true → Complete μ h (hydrateEach order b) c := by
  induction order generalizing b with
  | nil => exact ⟨hb, hset, fun _ hd => hd, fun c hc => absurd hc List.not_mem_nil⟩
  | cons c order ih =>
    have hf : Filled μ h c b (hydrate c b).2 :=
      filled_hydrateWithin hv _ c b hb b.unmarked_lt_hydrationBound fun d _ => hset d
    obtain ⟨hb', hset', hkeep, hdone⟩ := ih hf.filling fun d => hf.settled (hset d)
    refine ⟨hb', hset', fun d hd => hkeep d (hf.complete_of_complete hd), fun c' hc' hreg => ?_⟩
    obtain rfl | hc' := List.mem_cons.1 hc'
    · exact hkeep c' (hf.complete hreg)
    · exact hdone c' hc' hreg

/-- One of the names is a spelling of the class. -/
def Names (order : List ClassName) (c : ClassName) : Prop := ∃ c' ∈ order, c'.fold = c.fold

/-- From a fresh code base on, the tables stay valid and all classes settled, and the registered
ones that were named are complete. -/
theorem Fresh.spec_hydrateEach (hb : b₀.Fresh) (hv : (members b₀ : MemberTables μ).Valid)
    (h : b₀.Acyclic) (order : List ClassName) :
    (members (hydrateEach order b₀) : MemberTables μ).Valid ∧
      (∀ d, Settled μ h (hydrateEach order b₀) d) ∧
      ∀ c, b₀.isRegistered c = true → Names order c → Complete μ h (hydrateEach order b₀) c := by
  obtain ⟨hfill, hset, -, hdone⟩ := settled_hydrateEach (μ := μ) (h := h) hb.classes order
    ⟨rfl, fun _ => id, hb.pending, hb.resolver, hv⟩ fun d => .inr ⟨hb.hydrated d.fold, rfl⟩
  refine ⟨hfill.valid, hset, ?_⟩
  rintro c hc ⟨c', hc', heq⟩
  exact (hdone c' hc' (b₀.isRegistered_congr heq ▸ hc)).congr heq

/-- A class that is not registered has no sources, so it has its own members only. -/
theorem Settled.row_of_unknown (hset : Settled μ h b c) (hv : b₀.classes.Valid)
    (hc : b₀.isRegistered c = false) :
    RowsAlike ((members b : MemberTables μ).table c).toList (b₀.stockRow h (members b₀) c) := by
  obtain hc' | ⟨-, ht⟩ := hset
  · exact hc'.row
  · have hnone : b₀.class? c = none := by
      rw [isRegistered, hv.contains_eq_isSome] at hc
      rw [class?, Option.map_eq_none_iff]
      simpa using hc
    rw [ht]
    cases hm : b₀.hydrated.contains c.fold with
    | true =>
      rw [stockRow_of_marked h _ hm]
      exact RowsAlike.refl _
    | false =>
      rw [stockRow_of_not_marked h _ hm, sourcesOf, hnone]
      exact RowsAlike.refl _

/-- Once every registered class was named, all rows are those of the rule of inheritance. -/
theorem Fresh.row_hydrateEach (hb : b₀.Fresh) (hv : (members b₀ : MemberTables μ).Valid)
    (h : b₀.Acyclic) {order : List ClassName}
    (hall : ∀ c, b₀.isRegistered c = true → Names order c) (c : ClassName) :
    RowsAlike ((members (hydrateEach order b₀) : MemberTables μ).table c).toList
      (b₀.resolveRow h (members b₀) c) := by
  obtain ⟨-, hset, hdone⟩ := hb.spec_hydrateEach hv h order
  rw [← stockRow_eq_resolveRow h _ hb.hydrated]
  cases hreg : b₀.isRegistered c with
  | true => exact (hdone c hreg (hall c hreg)).row
  | false => exact (hset c).row_of_unknown hb.classes hreg

/-- The order in which the classes were filled does not show. -/
theorem Fresh.rowsAlike_hydrateEach (hb : b₀.Fresh) (hv : (members b₀ : MemberTables μ).Valid)
    (h : b₀.Acyclic) {order order' : List ClassName}
    (hall : ∀ c, b₀.isRegistered c = true → Names order c)
    (hall' : ∀ c, b₀.isRegistered c = true → Names order' c) (c : ClassName) :
    RowsAlike ((members (hydrateEach order b₀) : MemberTables μ).table c).toList
      ((members (hydrateEach order' b₀) : MemberTables μ).table c).toList :=
  (hb.row_hydrateEach hv h hall c).trans (hb.row_hydrateEach hv h hall' c).symm

theorem Fresh.names_classNames (hb : b₀.Fresh) (hc : b₀.isRegistered c = true) :
    Names b₀.classNames c := by
  obtain ⟨e, he, hec⟩ := List.mem_map.1 (hb.classes.contains_iff.1 hc)
  refine ⟨e.2.spelling, ?_, (hb.spelling e he).trans hec⟩
  exact List.mem_map_of_mem (List.mem_map_of_mem he)

/-- A class has its own members, and beyond them what the rule of inheritance finds, in its traits
before its parent and in its parent before its interfaces: copies that bear its name and agree with
the members that ancestors declare in everything else. -/
structure Inherits (μ : Type) [ClassMember μ] [MemberSort μ] (h : b₀.Acyclic) (b : CodeBase)
    (c : ClassName) : Prop where
  own : ∀ (n : String) (m : μ), (members b₀).get? c n = some m → (members b).get? c n = some m
  found : ∀ n : String, Option.Rel Alike ((members b : MemberTables μ).get? c n)
    (b₀.resolveMember h (members b₀) n c)
  chain : ∀ (decl : ClassDecl), b₀.class? c = some decl → ∀ n : String,
    Option.Rel Alike ((members b : MemberTables μ).get? c n)
      (((((members b₀).get? c n).or (b₀.firstOf h (members b₀) n c decl.traits)).or
        (b₀.firstOf h (members b₀) n c decl.parent.toList)).or
          (b₀.firstOf h (members b₀) n c decl.interfaces))
  copied : ∀ (n : String) (m : μ), (members b).get? c n = some m →
    (members b₀ : MemberTables μ).get? c n = none →
    ∃ a m₀, b₀.IsAncestor a c ∧ (members b₀).get? a n = some m₀ ∧ Alike m (moveTo m₀ c) ∧
      definedAs m = definedAs m₀

theorem Complete.inherits (hb : b₀.Fresh) (hv₀ : (members b₀ : MemberTables μ).Valid)
    (hv : (members b : MemberTables μ).Valid) (hc : Complete μ h b c) : Inherits μ h b c := by
  have hfound : ∀ n : String, Option.Rel Alike ((members b : MemberTables μ).get? c n)
      (b₀.resolveMember h (members b₀) n c) := by
    intro n
    rw [hv.get?_eq_lookup, ← lookup_resolveRow h hv₀, ← stockRow_eq_resolveRow h _ hb.hydrated]
    exact hc.row.lookup (key μ n)
  refine ⟨fun n m hm => ?_, hfound, fun decl hd n => ?_, fun n m hm hown => ?_⟩
  · rw [hv₀.get?_eq_lookup] at hm
    rw [hv.get?_eq_lookup]
    exact hc.own.lookup_eq_some hm
  · rw [← resolveMember_rule h _ n hd]
    exact hfound n
  · have hrel := hfound n
    rw [hm] at hrel
    generalize hr : b₀.resolveMember h (members b₀ : MemberTables μ) n c = r at hrel
    obtain ⟨hmm⟩ | _ := hrel
    obtain ⟨a, m₀, ha, hm₀, rfl⟩ := resolveMember_origin h hr hown
    exact ⟨a, m₀, ha, hm₀, hmm, hmm.definedAs_eq.trans (definedAs_moveTo m₀ c)⟩

end

/-- The classes have the same members in the same order, up to the letter case of the classes in
their names. -/
def SameMembers (b b' : CodeBase) : Prop :=
  ∀ c, RowsAlike (b.methods.table c).toList (b'.methods.table c).toList ∧
    RowsAlike (b.properties.table c).toList (b'.properties.table c).toList ∧
    RowsAlike (b.constants.table c).toList (b'.constants.table c).toList

/-- A class has all its members by the rule of inheritance. -/
def InheritsAll {b₀ : CodeBase} (h : b₀.Acyclic) (b : CodeBase) (c : ClassName) : Prop :=
  Inherits Method h b c ∧ Inherits Property h b c ∧ Inherits ClassConstant h b c

/-- Filling computes inheritance: a registered class that was filled, alone or among others, has its
own methods, properties and constants and else the copies that the rule of inheritance finds. Once
all classes were filled, their rows are the same whatever the order was. -/
theorem hydration_inherits (hydrateLazily : Bool) (requests : List Registration)
    (h : (registered hydrateLazily requests).Acyclic) :
    let b := registered hydrateLazily requests
    (∀ c, b.isRegistered c = true →
      InheritsAll h (hydrate c b).2 c ∧ InheritsAll h (hydrateAll b).2 c ∧
        ∀ order, Names order c → InheritsAll h (hydrateEach order b) c) ∧
    ∀ order, (∀ c, b.isRegistered c = true → Names order c) →
      SameMembers (hydrateEach order b) (hydrateAll b).2 := by
  intro b
  have hb : b.Fresh := fresh_registered hydrateLazily requests
  have hany : ∀ c order, b.isRegistered c = true → Names order c →
      InheritsAll h (hydrateEach order b) c := by
    intro c order hc hn
    obtain ⟨hvm, -, hm⟩ := hb.spec_hydrateEach (μ := Method) hb.methods h order
    obtain ⟨hvp, -, hp⟩ := hb.spec_hydrateEach (μ := Property) hb.properties h order
    obtain ⟨hvc, -, hk⟩ := hb.spec_hydrateEach (μ := ClassConstant) hb.constants h order
    exact ⟨(hm c hc hn).inherits hb hb.methods hvm, (hp c hc hn).inherits hb hb.properties hvp,
      (hk c hc hn).inherits hb hb.constants hvc⟩
  refine ⟨fun c hc => ⟨?_, ?_, fun order => hany c order hc⟩, fun order hall c => ?_⟩
  · exact hany c [c] hc ⟨c, List.mem_singleton_self c, rfl⟩
  · rw [hydrateAll_eq]
    exact hany c b.classNames hc (hb.names_classNames hc)
  · rw [hydrateAll_eq]
    have hnames : ∀ c, b.isRegistered c = true → Names b.classNames c :=
      fun c hc => hb.names_classNames hc
    exact ⟨hb.rowsAlike_hydrateEach (μ := Method) hb.methods h hall hnames c,
      hb.rowsAlike_hydrateEach (μ := Property) hb.properties h hall hnames c,
      hb.rowsAlike_hydrateEach (μ := ClassConstant) hb.constants h hall hnames c⟩

/-! ### A class with a trait, a parent and an interface -/

/-- A method without parameters. -/
def bareMethod (owner n : String) : Method := { name := ⟨⟨"\\", owner⟩, n⟩ }

/-- The user in the example. -/
def user : ClassDecl :=
  { name := ⟨"\\", "User"⟩, parent := some ⟨"\\", "model"⟩, interfaces := [⟨"\\", "Stores"⟩],
    traits := [⟨"\\", "Logs"⟩], type := .empty }

/-- A class with a trait, a parent and an interface. All three have a method `save`, the parent and
the interface have a method `load`, and the interface alone has `flush`. -/
def trio : List Registration :=
  [.classDecl { name := ⟨"\\", "Model"⟩, type := .empty },
    .classDecl { name := ⟨"\\", "Logs"⟩, kind := .trait, type := .empty },
    .classDecl { name := ⟨"\\", "Stores"⟩, kind := .interface, type := .empty },
    .classDecl user, .method (bareMethod "Stores" "flush"), .method (bareMethod "Stores" "load"),
    .method (bareMethod "Stores" "save"), .method (bareMethod "Model" "load"),
    .method (bareMethod "Model" "save"), .method (bareMethod "Logs" "save")]

/-- The classes of the example. -/
def trioClass? (k : QualifiedName) : Option ClassDecl :=
  if k = ⟨"\\", "user"⟩ then some user
  else if k = ⟨"\\", "stores"⟩ then
    some { name := ⟨"\\", "Stores"⟩, kind := .interface, type := .empty }
  else if k = ⟨"\\", "logs"⟩ then
    some { name := ⟨"\\", "Logs"⟩, kind := .trait, type := .empty }
  else if k = ⟨"\\", "model"⟩ then some { name := ⟨"\\", "Model"⟩, type := .empty }
  else none

/-- The methods that the classes of the example declare. -/
def trioMethod? (k : QualifiedName) (n : String) : Option Method :=
  if k = ⟨"\\", "logs"⟩ ∧ n = "save" then some (bareMethod "Logs" "save")
  else if k = ⟨"\\", "model"⟩ ∧ n = "save" then some (bareMethod "Model" "save")
  else if k = ⟨"\\", "model"⟩ ∧ n = "load" then some (bareMethod "Model" "load")
  else if k = ⟨"\\", "stores"⟩ ∧ n = "save" then some (bareMethod "Stores" "save")
  else if k = ⟨"\\", "stores"⟩ ∧ n = "load" then some (bareMethod "Stores" "load")
  else if k = ⟨"\\", "stores"⟩ ∧ n = "flush" then some (bareMethod "Stores" "flush")
  else none

theorem class?_trio (c : ClassName) : (registered true trio).class? c = trioClass? c.fold := by
  have h₁ := (fresh_create true).addClass { name := ⟨"\\", "Model"⟩, type := .empty }
  have h₂ := h₁.addClass { name := ⟨"\\", "Logs"⟩, kind := .trait, type := .empty }
  have h₃ := h₂.addClass { name := ⟨"\\", "Stores"⟩, kind := .interface, type := .empty }
  simp only [registered, trio, List.foldl_cons, List.foldl_nil, register, class?_addMethod]
  rw [class?_addClass h₃.classes, class?_addClass h₂.classes, class?_addClass h₁.classes,
    class?_addClass (fresh_create true).classes, class?_create]
  simp only [eq_comm (b := c.fold)]
  rfl

theorem isRegistered_trio (c : ClassName) :
    (registered true trio).isRegistered c = (trioClass? c.fold).isSome := by
  rw [(fresh_registered true trio).isRegistered_eq, class?_trio]

theorem sourcesOf_trio (c : ClassName) : (registered true trio).sourcesOf c =
    if c.fold = ⟨"\\", "user"⟩ then [⟨"\\", "Logs"⟩, ⟨"\\", "model"⟩, ⟨"\\", "Stores"⟩] else [] := by
  rw [sourcesOf, class?_trio]
  split
  · next hc =>
    rw [trioClass?, if_pos hc, Option.map_some, Option.getD_some]
    refine List.filter_eq_self.2 fun s hs => ?_
    rw [isRegistered_trio]
    simp only [lineage, user, Option.toList_some, List.cons_append, List.nil_append, List.mem_cons,
      List.not_mem_nil, or_false] at hs
    obtain rfl | rfl | rfl := hs <;> decide
  · next hc =>
    rw [trioClass?, if_neg hc]
    split
    · rfl
    · split
      · rfl
      · split <;> rfl

theorem acyclic_trio : (registered true trio).Acyclic := by
  refine acyclic_of_measure (fun c => if c.fold = ⟨"\\", "user"⟩ then 1 else 0) fun s c hs => ?_
  obtain ⟨s', hs', heq⟩ := hs
  rw [sourcesOf_trio] at hs'
  split at hs'
  · rename_i hc
    have hne : s.fold ≠ ⟨"\\", "user"⟩ := by
      rw [← heq]
      simp only [List.mem_cons, List.not_mem_nil, or_false] at hs'
      obtain rfl | rfl | rfl := hs' <;> decide
    simp [hc, hne]
  · cases hs'

theorem get?_trio (c : ClassName) (n : String) :
    (registered true trio).methods.get? c n = trioMethod? c.fold (Text.fold n) := by
  simp only [registered, trio, List.foldl_cons, List.foldl_nil, register, methods_addMethod,
    methods_addClass]
  have h₁ := MemberTables.valid_empty.add (bareMethod "Stores" "flush")
  have h₂ := h₁.add (bareMethod "Stores" "load")
  have h₃ := h₂.add (bareMethod "Stores" "save")
  have h₄ := h₃.add (bareMethod "Model" "load")
  show ((((((({} : MemberTables Method).add _).add _).add _).add _).add _).add _).get? c n = _
  rw [(h₄.add _).get?_add, h₄.get?_add, h₃.get?_add, h₂.get?_add, h₁.get?_add,
    MemberTables.valid_empty.get?_add, MemberTables.get?_empty]
  simp only [eq_comm (b := c.fold), eq_comm (b := key Method n)]
  rfl

/-- The trait, the parent and the interface have no sources, so they have their own methods. -/
theorem resolveMember_trio {c : ClassName} (hc : c.fold ≠ ⟨"\\", "user"⟩) (n : String) :
    (registered true trio).resolveMember acyclic_trio (registered true trio).methods n c =
      trioMethod? c.fold (Text.fold n) := by
  rw [resolveMember_eq, sourcesOf_trio, if_neg hc, get?_trio, List.findSome?_nil, Option.or_none]

/-- What the user has by the rule of inheritance. -/
theorem resolveMember_user (n : String) :
    (registered true trio).resolveMember acyclic_trio (registered true trio).methods n user.name =
      [(⟨"\\", "Logs"⟩ : ClassName), ⟨"\\", "model"⟩, ⟨"\\", "Stores"⟩].findSome? fun s =>
        (trioMethod? s.fold (Text.fold n)).map fun m => moveTo m user.name := by
  have hown : (registered true trio).methods.get? user.name n = none := by
    rw [get?_trio]
    rfl
  rw [resolveMember_eq, hown, Option.none_or, sourcesOf_trio, if_pos (by decide)]
  simp only [List.findSome?_cons, List.findSome?_nil]
  rw [resolveMember_trio (by decide), resolveMember_trio (by decide),
    resolveMember_trio (by decide)]

/-- The class takes `save` from its trait, `load` from its parent and `flush` from its interface. -/
theorem hydration_inherits_trio :
    (registered true trio).Acyclic ∧ (registered true trio).isRegistered user.name = true ∧
    let methods := (hydrate user.name (registered true trio)).2.methods
    Option.Rel Alike (methods.get? user.name "SAVE")
      (some { bareMethod "User" "save" with definedAs := ⟨⟨"\\", "Logs"⟩, "save"⟩ }) ∧
    Option.Rel Alike (methods.get? user.name "Load")
      (some { bareMethod "User" "load" with definedAs := ⟨⟨"\\", "Model"⟩, "load"⟩ }) ∧
    Option.Rel Alike (methods.get? user.name "flush")
      (some { bareMethod "User" "flush" with definedAs := ⟨⟨"\\", "Stores"⟩, "flush"⟩ }) := by
  have hreg : (registered true trio).isRegistered user.name = true := by
    rw [isRegistered_trio]
    decide
  have hfound : ∀ n, Option.Rel Alike
      ((hydrate user.name (registered true trio)).2.methods.get? user.name n)
      ([(⟨"\\", "Logs"⟩ : ClassName), ⟨"\\", "model"⟩, ⟨"\\", "Stores"⟩].findSome? fun s =>
        (trioMethod? s.fold (Text.fold n)).map fun m => moveTo m user.name) := by
    intro n
    rw [← resolveMember_user]
    exact ((hydration_inherits true trio acyclic_trio).1 user.name hreg).1.1.found n
  exact ⟨acyclic_trio, hreg, hfound "SAVE", hfound "Load", hfound "flush"⟩

end CodeBase

end UnionInference
