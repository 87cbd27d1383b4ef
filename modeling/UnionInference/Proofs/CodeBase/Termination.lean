import UnionInference.Proofs.CodeBase.History
import UnionInference.Proofs.CodeBase.Hydration

/-!
Filling classes comes to an end, whatever the hierarchy looks like, where no resolver is asked. A
class is marked before its sources are filled, so a cycle of registered classes is gone round once.
But filling a source may load an announced class, and loading it registers a class and takes its
mark away, perhaps that of a class which is being filled. So marks alone do not show the end: with
each load one class fewer is announced, and between two loads each step down marks another class.
-/

namespace UnionInference

namespace CodeBase

/-! ### Filling without a limit on the steps down -/

/-- What is done when classes are filled. -/
inductive FillTask where
  /-- To fill a class. -/
  | fill (c : ClassName)
  /-- To fill the sources of a class that exist, one after the other, and hand each one down. -/
  | handDown (target : ClassName) (sources : List ClassName)
  /-- To fill classes one after the other. -/
  | fillEach (classes : List ClassName)

/-- The task comes to an end and makes the second code base of the first one. -/
inductive Ends : FillTask → CodeBase → CodeBase → Prop where
  | marked {c : ClassName} {b : CodeBase} :
      b.hydrated.contains c.fold = true → Ends (.fill c) b b
  | unknown {c : ClassName} {b : CodeBase} :
      b.hydrated.contains c.fold = false → b.class? c = none → Ends (.fill c) b b
  | known {c : ClassName} {decl : ClassDecl} {b b' : CodeBase} :
      b.hydrated.contains c.fold = false → b.class? c = some decl →
      Ends (.handDown c decl.sources) (b.mark c) b' → Ends (.fill c) b b'
  | noSource {c : ClassName} {b : CodeBase} : Ends (.handDown c []) b b
  | missing {c s : ClassName} {ss : List ClassName} {b b' : CodeBase} :
      (hasClass s b).1 = false → Ends (.handDown c ss) (hasClass s b).2 b' →
      Ends (.handDown c (s :: ss)) b b'
  | source {c s : ClassName} {ss : List ClassName} {b b₁ b' : CodeBase} :
      (hasClass s b).1 = true → Ends (.fill s) (hasClass s b).2 b₁ →
      Ends (.handDown c ss) (b₁.inherit s c) b' → Ends (.handDown c (s :: ss)) b b'
  | noClass {b : CodeBase} : Ends (.fillEach []) b b
  | next {c : ClassName} {cs : List ClassName} {b b₁ b' : CodeBase} :
      Ends (.fill c) b b₁ → Ends (.fillEach cs) b₁ b' → Ends (.fillEach (c :: cs)) b b'

variable {task : FillTask} {b b' b₁ b₂ : CodeBase} {c s : ClassName} {K n : Nat}

/-- A task ends in one way only. -/
theorem Ends.unique (h : Ends task b b₁) (h' : Ends task b b₂) : b₁ = b₂ := by
  induction h generalizing b₂ with
  | marked hm =>
    cases h' with
    | marked => rfl
    | unknown => rfl
    | known hm' => simp [hm] at hm'
  | unknown hm hnone =>
    cases h' with
    | marked => rfl
    | unknown => rfl
    | known _ hsome => simp [hnone] at hsome
  | known hm hsome _ ih =>
    cases h' with
    | marked hm' => simp [hm] at hm'
    | unknown _ hnone => simp [hsome] at hnone
    | known _ hsome' hrun =>
      cases hsome.symm.trans hsome'
      exact ih hrun
  | noSource =>
    cases h'
    rfl
  | missing hs _ ih =>
    cases h' with
    | missing _ hrun => exact ih hrun
    | source hs' => simp [hs] at hs'
  | source hs _ _ ihfill ih =>
    cases h' with
    | missing hs' => simp [hs] at hs'
    | source _ hfill hrun =>
      cases ihfill hfill
      exact ih hrun
  | noClass =>
    cases h'
    rfl
  | next _ _ ihfill ih =>
    cases h' with
    | next hfill hrun =>
      cases ihfill hfill
      exact ih hrun

/-! ### What is left to do -/

/-- The number of classes in the index that are not marked. -/
def unfilled (b : CodeBase) : Nat :=
  b.classes.index.keys.countP fun k => !b.hydrated.contains k.fold

theorem unfilled_le (b : CodeBase) : b.unfilled ≤ b.classes.index.size :=
  Nat.le_trans List.countP_le_length (Nat.le_of_eq Std.HashMap.length_keys)

/-- Where a test fails more often and the old one held at some place, fewer elements pass. -/
theorem countP_lt_of_mem {α : Type} {l : List α} {p q : α → Bool} {a : α} (ha : a ∈ l)
    (hp : p a = false) (hq : q a = true) (hle : ∀ x ∈ l, p x = true → q x = true) :
    l.countP p < l.countP q := by
  obtain ⟨l₁, l₂, rfl⟩ := List.append_of_mem ha
  have h₁ : l₁.countP p ≤ l₁.countP q :=
    List.countP_mono_left fun x hx => hle x (List.mem_append_left _ hx)
  have h₂ : l₂.countP p ≤ l₂.countP q :=
    List.countP_mono_left fun x hx => hle x (List.mem_append_right _ (List.mem_cons_of_mem a hx))
  rw [List.countP_append, List.countP_append, List.countP_cons_of_neg (by simp [hp]),
    List.countP_cons_of_pos hq]
  omega

theorem unfilled_mark_lt {decl : ClassDecl} (hm : b.hydrated.contains c.fold = false)
    (hc : b.class? c = some decl) : (b.mark c).unfilled < b.unfilled := by
  have hmem : c.fold ∈ b.classes.index.keys := by
    rw [Std.HashMap.mem_keys, Std.HashMap.mem_iff_isSome_getElem?]
    obtain ⟨e, he, -⟩ := Option.map_eq_some_iff.1 hc
    rw [OrderedTable.get?] at he
    cases hi : b.classes.index[c.fold]? with
    | some i => rfl
    | none => simp [hi] at he
  refine countP_lt_of_mem hmem ?_ ?_ fun k _ hk => ?_
  · rw [c.fold_fold, contains_mark]
    simp
  · rw [c.fold_fold, hm]
    rfl
  · rw [contains_mark, Bool.not_or, Bool.and_eq_true] at hk
    exact hk.2

/-- An upper bound of the steps down that are left, where there are at most `K` classes: all classes
may have to be marked again after each load. -/
def stepsLeft (K : Nat) (b : CodeBase) : Nat := b.pending.size * (K + 1) + b.unfilled

/-- No resolver is asked, and there are at most `K` classes, registered or announced. -/
structure Within (K : Nat) (b : CodeBase) : Prop where
  resolver : b.resolver = none
  size : b.classes.index.size + b.pending.size ≤ K

/-- The steps down that are left get no more. -/
structure Nears (K : Nat) (b b' : CodeBase) : Prop where
  within : b'.Within K
  steps : b'.stepsLeft K ≤ b.stepsLeft K

theorem Nears.trans (h : Nears K b b₁) (h' : Nears K b₁ b₂) : Nears K b b₂ :=
  ⟨h'.within, Nat.le_trans h'.steps h.steps⟩

theorem Within.inherit (h : b.Within K) (source target : ClassName) :
    Nears K b (b.inherit source target) := ⟨⟨h.resolver, h.size⟩, Nat.le_refl _⟩

theorem Within.mark (h : b.Within K) (c : ClassName) : (b.mark c).Within K := ⟨h.resolver, h.size⟩

theorem stepsLeft_mark_lt {decl : ClassDecl} (hm : b.hydrated.contains c.fold = false)
    (hc : b.class? c = some decl) : (b.mark c).stepsLeft K < b.stepsLeft K :=
  Nat.add_lt_add_left (unfilled_mark_lt hm hc) _

theorem index_insert_size_le {κ ν : Type} [BEq κ] [Hashable κ] [EquivBEq κ] [LawfulHashable κ]
    (t : OrderedTable κ ν) (k : κ) (v : ν) : (t.insert k v).index.size ≤ t.index.size + 1 := by
  unfold OrderedTable.insert
  split
  · exact Nat.le_succ _
  · exact Std.HashMap.size_insert_le

/-- A load may take every mark away, but it uses an announcement up. -/
theorem Within.load (h : b.Within K) {p : PendingClass} (hp : b.pending[c.fold]? = some p) :
    Nears K b (b.load c p) := by
  let cleared := CodeBase.log { b with pending := b.pending.erase c.fold } (.load p.announcedAs)
  have hsame : (cleared.addClass p.definition.decl).SameClasses (b.load c p) :=
    sameClasses_addDefinition cleared p.definition
  have hclasses : (b.load c p).classes.index.size ≤ b.classes.index.size + 1 := by
    rw [hsame.classes]
    exact index_insert_size_le _ _ _
  have hmem : c.fold ∈ b.pending := by
    rw [Std.HashMap.mem_iff_isSome_getElem?, hp]
    rfl
  have hpending : (b.load c p).pending.size + 1 = b.pending.size := by
    have hpos : 0 < b.pending.size := by
      rw [← Std.HashMap.length_keys]
      exact List.length_pos_of_mem (Std.HashMap.mem_keys.2 hmem)
    rw [hsame.pending]
    show (b.pending.erase c.fold).size + 1 = _
    rw [Std.HashMap.size_erase, if_pos hmem]
    omega
  have hsize := h.size
  refine ⟨⟨hsame.resolver.trans h.resolver, by omega⟩, ?_⟩
  have hunfilled := (b.load c p).unfilled_le
  unfold stepsLeft
  rw [← hpending, Nat.add_mul, Nat.one_mul]
  omega

theorem Within.hasClass (h : b.Within K) (s : ClassName) : Nears K b (CodeBase.hasClass s b).2 := by
  rw [hasClass_eq h.resolver]
  split
  · exact ⟨h, Nat.le_refl _⟩
  · cases hp : b.pending[s.fold]? with
    | none => exact ⟨h, Nat.le_refl _⟩
    | some p => exact h.load hp

/-! ### The end -/

/-- Handing down ends if the sources can be filled while as many steps are left. -/
theorem Within.ends_handDown (hfill : ∀ (s : ClassName) {b : CodeBase}, b.Within K →
      b.stepsLeft K < n → Ends (.fill s) b (hydrateWithin n s b).2 ∧
        Nears K b (hydrateWithin n s b).2)
    (c : ClassName) (ss : List ClassName) (h : b.Within K) (hn : b.stepsLeft K < n) :
    Ends (.handDown c ss) b (ss.foldl (handDown n c) b) ∧
      Nears K b (ss.foldl (handDown n c) b) := by
  induction ss generalizing b with
  | nil => exact ⟨.noSource, h, Nat.le_refl _⟩
  | cons s ss ih =>
    have hloaded := h.hasClass s
    rw [List.foldl_cons, handDown]
    cases hs : (CodeBase.hasClass s b).1 with
    | false =>
      rw [if_neg Bool.false_ne_true]
      obtain ⟨hends, hnears⟩ := ih hloaded.within (Nat.lt_of_le_of_lt hloaded.steps hn)
      exact ⟨.missing hs hends, hloaded.trans hnears⟩
    | true =>
      rw [if_pos rfl]
      obtain ⟨hfilled, hnears⟩ :=
        hfill s hloaded.within (Nat.lt_of_le_of_lt hloaded.steps hn)
      have hhanded := (hloaded.trans hnears).trans (hnears.within.inherit s c)
      obtain ⟨hends, hnears'⟩ := ih hhanded.within (Nat.lt_of_le_of_lt hhanded.steps hn)
      exact ⟨.source hs hfilled hends, hhanded.trans hnears'⟩

/-- Filling a class ends, by induction on a number above the steps down that are left. -/
theorem Within.ends_fill (n : Nat) : ∀ (c : ClassName) {b : CodeBase}, b.Within K →
    b.stepsLeft K < n → Ends (.fill c) b (hydrateWithin n c b).2 ∧
      Nears K b (hydrateWithin n c b).2 := by
  induction n with
  | zero => exact fun _ _ _ hn => absurd hn (Nat.not_lt_zero _)
  | succ n ih =>
    intro c b h hn
    rw [hydrateWithin_succ]
    cases hm : b.hydrated.contains c.fold with
    | true => exact ⟨.marked hm, h, Nat.le_refl _⟩
    | false =>
      rw [if_neg Bool.false_ne_true]
      cases hc : b.class? c with
      | none => exact ⟨.unknown hm hc, h, Nat.le_refl _⟩
      | some decl =>
        have hlt : (b.mark c).stepsLeft K < b.stepsLeft K := stepsLeft_mark_lt hm hc
        obtain ⟨hends, hnears⟩ :=
          (h.mark c).ends_handDown ih c decl.sources (Nat.lt_of_lt_of_le hlt (Nat.le_of_lt_succ hn))
        exact ⟨.known hm hc hends, hnears.within, Nat.le_trans hnears.steps (Nat.le_of_lt hlt)⟩

/-- Filling classes one after the other ends. -/
theorem Within.ends_fillEach (order : List ClassName) (h : b.Within K) :
    ∃ b', Ends (.fillEach order) b b' := by
  induction order generalizing b with
  | nil => exact ⟨b, .noClass⟩
  | cons c order ih =>
    obtain ⟨hends, hnears⟩ := h.ends_fill _ c (Nat.lt_succ_self _)
    obtain ⟨b', hrest⟩ := ih hnears.within
    exact ⟨b', .next hends hrest⟩

/-! ### The bound that is used -/

/-- The index of a valid table has no more keys than the row. -/
theorem size_index_le {κ ν : Type} [BEq κ] [Hashable κ] [LawfulBEq κ] {t : OrderedTable κ ν}
    (h : t.Valid) : t.index.size ≤ t.size := by
  have hnodup : t.index.keys.Nodup :=
    Std.HashMap.distinct_keys.imp fun hne heq => by simp [heq] at hne
  have hsub : t.index.keys ⊆ t.keys := fun k hk => by
    rw [Std.HashMap.mem_keys, Std.HashMap.mem_iff_contains] at hk
    exact h.contains_iff.1 hk
  have hle := (List.subperm_of_subset hnodup hsub).length_le
  rwa [Std.HashMap.length_keys, OrderedTable.keys, List.length_map] at hle

theorem within_self (hr : b.resolver = none) :
    b.Within (b.classes.index.size + b.pending.size) := ⟨hr, Nat.le_refl _⟩

/-- The bound exceeds the steps down that are left. -/
theorem stepsLeft_lt_hydrationBound (hr : b.resolver = none) (hv : b.classes.Valid) :
    b.stepsLeft (b.classes.index.size + b.pending.size) < b.hydrationBound := by
  have hunfilled := b.unfilled_le
  have hsize := size_index_le hv
  have hmul : b.pending.size * (b.classes.index.size + b.pending.size + 1) ≤
      b.pending.size * (b.classes.size + b.pending.size + 1) :=
    Nat.mul_le_mul_left _ (by omega)
  unfold stepsLeft hydrationBound
  rw [hr]
  simp only [Option.getD_none, List.length_nil, List.flatMap_nil, Nat.add_zero]
  rw [Nat.add_mul, Nat.one_mul]
  omega

/-- From the bound on, the steps down suffice. -/
theorem ends_hydrateWithin (hr : b.resolver = none) (hv : b.classes.Valid) (c : ClassName)
    (hn : b.hydrationBound ≤ n) : Ends (.fill c) b (hydrateWithin n c b).2 ∧
      (hydrateWithin n c b).2.resolver = none := by
  obtain ⟨hends, hnears⟩ := (within_self hr).ends_fill n c
    (Nat.lt_of_lt_of_le (stepsLeft_lt_hydrationBound hr hv) hn)
  exact ⟨hends, hnears.within.resolver⟩

theorem valid_classes_hydrate (hv : b.classes.Valid) (c : ClassName) :
    (hydrate c b).2.classes.Valid := by
  have hwaits : b.Waits fun _ => True :=
    ⟨fun _ _ _ _ _ => trivial, fun _ _ _ _ _ _ _ _ => trivial⟩
  rw [← (explains_hydrate c hwaits).replay]
  exact valid_classes_replay hv _

theorem ends_hydrateEach (hr : b.resolver = none) (hv : b.classes.Valid)
    (order : List ClassName) : Ends (.fillEach order) b (hydrateEach order b) := by
  induction order generalizing b with
  | nil => exact .noClass
  | cons c order ih =>
    obtain ⟨hends, hr'⟩ := ends_hydrateWithin hr hv c (Nat.le_refl _)
    exact .next hends (ih hr' (valid_classes_hydrate hv c))

/-- Filling classes ends where no resolver is asked, in one way, from every code base. The classes
that are registered and announced may inherit from themselves, from each other and from classes that
are missing, and the announced definitions may be those of any classes. Where the table of classes
is a valid one, as it is after any requests (`valid_classes_served`), the bound on the steps down is
never met: filling a class, or all of them, does what filling without a bound does, and more steps
would change nothing. -/
theorem hydration_terminates (hr : b.resolver = none) :
    (∀ c, ∃! b', Ends (.fill c) b b') ∧ (∀ order, ∃! b', Ends (.fillEach order) b b') ∧
      (b.classes.Valid →
        (∀ c, Ends (.fill c) b (hydrate c b).2 ∧
          ∀ n, b.hydrationBound ≤ n → (hydrateWithin n c b).2 = (hydrate c b).2) ∧
        Ends (.fillEach b.classNames) b (hydrateAll b).2) := by
  have hfill : ∀ c, ∃ b', Ends (.fill c) b b' := fun c =>
    ⟨_, ((within_self hr).ends_fill _ c (Nat.lt_succ_self _)).1⟩
  have hone : ∀ task, (∃ b', Ends task b b') → ∃! b', Ends task b b' :=
    fun task ⟨b', h⟩ => ⟨b', h, fun _ h' => h'.unique h⟩
  refine ⟨fun c => hone _ (hfill c), fun order => hone _ ((within_self hr).ends_fillEach order),
    fun hv => ⟨fun c => ?_, ?_⟩⟩
  · obtain ⟨hends, -⟩ := ends_hydrateWithin hr hv c (Nat.le_refl _)
    exact ⟨hends, fun n hn => (ends_hydrateWithin hr hv c hn).1.unique hends⟩
  · rw [hydrateAll_eq]
    exact ends_hydrateEach hr hv b.classNames

/-- A class that uses itself as a trait, and another one that is announced. -/
def restless : ClassDecl where
  name := ⟨"\\", "A"⟩
  traits := [⟨"\\", "B"⟩, ⟨"\\", "a"⟩]
  type := .empty

/-- The announced definition registers the first class again. -/
def restlessBase : CodeBase :=
  [.register (.classDecl restless), .announce ⟨"\\", "B"⟩ { decl := restless }].foldl serve
    (create true)

/-- While the class is filled, it is registered again and loses its mark. -/
theorem hydration_terminates_restless : restlessBase.resolver = none ∧ restlessBase.classes.Valid ∧
    (∃! b', Ends (.fill restless.name) restlessBase b') ∧
    Ends (.fill restless.name) restlessBase (hydrate restless.name restlessBase).2 ∧
    Ends (.fillEach restlessBase.classNames) restlessBase (hydrateAll restlessBase).2 := by
  have hv : restlessBase.classes.Valid := valid_classes_served true _
  obtain ⟨hfill, -, hrun⟩ := hydration_terminates (b := restlessBase) rfl
  exact ⟨rfl, hv, hfill _, ((hrun hv).1 _).1, (hrun hv).2⟩

end CodeBase

end UnionInference
