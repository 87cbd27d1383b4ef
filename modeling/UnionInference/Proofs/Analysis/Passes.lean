import UnionInference.Proofs.Analysis.ComparedNodes

/-!
Passes over an expression from one world. Whichever parts of it are evaluated first, the expression
comes to the same types, although the registries in the end may hold different types, and the same
ones in different places. A class that is written like an array shows why names must tell the types
apart.
-/

namespace UnionInference

theorem Child.Fits.of_contains {r : Regime} {root child : Child} (h : root.Fits r)
    (hc : root.Contains child) : child.Fits r := by
  induction hc with
  | self => exact h
  | child _ hp ih => exact NodeOf.Fits.children ih hp

namespace AnalysisM

variable {c : Context} {s : Setup} {w w₀ w₁ w₂ : World} {T : TypeTable} {n : Node} {u v : UnionType}
  {k : Nat} {root child : Child}

/-! ### Levels without stores -/

theorem Rests.cacheOf_eq_none (h : Rests c s w₀ T w) (n : Nat) : (w.cacheOf c)[n]? = none := by
  rw [World.cacheOf, h.stores]
  exact Std.HashMap.getElem?_empty

theorem Yields.evaluateWithin_zero_eq {o : Option UnionType}
    (h : Yields c s w₀ T (evaluateWithin 0 true c (.node n)) o) : o = some .empty := by
  obtain ⟨w, w₁, r, hw, -, hrun, rfl⟩ := h
  rw [evaluateWithin_zero (hw.cacheOf_eq_none n.id)] at hrun
  cases hrun
  rfl

/-- A node comes to what its rule comes to; nothing is known of it where the rule fails. -/
theorem Yields.evaluateWithin_inv {o : Option UnionType}
    (h : Yields c s w₀ T (evaluateWithin (k + 1) true c (.node n)) o) :
    ∃ o', Yields c s w₀ T ((Evaluator.reporting c (evaluateWithin k)).node n) o' ∧
      o = some (o'.getD .empty) := by
  obtain ⟨w, w₂, r, hw, hw₂, hrun, rfl⟩ := h
  rw [evaluateWithin_of_not_kept (hw.cacheOf_eq_none n.id)] at hrun
  obtain ⟨r', w₁, log, hnode, rfl, rfl⟩ := evaluateNew_eq_ok hrun
  have hstores : w₁.caches = #[] := by
    have hsize := congrArg Array.size hw₂.stores
    rw [World.remember, Array.size_modify] at hsize
    exact Array.size_eq_zero_iff.1 hsize
  have hw₁ : Rests c s w₀ T w₁ := ⟨hw₂.tidy.withLog w₁.issues w₁.caches,
    hw₂.later.withLog w₁.issues w₁.caches, hw₂.entries, hstores⟩
  exact ⟨r'.toOption, ⟨w, w₁, r', hw, hw₁, hnode, rfl⟩, rfl⟩

end AnalysisM

namespace Comparison

open AnalysisM Evaluator

variable {r : Regime} (x : Comparison r) {root : Child} (hroot : root.Separable)
  (hnarrow : x.setup.narrowing = {}) (hfits : root.Fits r)
include hroot hnarrow hfits

/-- One level above, a node comes to the same types on both sides. -/
theorem tallies_succ {k : Nat} {n : Node} (hn : root.Contains (.node n))
    (hk : (Child.node n).Nests (k + 1)) (ih : ∀ child, root.Contains child → child.Nests k →
      x.Tallies (x.left.SameTypes x.right) (evaluateWithin k true x.context child)
        (evaluateWithin k true x.context child)) :
    x.Tallies (x.left.SameTypes x.right) ((reporting x.context (evaluateWithin k)).node n)
      ((reporting x.context (evaluateWithin k)).node n) := by
  cases hpart : n.kind.isPart with
  | true =>
    rw [node_of_isPart _ hpart]
    exact .fail _ _
  | false =>
    let inside := fun child : Child => root.Contains child ∧ child.Nests k
    have h : x.Tallying root inside (reporting x.context (evaluateWithin k)) := {
      reporting := rfl
      closed := ⟨fun m hm p hp => ⟨hm.1.child hp, hm.2.of_mem hp⟩⟩
      fits := fun child hc => hfits.of_contains hc.1
      built := built_evaluateWithin k
      echoing := fun child hc =>
        separated hroot hnarrow k child hc.1 hc.2 k hc.2 x.context.cache
      same := fun child hc => ih child hc.1 hc.2 }
    exact h.node (fun p hp => ⟨hn.child hp, hk.inside hpart hp⟩) (hfits.of_contains hn) hnarrow
      (hroot.arrow n hn) (hroot.coalesce n hn)

/-- An expression comes to the same types on both sides, however many levels there are. -/
theorem tallies_evaluateWithin (k : Nat) : ∀ child, root.Contains child → child.Nests k →
    x.Tallies (x.left.SameTypes x.right) (evaluateWithin k true x.context child)
      (evaluateWithin k true x.context child) := by
  induction k with
  | zero =>
    intro child _ _
    cases child with
    | node n =>
      intro o o' hl hr
      rw [hl.evaluateWithin_zero_eq, hr.evaluateWithin_zero_eq]
      exact .some .empty
    | _ =>
      rw [evaluateWithin_literal rfl]
      exact .literalType _
  | succ k ih =>
    intro child hchild hk
    cases child with
    | node n =>
      intro o o' hl hr
      obtain ⟨p, hp, rfl⟩ := hl.evaluateWithin_inv
      obtain ⟨q, hq, rfl⟩ := hr.evaluateWithin_inv
      obtain ⟨huv⟩ | _ := x.tallies_succ hroot hnarrow hfits hchild hk ih p q hp hq
      · exact .some huv
      · exact .some .empty
    | _ =>
      rw [evaluateWithin_literal rfl]
      exact .literalType _

theorem tallies_evaluate : x.Tallies (x.left.SameTypes x.right) (evaluate x.context root)
    (evaluate x.context root) :=
  (x.tallies_evaluateWithin hroot hnarrow hfits _ root .self hroot.nests).recover .empty
    (fun _ w => ⟨w.issues, rfl⟩) fun _ w => ⟨w.issues, rfl⟩

end Comparison

namespace AnalysisM

variable {r : Regime} {root : Child} {parts parts' : List Child} {c : Context} {s : Setup}
  {w w₁ w₂ : World} {r₁ r₂ : Except Failure UnionType} {u : UnionType}

/-! ### Passes -/

/-- A pass leaves a sound world. -/
theorem sound_evaluateAfter (hw : w.Sound r s) (hc : c.Fits r) (hroot : root.Fits r)
    (hparts : ∀ part ∈ parts, part.Fits r)
    (h : evaluateAfter c parts root s w = .ok (r₁, w₁)) : w₁.Sound r s := by
  have hsound {child : Child} {w w₁ : World} {x : Except Failure UnionType} (hchild : child.Fits r)
      (hw : w.Sound r s) (hrun : evaluate c child s w = .ok (x, w₁)) : w₁.Sound r s := by
    obtain ⟨u, -, hrun⟩ := evaluate_eq_ok hrun
    rcases runs_evaluateWithin maxExpressionDepth true c child w hc hchild hw with
      ⟨y, w', hrun', hleads, -⟩ | ⟨-, key, hrun'⟩
    · cases hrun.symm.trans hrun'
      exact hleads.sound
    · cases hrun.symm.trans hrun'
  induction parts generalizing w with
  | nil => exact hsound hroot hw h
  | cons part parts ih =>
    rw [evaluateAfter, bind_apply] at h
    split at h
    · next hfirst =>
      exact ih (hsound (hparts part List.mem_cons_self) hw hfirst)
        (fun p hp => hparts p (List.mem_cons_of_mem _ hp)) h
    · next hfirst =>
      obtain ⟨v, hv, -⟩ := evaluate_eq_ok hfirst
      cases hv
    · cases h

/-- On the types that are there after a pass, the root comes to the type once more. -/
theorem PassesTo.yields (hroot : root.Separable) (hnarrow : s.narrowing = {})
    (h : PassesTo root c s u w w₁) : Yields c s w w₁.types (evaluate c root) (some u) := by
  have hrests : Rests c s w w₁.types { w₁ with issues := w₁.issues, caches := #[] } :=
    ⟨h.tidy.withLog _ _, h.later.withLog _ _, rfl, rfl⟩
  obtain ⟨x, w₂, hrun, hx, -, -, -, he⟩ := h.comes c.cache _ hrests.tidy hrests.stores
    ((World.Later.refl h.tidy).withLog _ _)
  rw [← hx]
  exact .of_run (echoes_evaluate hroot hnarrow .self c.cache).proceeds hrests hrun he

/-- Two passes over an expression from one world come to the same types, whatever parts of it each of
them evaluates first. Where the expression is evaluated once more after either of them it has its
type again, and nothing else happens. Names must tell types apart. -/
theorem evaluate_transparent {root : Child} (hroot : root.Separable) {s : Setup}
    (hnarrow : s.narrowing = {}) {parts parts' : List Child}
    (hparts : ∀ part ∈ parts, root.Contains part) (hparts' : ∀ part ∈ parts', root.Contains part)
    {r : Regime} (hstrict : r.strict) {c : Context} (hc : c.Fits r) (hfits : root.Fits r)
    {w w₁ w₂ : World} (hw : w.Tidy c) (hsound : w.Sound r s) (hacyclic : w.base.Acyclic)
    (hempty : w.caches[c.cache]? = some {}) {r₁ r₂ : Except Failure UnionType}
    (h₁ : evaluateAfter c parts root s w = .ok (r₁, w₁))
    (h₂ : evaluateAfter c parts' root s w = .ok (r₂, w₂)) :
    ∃ u v, r₁ = .ok u ∧ r₂ = .ok v ∧ w₁.types.SameTypes w₂.types u v ∧
      evaluate c root s w₁ = .ok (.ok u, w₁) ∧ evaluate c root s w₂ = .ok (.ok v, w₂) := by
  have hfair : Fair root c s w := fair_of_empty hw (by rw [World.cacheOf, hempty]; rfl)
  have hstore : c.cache < w.caches.size := (Array.getElem?_eq_some_iff.1 hempty).1
  have hsound₁ : w₁.Sound r s :=
    sound_evaluateAfter hsound hc hfits (fun p hp => hfits.of_contains (hparts p hp)) h₁
  have hsound₂ : w₂.Sound r s :=
    sound_evaluateAfter hsound hc hfits (fun p hp => hfits.of_contains (hparts' p hp)) h₂
  have htypes₁ := hsound₁.shallow.types
  have htypes₂ := hsound₂.shallow.types
  obtain ⟨u, rfl, hpass⟩ := passesTo_evaluateAfter hroot hnarrow hparts hfair h₁
    (htypes₁.canonical hstrict).named
  obtain ⟨v, rfl, hpass'⟩ := passesTo_evaluateAfter hroot hnarrow hparts' hfair h₂
    (htypes₂.canonical hstrict).named
  let x : Comparison r := {
    context := c
    setup := s
    start := w
    left := w₁.types
    right := w₂.types
    siblings := ⟨hstrict, hw.canonical, hpass.keeps, hpass'.keeps, htypes₁, htypes₂⟩
    tidy := hw
    sound := hsound
    fits := hc
    acyclic := hacyclic }
  obtain ⟨huv⟩ := x.tallies_evaluate hroot hnarrow hfits _ _ (hpass.yields hroot hnarrow)
    (hpass'.yields hroot hnarrow)
  exact ⟨u, v, rfl, rfl, huv, hpass.again hstore, hpass'.again hstore⟩

/-- An expression that has no value. -/
def endAt (id : Nat) : Node := ⟨id, .exit, 0, 1, []⟩

/-- An element of the class `A` under a key of which nothing is known. -/
def elementOfA : Node :=
  ⟨3, .arrayElem, 0, 1, [(.name "value", .node (classAt 5 "A")), (.name "key", .node (endAt 4))]⟩

/-- An array with the element. -/
def arrayOfA : Node := ⟨2, .array, 0, 1, [(.index 0, .node elementOfA)]⟩

/-- The array or another class. -/
def choiceOf (name : String) : Node := ⟨0, .conditional, 0, 1, [(.name "cond", .node (endAt 1)),
  (.name "true", .node arrayOfA), (.name "false", .node (classAt 6 name))]⟩

section Example

variable {t t₁ t₂ t₃ : TypeTable} {i j l k : Nat} {name : String} {q : ClassName}

theorem evaluateWithin_endAt (hnone : (w.cacheOf c)[i]? = none) :
    evaluateWithin (k + 1) true c (.node (endAt i)) s w =
      .ok (.ok .empty, w.remember c i .empty) := evaluateWithin_of_node hnone rfl

theorem evaluateWithin_classAt
    (hq : classOfName c (classAt i name) s w = .ok (.ok q, w)) (hnone : (w.cacheOf c)[i]? = none)
    (h : TypeM.classType q w.types = .ok (j, t)) :
    evaluateWithin (k + 1) true c (.node (classAt i name)) s w =
      .ok (.ok (.of j), ({ w with types := t } : World).remember c i (.of j)) :=
  have htypes : types (TypeM.classType q) s w = .ok (.ok j, { w with types := t }) :=
    types_eq_ok.2 ⟨j, t, h, rfl, rfl⟩
  evaluateWithin_of_node hnone ((bind_of_ok hq).trans (bind_of_ok htypes))

/-- What the array leaves: the class and the array of it are in the table, and three nodes in the
store. -/
def afterArray (w : World) (t₁ t₂ : TypeTable) (i j : TypeId) : World :=
  let w₁ := ({ w with types := t₁ } : World).remember outside 5 (.of i)
  let w₂ := w₁.remember outside 4 .empty
  ({ w₂ with types := t₂ } : World).remember outside 2 (.of j)

theorem evaluateWithin_arrayOfA (hnone : ∀ n ∈ [2, 4, 5], (w.cacheOf outside)[n]? = none)
    (hclass : TypeM.classType (.make "\\" "A") w.types = .ok (i, t₁))
    (hentry : t₁.entries[i]? = some ⟨⟨.object (.make "\\" "A") [], false⟩, "\\A"⟩)
    (harray : TypeM.array .mixed i false t₁ = .ok (j, t₂)) :
    evaluateWithin (k + 2) true outside (.node arrayOfA) s w =
      .ok (.ok (.of j), afterArray w t₁ t₂ i j) := by
  refine evaluateWithin_of_node (hnone 2 (by decide)) ?_
  let w₁ := ({ w with types := t₁ } : World).remember outside 5 (.of i)
  have hvalue : evaluateWithin (k + 1) true outside (.node (classAt 5 "A")) s w =
      .ok (.ok (.of i), w₁) :=
    evaluateWithin_classAt (classOfName_classAt (by decide) (by decide)) (hnone 5 (by decide))
      hclass
  have hkey : evaluateWithin (k + 1) true outside (.node (endAt 4)) s w₁ =
      .ok (.ok .empty, w₁.remember outside 4 .empty) := by
    refine evaluateWithin_endAt ?_
    rw [World.cacheOf_remember_of_ne (by decide)]
    exact hnone 4 (by decide)
  have helement : (Evaluator.reporting outside (evaluateWithin (k + 1))).addElement elementOfA {} s
      w = .ok (.ok (({} : LiteralKeys).addUnknown .mixed (.of i)), w₁.remember outside 4 .empty) := by
    unfold Evaluator.addElement
    rw [if_neg (by decide)]
    refine (bind_of_ok (a := .node (classAt 5 "A")) rfl).trans ?_
    refine (bind_of_ok hvalue).trans ?_
    refine (bind_of_ok hkey).trans ?_
    refine (bind_of_ok (a := none) rfl).trans ?_
    exact (bind_of_ok (a := .mixed) rfl).trans rfl
  have hwiden : types (UnionType.of i).widenLiterals s (w₁.remember outside 4 .empty) =
      .ok (.ok (.of i), w₁.remember outside 4 .empty) := by
    refine types_eq_ok.2 ⟨.of i, t₁, TypeM.bind_eq_ok.2 ⟨[i], t₁, ?_, rfl⟩, rfl, rfl⟩
    refine TypeM.bind_eq_ok.2 ⟨i, t₁, ?_, rfl⟩
    exact TypeM.bind_eq_ok.2 ⟨_, t₁, TypeM.fetch_eq_ok.2 ⟨rfl, _, hentry, rfl⟩, rfl⟩
  have harrays : types ((UnionType.of i).asArrays .mixed) s (w₁.remember outside 4 .empty) =
      .ok (.ok (.of j), { w₁.remember outside 4 .empty with types := t₂ }) := by
    refine types_eq_ok.2 ⟨.of j, t₂, TypeM.bind_eq_ok.2 ⟨[j], t₂, ?_, rfl⟩, rfl, rfl⟩
    exact TypeM.bind_eq_ok.2 ⟨j, t₂, harray, rfl⟩
  refine (bind_of_ok ((bind_of_ok helement).trans rfl)).trans ?_
  rw [if_neg (by exact Bool.false_ne_true)]
  exact (bind_of_ok hwiden).trans harrays

/-- The choice is evaluated where its parts are not known yet, but the class may be. -/
theorem evaluate_choiceOf (hnone : ∀ n < 6, (w.cacheOf outside)[n]? = none)
    (hclass : TypeM.classType (.make "\\" "A") w.types = .ok (i, t₁))
    (hentry : t₁.entries[i]? = some ⟨⟨.object (.make "\\" "A") [], false⟩, "\\A"⟩)
    (harray : TypeM.array .mixed i false t₁ = .ok (j, t₂))
    (hother : evaluateWithin 499 true outside (.node (classAt 6 name)) {}
      (afterArray (w.remember outside 1 .empty) t₁ t₂ i j) = .ok (.ok (.of l), w₁)) :
    evaluate outside (.node (choiceOf name)) {} w =
      .ok (.ok ((UnionType.of j).union (.of l)),
        w₁.remember outside 0 ((UnionType.of j).union (.of l))) := by
  refine evaluate_of_typeOf (evaluateWithin_of_node (hnone 0 (by decide)) ?_)
  have hcond : evaluateWithin 499 true outside (.node (endAt 1)) {} w =
      .ok (.ok .empty, w.remember outside 1 .empty) :=
    evaluateWithin_endAt (hnone 1 (by decide))
  have hyes : evaluateWithin 499 true outside (.node arrayOfA) {} (w.remember outside 1 .empty) =
      .ok (.ok (.of j), afterArray (w.remember outside 1 .empty) t₁ t₂ i j) := by
    refine evaluateWithin_arrayOfA (fun n hn => ?_) hclass hentry harray
    rw [World.cacheOf_remember_of_ne (by rintro rfl; simp at hn)]
    exact hnone n (by simp at hn; omega)
  refine (bind_of_ok (a := .node (endAt 1)) rfl).trans ?_
  refine (bind_of_ok (a := .node (classAt 6 name)) rfl).trans ?_
  refine (bind_of_ok (Evaluator.narrow_eq (c := outside) rfl true w)).trans ?_
  refine (bind_of_ok (Evaluator.narrow_eq (c := outside) rfl false w)).trans ?_
  refine (bind_of_ok hcond).trans ?_
  refine (bind_of_ok hyes).trans ?_
  exact (bind_of_ok hother).trans rfl

theorem cacheOf_afterArray {n : Nat} (hn : n ∉ [2, 4, 5]) :
    ((afterArray w t₁ t₂ i j).cacheOf outside)[n]? = (w.cacheOf outside)[n]? := by
  have h2 : n ≠ 2 := by rintro rfl; simp at hn
  have h4 : n ≠ 4 := by rintro rfl; simp at hn
  have h5 : n ≠ 5 := by rintro rfl; simp at hn
  rw [afterArray, World.cacheOf_remember_of_ne h2]
  exact (World.cacheOf_remember_of_ne h4).trans (World.cacheOf_remember_of_ne h5)

section Runs

variable (hname : isOwnerName name = false)
  (hq : outside.resolveClass name .notFullyQualified = q)
  (hnone : ∀ n < 7, (w.cacheOf outside)[n]? = none)
include hname hq hnone

theorem evaluate_choiceOf_alone (hclass : TypeM.classType (.make "\\" "A") w.types = .ok (i, t₁))
    (hentry : t₁.entries[i]? = some ⟨⟨.object (.make "\\" "A") [], false⟩, "\\A"⟩)
    (harray : TypeM.array .mixed i false t₁ = .ok (j, t₂))
    (hother : TypeM.classType q t₂ = .ok (l, t₃)) :
    ∃ w₁, evaluateAfter outside [] (.node (choiceOf name)) {} w =
      .ok (.ok ((UnionType.of j).union (.of l)), w₁) ∧ w₁.types = t₃ := by
  refine ⟨_, evaluate_choiceOf (fun n hn => hnone n (by omega)) hclass hentry harray
    (evaluateWithin_classAt (classOfName_classAt hname hq) ?_ hother), rfl⟩
  rw [cacheOf_afterArray (by decide), World.cacheOf_remember_of_ne (by decide)]
  exact hnone 6 (by decide)

theorem evaluateAfter_classAt (hstore : 0 < w.caches.size)
    (hother : TypeM.classType q w.types = .ok (l, t))
    (hclass : TypeM.classType (.make "\\" "A") t = .ok (i, t₁))
    (hentry : t₁.entries[i]? = some ⟨⟨.object (.make "\\" "A") [], false⟩, "\\A"⟩)
    (harray : TypeM.array .mixed i false t₁ = .ok (j, t₂)) :
    ∃ w₁, evaluateAfter outside [.node (classAt 6 name)] (.node (choiceOf name)) {} w =
      .ok (.ok ((UnionType.of j).union (.of l)), w₁) ∧ w₁.types = t₂ := by
  have hpart : evaluate outside (.node (classAt 6 name)) {} w =
      .ok (.ok (.of l), ({ w with types := t } : World).remember outside 6 (.of l)) :=
    evaluate_of_typeOf
      (evaluateWithin_classAt (classOfName_classAt hname hq) (hnone 6 (by decide)) hother)
  rw [evaluateAfter, bind_of_ok hpart, evaluateAfter]
  refine ⟨_, evaluate_choiceOf (fun n hn => ?_) hclass hentry harray
    (evaluateWithin_of_kept (n := classAt 6 name) ?_), rfl⟩
  · rw [World.cacheOf_remember_of_ne (by omega)]
    exact hnone n (by omega)
  · show ((afterArray ..).cacheOf outside)[6]? = _
    rw [cacheOf_afterArray (by decide), World.cacheOf_remember_of_ne (by decide)]
    exact World.cacheOf_remember_self hstore

end Runs

/-- The parts of the choice. -/
def partsOf (name : String) : List Child :=
  [.node (choiceOf name), .node (endAt 1), .node arrayOfA, .node (classAt 6 name), .str name,
    .node elementOfA, .node (classAt 5 "A"), .node (endAt 4), .str "A"]

theorem mem_partsOf {child : Child} (h : (Child.node (choiceOf name)).Contains child) :
    child ∈ partsOf name := by
  induction h with
  | self => exact List.mem_cons_self
  | child h hp ih =>
    simp only [partsOf, List.mem_cons, Child.node.injEq, List.not_mem_nil, or_false, reduceCtorEq,
      false_or] at ih
    rcases ih with rfl | rfl | rfl | rfl | rfl | rfl | rfl
    · simp only [choiceOf, List.mem_cons, List.not_mem_nil, or_false] at hp
      rcases hp with rfl | rfl | rfl <;> simp [partsOf]
    · cases hp
    · rw [List.mem_singleton.1 hp]
      simp [partsOf]
    · rw [List.mem_singleton.1 hp]
      simp [partsOf]
    · rcases List.mem_pair.1 hp with rfl | rfl <;> simp [partsOf]
    · rw [List.mem_singleton.1 hp]
      simp [partsOf]
    · cases hp

theorem nests_choiceOf (k : Nat) : (Child.node (choiceOf name)).Nests (k + 3) := by
  have hend : ∀ i k, (Child.node (endAt i)).Nests (k + 1) := fun i k => .expression nofun
  have hclass : ∀ i name k, (Child.node (classAt i name)).Nests (k + 1) := fun i name k => by
    refine .expression fun p hp => ?_
    rw [List.mem_singleton.1 hp]
    exact .literal rfl
  have harray : (Child.node arrayOfA).Nests (k + 2) := by
    refine .expression fun p hp => ?_
    rw [List.mem_singleton.1 hp]
    refine .part rfl fun q hq => ?_
    rcases List.mem_pair.1 hq with rfl | rfl
    · exact hclass 5 "A" k
    · exact hend 4 k
  refine .expression fun p hp => ?_
  simp only [choiceOf, List.mem_cons, List.not_mem_nil, or_false] at hp
  rcases hp with rfl | rfl | rfl
  · exact hend 1 (k + 1)
  · exact harray
  · exact hclass 6 name (k + 1)

theorem separable_choiceOf : (Child.node (choiceOf name)).Separable := by
  have hnodes : ∀ n : Node, (Child.node (choiceOf name)).Contains (.node n) →
      ((partsOf name).filterMap Child.node?).find? (fun n' => n'.id = n.id) = some n ∧
        n.kind ≠ .arrowFunc ∧ n.kind ≠ .binaryOp ∧ n.kind ≠ .assignOp := by
    intro n hn
    have hmem := mem_partsOf hn
    simp only [partsOf, List.mem_cons, Child.node.injEq, List.not_mem_nil, or_false,
      reduceCtorEq, false_or] at hmem
    rcases hmem with rfl | rfl | rfl | rfl | rfl | rfl | rfl <;> exact ⟨rfl, nofun, nofun, nofun⟩
  refine ⟨fun a b ha hb hid => ?_, nests_choiceOf 497, fun n hn => (hnodes n hn).2.1,
    fun n hn h => ?_⟩
  · have hsame := (hnodes a ha).1.symm
    rw [hid] at hsame
    exact Option.some.inj (hsame.trans (hnodes b hb).1)
  · obtain ⟨-, -, hbinary, hassign⟩ := hnodes n hn
    exact (h.elim hbinary hassign).elim

/-- A world with the scope and the store of a file. -/
def fileWith (t : TypeTable) : World where
  types := t
  base := .create true
  scopes := #[.global]
  caches := #[{}]

theorem tidy_fileWith : (fileWith (.initial false)).Tidy outside :=
  have hrun (t : TypeTable) : ([] : List Request).forM Request.run (t, .create true) =
      .ok ((), (fileWith t).types, (fileWith t).base) := rfl
  World.tidy_of_session (by simp) (hrun _) OrderedTable.valid_empty

theorem acyclic_fileWith (t : TypeTable) : (fileWith t).base.Acyclic := by
  refine CodeBase.acyclic_of_measure (fun _ => 0) fun q p hs => ?_
  obtain ⟨q', hq, -⟩ := hs
  simp [fileWith, CodeBase.sourcesOf, CodeBase.class?_create] at hq

theorem sound_fileWith : (fileWith (.initial false)).Sound .exact {} := by
  have htypes : (TypeTable.initial false).Sound .exact := TypeTable.Reachable.sound ⟨false, .refl⟩
  generalize TypeTable.initial false = t at htypes ⊢
  refine ⟨⟨htypes, CodeBase.sound_create .exact t true, .inl trivial⟩, fun x hx e he => ?_,
    fun m hm k u hu => ?_, by simp, by simp⟩
  · rw [List.mem_singleton.1 (Array.mem_toList_iff.2 hx)] at he
    cases he
  · rw [List.mem_singleton.1 (Array.mem_toList_iff.2 hm)] at hu
    simp at hu

theorem not_kept_fileWith (t : TypeTable) (n : Nat) :
    ((fileWith t).cacheOf outside)[n]? = none := by
  simp [World.cacheOf, fileWith, outside]

theorem fits_endAt (i : Nat) : (Child.node (endAt i)).Fits .exact :=
  .intro ⟨nofun, fun _ => (by decide : Text.isInteger 1 = true)⟩ (by rintro n ⟨⟩ e he; cases he)

theorem fits_classAt {x : String} (hx : Regime.exact.Spells x)
    (hregular : (QualifiedName.ofFullName x).Regular) (i : Nat) :
    (Child.node (classAt i x)).Fits .exact := by
  refine .intro ⟨?_, fun _ => (by decide : Text.isInteger 1 = true)⟩ ?_
  · rintro - name ⟨⟩
    exact hx
  · rintro n ⟨⟩ e he
    obtain rfl := List.mem_singleton.1 he
    exact .intro (fun _ _ => .inr (.inr (.inr hregular))) nofun

theorem contains_classAt : (Child.node (choiceOf name)).Contains (.node (classAt 6 name)) :=
  .child (p := (.name "false", .node (classAt 6 name))) .self (.tail _ (.tail _ (.head _)))

theorem fits_choiceOf : (Child.node (choiceOf "B")).Fits .exact := by
  have hA : (Child.node (classAt 5 "A")).Fits .exact := fits_classAt
    ⟨by decide, ⟨'A', by decide, by decide⟩, fun _ => ⟨["A".toList], by decide, by decide, by decide⟩⟩
    ⟨⟨["A".toList], by decide, by decide, by decide⟩, by unfold QualifiedName.Divided; decide⟩ 5
  have hB : (Child.node (classAt 6 "B")).Fits .exact := fits_classAt
    ⟨by decide, ⟨'B', by decide, by decide⟩, fun _ => ⟨["B".toList], by decide, by decide, by decide⟩⟩
    ⟨⟨["B".toList], by decide, by decide, by decide⟩, by unfold QualifiedName.Divided; decide⟩ 6
  have helement : (Child.node elementOfA).Fits .exact := by
    refine .intro ⟨nofun, fun _ => by decide⟩ ?_
    rintro n ⟨⟩ e he
    rcases List.mem_pair.1 he with rfl | rfl
    · exact hA
    · exact fits_endAt 4
  have harray : (Child.node arrayOfA).Fits .exact := by
    refine .intro ⟨nofun, fun _ => by decide⟩ ?_
    rintro n ⟨⟩ e he
    obtain rfl := List.mem_singleton.1 he
    exact helement
  refine .intro ⟨nofun, fun _ => by decide⟩ ?_
  rintro n ⟨⟩ e he
  simp only [choiceOf, List.mem_cons, List.not_mem_nil, or_false] at he
  rcases he with rfl | rfl | rfl
  · exact fits_endAt 1
  · exact harray
  · exact hB

/-- A class that is evaluated first makes no difference to the choice, although the types stand in
other places. -/
theorem evaluate_transparent_choiceOf : ∃ u v w₁ w₂,
    evaluateAfter outside [.node (classAt 6 "B")] (.node (choiceOf "B")) {}
      (fileWith (.initial false)) = .ok (.ok u, w₁) ∧
    evaluateAfter outside [] (.node (choiceOf "B")) {} (fileWith (.initial false)) =
      .ok (.ok v, w₂) ∧ u ≠ v ∧ w₁.types.SameTypes w₂.types u v ∧
    evaluate outside (.node (choiceOf "B")) {} w₁ = .ok (.ok u, w₁) ∧
    evaluate outside (.node (choiceOf "B")) {} w₂ = .ok (.ok v, w₂) := by
  have hname : isOwnerName "B" = false := by decide
  have hq : outside.resolveClass "B" .notFullyQualified = .make "\\" "B" := by decide
  have htidy := tidy_fileWith
  have hsound := sound_fileWith
  have l₀ := TypeTable.lists_initial false
  generalize TypeTable.initial false = t₀ at l₀ htidy hsound ⊢
  -- the class is there first
  obtain ⟨t₁, h₁, l₁, -⟩ := l₀.intern_new (TypeTable.writes_object _ (.make "\\" "B") false)
    (by decide) rfl
  obtain ⟨t₂, h₂, l₂, -⟩ := l₁.intern_new (TypeTable.writes_object _ (.make "\\" "A") false)
    (by decide) rfl
  obtain ⟨t₃, h₃, l₃, -⟩ := l₂.intern_new (l₂.writes_array 32 rfl false) (by decide) rfl
  obtain ⟨w₁, hrun₁, -⟩ := evaluateAfter_classAt (w := fileWith t₀) hname hq
    (fun n _ => not_kept_fileWith t₀ n) Nat.one_pos h₁ h₂ (l₂.entry (i := 32) rfl) h₃
  -- the array is there first
  obtain ⟨t₁', h₁', l₁', -⟩ := l₀.intern_new (TypeTable.writes_object _ (.make "\\" "A") false)
    (by decide) rfl
  obtain ⟨t₂', h₂', l₂', -⟩ := l₁'.intern_new (l₁'.writes_array 31 rfl false) (by decide) rfl
  obtain ⟨t₃', h₃', l₃', -⟩ := l₂'.intern_new
    (TypeTable.writes_object _ (.make "\\" "B") false) (by decide) rfl
  obtain ⟨w₂, hrun₂, -⟩ := evaluate_choiceOf_alone (w := fileWith t₀) hname hq
    (fun n _ => not_kept_fileWith t₀ n) h₁' (l₁'.entry (i := 31) rfl) h₂' h₃'
  obtain ⟨u, v, hu, hv, hsame, hagain, hagain'⟩ := evaluate_transparent separable_choiceOf rfl
    (List.forall_mem_singleton.2 contains_classAt) (by simp) (r := .exact) trivial (fits_outside _)
    fits_choiceOf htidy hsound (acyclic_fileWith t₀) rfl hrun₁ hrun₂
  cases hu
  cases hv
  exact ⟨_, _, w₁, w₂, hrun₁, hrun₂, by decide, hsame, hagain, hagain'⟩

/-- Where a class is written like the arrays, it makes a difference which of them comes first: the
choice has two types, and it has one where the class is evaluated first. -/
theorem evaluate_opaque_choiceOf :
    (Child.node (choiceOf "A[]")).Separable ∧
    (Child.node (choiceOf "A[]")).Contains (.node (classAt 6 "A[]")) ∧
    (fileWith (.initial false)).Tidy outside ∧ (fileWith (.initial false)).base.Acyclic ∧
    (fileWith (.initial false)).caches[outside.cache]? = some {} ∧
    ∃ u v w₁ w₂,
      evaluateAfter outside [] (.node (choiceOf "A[]")) {} (fileWith (.initial false)) =
        .ok (.ok u, w₁) ∧
      evaluateAfter outside [.node (classAt 6 "A[]")] (.node (choiceOf "A[]")) {}
        (fileWith (.initial false)) = .ok (.ok v, w₂) ∧
      u.members.length = 2 ∧ v.members.length = 1 ∧ ¬ w₁.types.SameTypes w₂.types u v := by
  have hname : isOwnerName "A[]" = false := by decide
  have hq : outside.resolveClass "A[]" .notFullyQualified = .make "\\" "A[]" := by decide
  have htidy := tidy_fileWith
  have l₀ := TypeTable.lists_initial false
  generalize TypeTable.initial false = t₀ at l₀ htidy ⊢
  refine ⟨separable_choiceOf, contains_classAt, htidy, acyclic_fileWith t₀, rfl, ?_⟩
  -- the arrays are there first
  obtain ⟨t₁, h₁, l₁, -⟩ := l₀.intern_new (TypeTable.writes_object _ (.make "\\" "A") false)
    (by decide) rfl
  obtain ⟨t₂, h₂, l₂, -⟩ := l₁.intern_new (l₁.writes_array 31 rfl false) (by decide) rfl
  obtain ⟨t₃, h₃, l₃, -⟩ := l₂.intern_new
    (TypeTable.writes_object _ (.make "\\" "A[]") false) (by decide) rfl
  obtain ⟨w₁, hrun₁, rfl⟩ := evaluate_choiceOf_alone (w := fileWith t₀) hname hq
    (fun n _ => not_kept_fileWith t₀ n) h₁ (l₁.entry (i := 31) rfl) h₂ h₃
  -- the class is there first
  obtain ⟨t₁', h₁', l₁', -⟩ := l₀.intern_new (TypeTable.writes_object _ (.make "\\" "A[]") false)
    (by decide) rfl
  obtain ⟨t₂', h₂', l₂', -⟩ := l₁'.intern_new (TypeTable.writes_object _ (.make "\\" "A") false)
    (by decide) rfl
  obtain ⟨w₂, hrun₂, rfl⟩ := evaluateAfter_classAt (w := fileWith t₀) hname hq
    (fun n _ => not_kept_fileWith t₀ n) Nat.one_pos h₁' h₂' (l₂'.entry (i := 32) rfl)
    (l₂'.intern_found (l₂'.writes_array 32 rfl false) (by decide) rfl)
  refine ⟨_, _, w₁, w₂, hrun₁, hrun₂, rfl, rfl, fun hsame => ?_⟩
  -- the array would be the class
  obtain ⟨j, hj, hcorresponds⟩ := hsame.forth 32 (by decide)
  obtain rfl : j = 31 := List.mem_singleton.1 (show j ∈ [31] from hj)
  obtain ⟨ty, ty', hty, hty', -, hkind⟩ := hcorresponds.types
  cases (TypeTable.get?_eq (l₃.entry (i := 32) rfl)).symm.trans hty
  cases (TypeTable.get?_eq (l₂'.entry (i := 31) rfl)).symm.trans hty'
  exact hkind

end Example

end AnalysisM

end UnionInference
