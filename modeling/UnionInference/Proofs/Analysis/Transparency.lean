import UnionInference.Proofs.Analysis.Echo
import UnionInference.Proofs.Analysis.Tracing

/-!
The store of results makes no difference. A result that is kept for a node is the one that
evaluating the node would give again, at any later time of the session and without a store; this is
an invariant of the store, whichever parts of an expression are evaluated and in whatever order. So
an expression has the same type whether or not parts of it were evaluated before.
-/

namespace UnionInference

theorem Child.Nests.of_contains {k : Nat} {root child : Child} (h : root.Nests k)
    (hc : root.Contains child) : child.Nests k := by
  induction hc with
  | self => exact h
  | child _ hp ih => exact ih.of_mem hp

/-! ### The store -/

namespace World

variable {c : Context} {o : Options} {w w₁ : World} {id m : Nat} {u v : UnionType}

/-- What a context can tell of the time of a session does not depend on its store. -/
theorem Tidy.withCache (h : w.Tidy c) (i : Nat) : w.Tidy { c with cache := i } :=
  ⟨h.fresh, h.base, h.scope⟩

theorem Later.withCache (h : w.Later c o w₁) (i : Nat) : w.Later { c with cache := i } o w₁ :=
  ⟨h.types, h.base, h.stock, h.scope⟩

theorem cacheOf_remember (h : c.cache < w.caches.size) :
    (w.remember c id u).cacheOf c = (w.cacheOf c).insert id u := by
  rw [cacheOf, remember, Array.getElem?_modify, if_pos rfl, cacheOf, Array.getElem?_eq_getElem h]
  rfl

/-- A context without a store keeps nothing. -/
theorem remember_of_size_le (h : w.caches.size ≤ c.cache) : w.remember c id u = w := by
  have hsame : (w.caches.modify c.cache fun m => m.insert id u) = w.caches := by
    ext i hi hi'
    · exact Array.size_modify
    · rw [Array.getElem_modify, if_neg (by omega)]
  rw [remember, hsame]

/-- What is kept is found again. -/
theorem cacheOf_remember_self (h : c.cache < w.caches.size) :
    ((w.remember c id u).cacheOf c)[id]? = some u := by
  rw [cacheOf_remember h, Std.HashMap.getElem?_insert_self]

theorem cacheOf_remember_of_ne (h : m ≠ id) :
    ((w.remember c id u).cacheOf c)[m]? = (w.cacheOf c)[m]? := by
  rcases Nat.lt_or_ge c.cache w.caches.size with hc | hc
  · rw [cacheOf_remember hc, Std.HashMap.getElem?_insert, if_neg (by simpa using h.symm)]
  · rw [remember_of_size_le hc]

theorem cacheOf_remember_eq_some (h : ((w.remember c id u).cacheOf c)[m]? = some v) :
    m = id ∧ v = u ∨ (w.cacheOf c)[m]? = some v := by
  rcases Nat.lt_or_ge c.cache w.caches.size with hc | hc
  · by_cases hm : m = id
    · rw [hm, cacheOf_remember_self hc] at h
      exact .inl ⟨hm, (Option.some.inj h).symm⟩
    · exact .inr (cacheOf_remember_of_ne hm ▸ h)
  · rw [remember_of_size_le hc] at h
    exact .inr h

theorem cacheOf_withFreshCache (w : World) (c : Context) :
    (w.withFreshCache c).2.cacheOf (w.withFreshCache c).1 = {} := by
  show ((w.caches.push {})[w.caches.size]?).getD {} = {}
  rw [Array.getElem?_push_size, Option.getD_some]

end World

namespace AnalysisM

open Evaluator

variable {root : Child} {c : Context} {s : Setup} {w w₁ w₂ : World} {n : Node} {u : UnionType}
  {k : Nat} {catching : Bool}

theorem evaluateWithin_apply (k : Nat) (catching : Bool) (c : Context) (n : Node) (s : Setup)
    (w : World) : evaluateWithin k catching c (.node n) s w =
      match (w.cacheOf c)[n.id]?, k with
      | some u, _ => .ok (.ok u, w)
      | none, 0 => .ok (.ok .empty, w)
      | none, k + 1 => evaluateNew ⟨c, catching, evaluateWithin k⟩ n s w := by
  rw [evaluateWithin_node, bind_apply, show (get : AnalysisM World) s w = .ok (.ok w, w) from rfl]
  dsimp only
  cases (w.cacheOf c)[n.id]? with
  | some u => rfl
  | none => cases k <;> rfl

theorem evaluateWithin_of_kept (h : (w.cacheOf c)[n.id]? = some u) :
    evaluateWithin k catching c (.node n) s w = .ok (.ok u, w) := by
  rw [evaluateWithin_apply, h]

theorem evaluateWithin_zero (h : (w.cacheOf c)[n.id]? = none) :
    evaluateWithin 0 catching c (.node n) s w = .ok (.ok .empty, w) := by
  rw [evaluateWithin_apply, h]

theorem evaluateWithin_of_not_kept (h : (w.cacheOf c)[n.id]? = none) :
    evaluateWithin (k + 1) catching c (.node n) s w =
      evaluateNew ⟨c, catching, evaluateWithin k⟩ n s w := by
  rw [evaluateWithin_apply, h]

/-- A node has the type that its rule gives; nothing is known of it where the rule fails. Either way
the result is kept. -/
theorem evaluateNew_of_node {run : Bool → Context → Child → AnalysisM UnionType}
    {r : Except Failure UnionType} (h : (reporting c run).node n s w = .ok (r, w₁)) :
    ∃ log, evaluateNew (reporting c run) n s w = .ok (.ok (r.toOption.getD .empty),
      ({ w₁ with issues := log } : World).remember c n.id (r.toOption.getD .empty)) := by
  rw [evaluateNew, recover_apply, bind_apply, h]
  cases r with
  | ok u => exact ⟨w₁.issues, rfl⟩
  | error f =>
    cases f with
    | issue i => exact ⟨w₁.issues.add i, rfl⟩
    | unanalyzable node reason => exact ⟨w₁.issues, rfl⟩

theorem evaluateNew_eq_ok {run : Bool → Context → Child → AnalysisM UnionType}
    {r : Except Failure UnionType} (h : evaluateNew (reporting c run) n s w = .ok (r, w₁)) :
    ∃ r' w' log, (reporting c run).node n s w = .ok (r', w') ∧ r = .ok (r'.toOption.getD .empty) ∧
      w₁ = ({ w' with issues := log } : World).remember c n.id (r'.toOption.getD .empty) := by
  cases hnode : (reporting c run).node n s w with
  | error v =>
    rw [evaluateNew, recover_apply, bind_apply, hnode] at h
    cases h
  | ok x =>
    obtain ⟨r', w'⟩ := x
    obtain ⟨log, hnew⟩ := evaluateNew_of_node hnode
    rw [hnew] at h
    cases h
    exact ⟨r', w', log, rfl, rfl, rfl⟩

/-! ### Results that are kept -/

/-- A node comes to what its rule comes to. -/
theorem ComesTo.node {i : Nat} {result : Option UnionType}
    (h : ComesTo c s ((reporting { c with cache := i } (evaluateWithin k)).node n) result w) :
    ComesTo c s (evaluateWithin (k + 1) true { c with cache := i } (.node n))
      (some (result.getD .empty)) w := by
  intro w₁ hw₁ hcaches hlater
  obtain ⟨r, w₂, hrun, rfl, hw₂, hcaches₂, hlater₂, he⟩ := h w₁ hw₁ hcaches hlater
  obtain ⟨log, hnew⟩ := evaluateNew_of_node hrun
  have hnone : (w₁.cacheOf { c with cache := i })[n.id]? = none := by
    rw [World.cacheOf, hcaches]
    exact Std.HashMap.getElem?_empty
  -- the result is not kept, as there is no store
  have hsame : ({ w₂ with issues := log } : World).remember { c with cache := i } n.id
      (r.toOption.getD .empty) = { w₂ with issues := log } := by
    simp [World.remember, hcaches₂]
  rw [hsame] at hnew
  exact ⟨_, _, (evaluateWithin_of_not_kept hnone).trans hnew, rfl, hw₂.withLog log w₂.caches,
    hcaches₂, hlater₂.withLog log w₂.caches, he⟩

/-- A node that is no expression comes to nothing. -/
theorem comesTo_of_isPart (hn : n.kind.isPart = true) (k i : Nat) (w : World) :
    ComesTo c s (evaluateWithin k true { c with cache := i } (.node n)) (some .empty) w := by
  cases k with
  | zero =>
    intro w₁ hw₁ hcaches hlater
    have hnone : (w₁.cacheOf { c with cache := i })[n.id]? = none := by
      rw [World.cacheOf, hcaches]
      exact Std.HashMap.getElem?_empty
    exact ⟨_, w₁, evaluateWithin_zero hnone, rfl, hw₁, hcaches, .refl hw₁, rfl⟩
  | succ k =>
    have hrule : ComesTo c s ((reporting { c with cache := i } (evaluateWithin k)).node n) none w :=
      fun w₁ hw₁ hcaches hlater => by
        rw [node_of_isPart _ hn]
        exact ⟨_, w₁, rfl, rfl, hw₁, hcaches, .refl hw₁, rfl⟩
    exact hrule.node

/-- A store stays fair when a node is added with what it comes to. -/
theorem Fair.remember (hroot : root.Separable) (h : Fair root c s w) (hn : root.Contains (.node n))
    (log : IssueLog) (hu : ∀ k, (Child.node n).Nests k → ∀ i,
      ComesTo c s (evaluateWithin k true { c with cache := i } (.node n)) (some u) w) :
    Fair root c s (({ w with issues := log } : World).remember c n.id u) := by
  have hlater : w.Later c s.options (({ w with issues := log } : World).remember c n.id u) :=
    (World.Later.refl h.tidy).withLog log _
  refine ⟨h.tidy.withLog log _, fun m v hm hv k hk i => ?_⟩
  rcases World.cacheOf_remember_eq_some hv with ⟨hid, rfl⟩ | hkept
  · obtain rfl := hroot.ids m n hm hn hid
    exact (hu k hk i).later hlater
  · exact (h.kept m v hm hkept k hk i).later hlater

/-- Nothing is kept. -/
theorem fair_of_empty (hw : w.Tidy c) (hempty : w.cacheOf c = {}) : Fair root c s w where
  tidy := hw
  kept n u _ hu := by
    rw [hempty, Std.HashMap.getElem?_empty] at hu
    cases hu

/-! ### Expressions -/

theorem evaluateWithin_literal {child : Child} (h : child.node? = none) :
    evaluateWithin k catching c child = literalType ((child.scalar?).getD .null) := by
  cases child with
  | node n => cases h
  | _ => exact evaluateWithin.eq_def k catching c _

/-- Where expressions nest at most so deeply, they come again without a store: with any sufficient
number of levels, and in a context with any store. -/
def Separated (root : Child) (c : Context) (s : Setup) (k : Nat) : Prop :=
  ∀ child, root.Contains child → child.Nests k → ∀ k', child.Nests k' → ∀ i,
    Echoes root c s (evaluateWithin k true c child)
      (evaluateWithin k' true { c with cache := i } child)

theorem separated_zero : Separated root c s 0 := by
  intro child hchild hk k' hk' i
  cases child with
  | node n =>
    have hrun : ∀ {w w₁ : World} {r}, evaluateWithin 0 true c (.node n) s w = .ok (r, w₁) →
        w₁ = w ∧ r = .ok (((w.cacheOf c)[n.id]?).getD .empty) := by
      intro w w₁ r hrun
      cases hkept : (w.cacheOf c)[n.id]? with
      | some u =>
        rw [evaluateWithin_of_kept hkept] at hrun
        cases hrun
        exact ⟨rfl, rfl⟩
      | none =>
        rw [evaluateWithin_zero hkept] at hrun
        cases hrun
        exact ⟨rfl, rfl⟩
    constructor
    · intro w w₁ r h
      obtain ⟨rfl, -⟩ := hrun h
      exact ⟨.refl _, rfl⟩
    · intro w w₁ r hw h hn
      obtain ⟨rfl, rfl⟩ := hrun h
      refine ⟨hw, .refl hw.tidy, ?_⟩
      cases hkept : (w₁.cacheOf c)[n.id]? with
      | some u => exact hw.kept n u hchild hkept k' hk' i
      | none => exact comesTo_of_isPart hk.isPart k' i w₁
  | _ =>
    rw [evaluateWithin_literal rfl, evaluateWithin_literal rfl]
    exact .refl (repeats_literalType _)

section Levels

variable {r : Except Failure UnionType} (hroot : root.Separable) (hnarrow : s.narrowing = {})
include hroot hnarrow

/-- The rule for a node, one level above. -/
theorem Separated.echoes_node (h : Separated root c s k) (hn : root.Contains (.node n))
    (hk : (Child.node n).Nests (k + 1)) (hexpr : n.kind.isPart = false) {k' : Nat}
    (hk' : (Child.node n).Nests (k' + 1)) (i : Nat) :
    Echoes root c s ((reporting c (evaluateWithin k)).node n)
      ((reporting { c with cache := i } (evaluateWithin k')).node n) := by
  let inside := fun child : Child => root.Contains child ∧ child.Nests k ∧ child.Nests k'
  have hrun : Echoing root c s i inside (evaluateWithin k) (evaluateWithin k') :=
    fun child hc => h child hc.1 hc.2.1 k' hc.2.2 i
  have hclosed : Child.Closed inside :=
    ⟨fun m hm p hp => ⟨hm.1.child hp, hm.2.1.of_mem hp, hm.2.2.of_mem hp⟩⟩
  have hchildren : ∀ p ∈ n.children, inside p.2 := fun p hp =>
    ⟨hn.child hp, hk.inside hexpr hp, hk'.inside hexpr hp⟩
  exact Evaluator.echoes_node hrun hclosed hchildren hnarrow (hroot.arrow n hn) (hroot.coalesce n hn)

theorem Separated.keeps_node (h : Separated root c s k) (hn : root.Contains (.node n))
    (hk : (Child.node n).Nests (k + 1))
    (hrun : (reporting c (evaluateWithin k)).node n s w = .ok (r, w₁)) :
    w.types.Keeps w₁.types ∧ w₁.caches.size = w.caches.size := by
  cases hpart : n.kind.isPart with
  | true =>
    rw [node_of_isPart _ hpart] at hrun
    cases hrun
    exact ⟨.refl _, rfl⟩
  | false => exact (h.echoes_node hroot hnarrow hn hk hpart hk 0).keeps hrun

/-- The result of the rule is what the node comes to. -/
theorem Separated.echo_node (h : Separated root c s k) (hn : root.Contains (.node n))
    (hk : (Child.node n).Nests (k + 1)) (hw : Fair root c s w)
    (hrun : (reporting c (evaluateWithin k)).node n s w = .ok (r, w₁))
    (hnamed : w₁.types.WellNamed) :
    Fair root c s w₁ ∧ w.Later c s.options w₁ ∧ ∀ k', (Child.node n).Nests k' → ∀ i,
      ComesTo c s (evaluateWithin k' true { c with cache := i } (.node n))
        (some (r.toOption.getD .empty)) w₁ := by
  cases hpart : n.kind.isPart with
  | true =>
    rw [node_of_isPart _ hpart] at hrun
    cases hrun
    exact ⟨hw, .refl hw.tidy, fun k' _ i => comesTo_of_isPart hpart k' i _⟩
  | false =>
    obtain ⟨hw₁, hlater, -⟩ :=
      (h.echoes_node hroot hnarrow hn hk hpart hk 0).echo hw hrun hnamed
    refine ⟨hw₁, hlater, fun k' hk' i => ?_⟩
    cases k' with
    | zero =>
      rw [hk'.isPart] at hpart
      cases hpart
    | succ k' =>
      obtain ⟨-, -, hcomes⟩ :=
        (h.echoes_node hroot hnarrow hn hk hpart hk' i).echo hw hrun hnamed
      exact hcomes.node

theorem Separated.succ (h : Separated root c s k) : Separated root c s (k + 1) := by
  intro child hchild hk k' hk' i
  cases child with
  | node n =>
    constructor
    · intro w w₁ r hrun
      cases hkept : (w.cacheOf c)[n.id]? with
      | some u =>
        rw [evaluateWithin_of_kept hkept] at hrun
        cases hrun
        exact ⟨.refl _, rfl⟩
      | none =>
        rw [evaluateWithin_of_not_kept hkept] at hrun
        obtain ⟨r', w', log, hnode, -, rfl⟩ := evaluateNew_eq_ok hrun
        obtain ⟨htypes, hsize⟩ := h.keeps_node hroot hnarrow hchild hk hnode
        exact ⟨htypes, (Array.size_modify ..).trans hsize⟩
    · intro w w₁ r hw hrun hnamed
      cases hkept : (w.cacheOf c)[n.id]? with
      | some u =>
        rw [evaluateWithin_of_kept hkept] at hrun
        cases hrun
        exact ⟨hw, .refl hw.tidy, hw.kept n u hchild hkept k' hk' i⟩
      | none =>
        rw [evaluateWithin_of_not_kept hkept] at hrun
        obtain ⟨r', w', log, hnode, rfl, rfl⟩ := evaluateNew_eq_ok hrun
        obtain ⟨hw', hlater, hcomes⟩ := h.echo_node hroot hnarrow hchild hk hw hnode hnamed
        have hkeep := (World.Later.refl (o := s.options) hw'.tidy).withLog log
          (w'.caches.modify c.cache fun m => m.insert n.id (r'.toOption.getD .empty))
        exact ⟨hw'.remember hroot hchild log hcomes, hlater.trans hkeep,
          (hcomes k' hk' i).later hkeep⟩
  | _ =>
    rw [evaluateWithin_literal rfl, evaluateWithin_literal rfl]
    exact .refl (repeats_literalType _)

theorem separated (k : Nat) : Separated root c s k := by
  induction k with
  | zero => exact separated_zero
  | succ k ih => exact ih.succ hroot hnarrow

end Levels

/-! ### Passes over an expression -/

/-- Evaluates some expressions and then the root, all in one context. -/
def evaluateAfter (c : Context) : List Child → Child → AnalysisM UnionType
  | [], root => evaluate c root
  | part :: parts, root => do
    let _ ← evaluate c part
    evaluateAfter c parts root

/-- An evaluation never fails. -/
theorem evaluate_eq_ok {child : Child} {r : Except Failure UnionType}
    (h : evaluate c child s w = .ok (r, w₁)) :
    ∃ u, r = .ok u ∧ typeOf true c child s w = .ok (.ok u, w₁) := by
  rw [evaluate, recover_apply] at h
  split at h
  · next u w' hrun =>
    cases h
    exact ⟨u, rfl, hrun⟩
  · next f w' hrun => cases (evaluateWithin_eq_error hrun).1
  · cases h

theorem evaluate_of_typeOf {child : Child} (h : typeOf true c child s w = .ok (.ok u, w₁)) :
    evaluate c child s w = .ok (.ok u, w₁) := by
  rw [evaluate, recover_apply, h]

/-- The type of a literal is found again where it was found. -/
theorem literalType_again {x : Scalar} (hw : w.Tidy c)
    (h : literalType x s w = .ok (.ok u, w₁)) (hnamed : w₁.types.WellNamed) :
    literalType x s w₁ = .ok (.ok u, w₁) := by
  have hrecurs := UnionType.recurs_ofScalar x s.options
  change types (UnionType.ofScalar x s.options) s w = _ at h
  obtain ⟨_, t, hrun, hu, rfl⟩ := types_eq_ok.1 h
  cases hu
  show types (UnionType.ofScalar x s.options) s { w with types := t } = _
  exact types_eq_ok.2 ⟨u, t, hrecurs.again hw.canonical hrun hnamed (.refl t), rfl, rfl⟩

/-- A pass over the root leads from one world to the other and comes to the type. Later in the
session the root has the type without a store too, and it has it again at once, when nothing else
happens. -/
structure PassesTo (root : Child) (c : Context) (s : Setup) (u : UnionType) (w w₁ : World) :
    Prop where
  keeps : w.types.Keeps w₁.types
  tidy : w₁.Tidy c
  later : w.Later c s.options w₁
  stores : w₁.caches.size = w.caches.size
  comes : ∀ i, ComesTo c s (evaluate { c with cache := i } root) (some u) w₁
  again : c.cache < w.caches.size → evaluate c root s w₁ = .ok (.ok u, w₁)

section Passes

variable {r : Except Failure UnionType} {parts : List Child} (hroot : root.Separable)
  (hnarrow : s.narrowing = {})
include hroot hnarrow

theorem echoes_evaluate {child : Child} (hc : root.Contains child) (i : Nat) :
    Echoes root c s (evaluate c child) (evaluate { c with cache := i } child) :=
  have hnests := hroot.nests.of_contains hc
  .recover (a := .empty) (separated hroot hnarrow _ child hc hnests _ hnests i)
    fun _ w => ⟨w.issues, rfl⟩

theorem evaluate_again (hw : w.Tidy c) (hstore : c.cache < w.caches.size)
    (h : evaluate c root s w = .ok (.ok u, w₁)) (hnamed : w₁.types.WellNamed) :
    evaluate c root s w₁ = .ok (.ok u, w₁) := by
  obtain ⟨_, ⟨⟩, hrun⟩ := evaluate_eq_ok h
  refine evaluate_of_typeOf ?_
  cases root with
  | node n =>
    refine evaluateWithin_of_kept ?_
    cases hkept : (w.cacheOf c)[n.id]? with
    | some v =>
      rw [typeOf, evaluateWithin_of_kept hkept] at hrun
      cases hrun
      exact hkept
    | none =>
      rw [typeOf_of_not_kept hkept] at hrun
      obtain ⟨r', w', log, hnode, heq, rfl⟩ := evaluateNew_eq_ok hrun
      cases heq
      obtain ⟨-, hsize⟩ :=
        (separated hroot hnarrow 499).keeps_node hroot hnarrow .self hroot.nests hnode
      exact World.cacheOf_remember_self (hsize ▸ hstore)
  | _ =>
    rw [typeOf, evaluateWithin_literal rfl] at hrun ⊢
    exact literalType_again hw hrun hnamed

theorem passesTo_evaluate (hw : Fair root c s w) (hrun : evaluate c root s w = .ok (r, w₁))
    (hnamed : w₁.types.WellNamed) : ∃ u, r = .ok u ∧ PassesTo root c s u w w₁ := by
  obtain ⟨u, rfl, -⟩ := evaluate_eq_ok hrun
  have hechoes := fun i => echoes_evaluate (c := c) hroot hnarrow .self i
  obtain ⟨htypes, hsize⟩ := (hechoes 0).keeps hrun
  obtain ⟨hw₁, hlater, -⟩ := (hechoes 0).echo hw hrun hnamed
  refine ⟨u, rfl, htypes, hw₁.tidy, hlater, hsize, fun i => ?_, fun hstore => ?_⟩
  · exact ((hechoes i).echo hw hrun hnamed).2.2
  · exact evaluate_again hroot hnarrow hw.tidy hstore hrun hnamed

theorem keeps_evaluateAfter (hparts : ∀ part ∈ parts, root.Contains part)
    (hrun : evaluateAfter c parts root s w = .ok (r, w₁)) : w.types.Keeps w₁.types := by
  induction parts generalizing w with
  | nil => exact ((echoes_evaluate hroot hnarrow .self 0).keeps hrun).1
  | cons part parts ih =>
    have hrest : ∀ p ∈ parts, root.Contains p := fun p hp => hparts p (List.mem_cons_of_mem _ hp)
    have hpart := echoes_evaluate (c := c) hroot hnarrow (hparts part List.mem_cons_self) 0
    rw [evaluateAfter, bind_apply] at hrun
    split at hrun
    · next u w' hfirst => exact (hpart.keeps hfirst).1.trans (ih hrest hrun)
    · next f w' hfirst =>
      cases hrun
      exact (hpart.keeps hfirst).1
    · cases hrun

/-- Whatever parts are evaluated first, the pass comes to a type of the root. -/
theorem passesTo_evaluateAfter (hparts : ∀ part ∈ parts, root.Contains part)
    (hw : Fair root c s w) (hrun : evaluateAfter c parts root s w = .ok (r, w₁))
    (hnamed : w₁.types.WellNamed) : ∃ u, r = .ok u ∧ PassesTo root c s u w w₁ := by
  induction parts generalizing w with
  | nil => exact passesTo_evaluate hroot hnarrow hw hrun hnamed
  | cons part parts ih =>
    have hrest : ∀ p ∈ parts, root.Contains p := fun p hp => hparts p (List.mem_cons_of_mem _ hp)
    have hpart := echoes_evaluate (c := c) hroot hnarrow (hparts part List.mem_cons_self) 0
    rw [evaluateAfter, bind_apply] at hrun
    split at hrun
    · next v w' hfirst =>
      have hnamed' := hnamed.of_keeps (keeps_evaluateAfter hroot hnarrow hrest hrun)
      obtain ⟨hw', hlater, -⟩ := hpart.echo hw hfirst hnamed'
      obtain ⟨htypes, hsize⟩ := hpart.keeps hfirst
      obtain ⟨u, rfl, hpass⟩ := ih hrest hw' hrun
      exact ⟨u, rfl, htypes.trans hpass.keeps, hpass.tidy, hlater.trans hpass.later,
        hpass.stores.trans hsize, hpass.comes, fun hstore => hpass.again (hsize ▸ hstore)⟩
    · next f w' hfirst =>
      obtain ⟨v, hv, -⟩ := evaluate_eq_ok hfirst
      cases hv
    · cases hrun

end Passes

/-- Later in the session, and in a context with another store, a pass comes to the same type. -/
theorem PassesTo.unique {i : Nat} {v : UnionType} {w' : World} (h : PassesTo root c s u w w₁)
    (h' : PassesTo root { c with cache := i } s v w' w₂) (hlater : w₁.Later c s.options w') :
    u = v := by
  -- both types are those of an evaluation without a store after the second pass
  have htidy := h'.tidy.withLog w₂.issues #[]
  have hsame := (World.Later.refl (o := s.options) h'.tidy).withLog w₂.issues #[]
  obtain ⟨r, w₃, hrun, hu, -⟩ := h.comes c.cache _ (htidy.withCache c.cache) rfl
    (hlater.trans ((h'.later.trans hsame).withCache c.cache))
  obtain ⟨r', w₄, hrun', hv, -⟩ := h'.comes c.cache _ htidy rfl hsame
  cases hrun.symm.trans hrun'
  exact Option.some.inj (hu.symm.trans hv)

/-- A store of its own is empty. -/
theorem fair_withFreshCache (hw : w.Tidy c) :
    Fair root (w.withFreshCache c).1 s (w.withFreshCache c).2 :=
  fair_of_empty ((hw.withLog w.issues (w.caches.push {})).withCache w.caches.size)
    (w.cacheOf_withFreshCache c)

/-- Two passes over an expression in one session come to the same type, whatever parts of it each of
them evaluates first: each starts with an empty store, and the second one later than the first one.
Where the expression is evaluated once more it has the type again, and nothing else happens. Names
must tell the types apart that there are at the end. -/
theorem evaluate_transparent_later {root : Child} (hroot : root.Separable) {s : Setup}
    (hnarrow : s.narrowing = {}) {parts parts' : List Child}
    (hparts : ∀ part ∈ parts, root.Contains part) (hparts' : ∀ part ∈ parts', root.Contains part)
    {c c' : Context} {w w₁ w' w₂ : World} {r₁ r₂ : Except Failure UnionType} (hw : w.Tidy c)
    (hempty : w.caches[c.cache]? = some {}) (h₁ : evaluateAfter c parts root s w = .ok (r₁, w₁))
    (hfresh : w₁.withFreshCache c = (c', w'))
    (h₂ : evaluateAfter c' parts' root s w' = .ok (r₂, w₂)) (hnamed : w₂.types.WellNamed) :
    ∃ u, r₁ = .ok u ∧ evaluate c root s w₁ = .ok (.ok u, w₁) ∧
      r₂ = .ok u ∧ evaluate c' root s w₂ = .ok (.ok u, w₂) := by
  have hstore : c.cache < w.caches.size := (Array.getElem?_eq_some_iff.1 hempty).1
  have hstore' : c'.cache < w'.caches.size := by
    cases hfresh
    exact (Array.size_push _).symm ▸ Nat.lt_succ_self _
  have hkeeps : w'.types.Keeps w₂.types := keeps_evaluateAfter hroot hnarrow hparts' h₂
  have hnamed₁ : w₁.types.WellNamed := by
    cases hfresh
    exact hnamed.of_keeps hkeeps
  have hfair : Fair root c s w := fair_of_empty hw (by rw [World.cacheOf, hempty]; rfl)
  obtain ⟨u, rfl, hpass⟩ :=
    passesTo_evaluateAfter hroot hnarrow hparts hfair h₁ hnamed₁
  have hfair' : Fair root c' s w' := by
    have hfresh' : Fair root (w₁.withFreshCache c).1 s (w₁.withFreshCache c).2 :=
      fair_withFreshCache hpass.tidy
    rwa [hfresh] at hfresh'
  obtain ⟨v, rfl, hpass'⟩ := passesTo_evaluateAfter hroot hnarrow hparts' hfair' h₂ hnamed
  have heq : u = v := by
    cases hfresh
    exact hpass.unique hpass' ((World.Later.refl hpass.tidy).withLog w₁.issues _)
  subst heq
  exact ⟨u, rfl, hpass.again hstore, rfl, hpass'.again hstore'⟩

end AnalysisM

end UnionInference
