import UnionInference.Proofs.Analysis.Modes
import UnionInference.Proofs.CodeBase.SelfContained
import UnionInference.Proofs.CodeBase.Supplements

/-!
What an evaluation leaves as it is. The variables of every scope keep their places and types; the
only ones that come about have nothing known of them, outside of functions and where the options
allow it. The code base keeps what was registered: only copies of members are added to classes, and
marks on the classes that have received theirs.
-/

namespace UnionInference

/-! ### Scopes -/

namespace Scope

variable {o : Options} {s s₁ s₂ : Scope}

/-- The variables keep their places and types. Others come about outside of functions only, where
the options allow it; nothing is known of them, and the language does not provide them. -/
structure Keeps (o : Options) (s s₁ : Scope) : Prop where
  isGlobal : s₁.isGlobal = s.isGlobal
  valid : s₁.variables.Valid
  grows : s.variables.GrowsBy (fun name u => u = .empty ∧ s.isProvided name = false ∧
    s.isGlobal = true ∧ o.ignoreUndeclaredVariablesInGlobalScope = true) s₁.variables

theorem Keeps.refl (o : Options) (h : s.variables.Valid) : s.Keeps o s := ⟨rfl, h, .refl _ _⟩

theorem Keeps.trans (h₁ : s.Keeps o s₁) (h₂ : s₁.Keeps o s₂) : s.Keeps o s₂ := by
  refine ⟨h₂.isGlobal.trans h₁.isGlobal, h₂.valid, h₁.grows.trans ?_⟩
  have hgrows := h₂.grows
  simpa only [isProvided, h₁.isGlobal] using hgrows

theorem Keeps.get?_eq_some {name : String} {u : UnionType} (h : s.Keeps o s₁)
    (hs : s.variables.Valid) (hu : s.get? name = some u) : s₁.get? name = some u :=
  h.grows.get?_eq_some hs h.valid hu

/-- What is not provided is no variable that comes with the language. -/
theorem isProvided_of_providedType {name : String} {t t₁ : TypeTable}
    (h : s.providedType name t = .ok (none, t₁)) : s.isProvided name = false := by
  have hsome : ∀ (work : TypeM TypeId), (do return some (UnionType.of (← work)) :
      TypeM (Option UnionType)) t ≠ .ok (none, t₁) := by
    intro work heq
    obtain ⟨id, t₂, -, hpure⟩ := TypeM.bind_eq_ok.1 heq
    cases hpure
  unfold providedType at h
  unfold isProvided
  split at h
  · exact absurd h (hsome _)
  · next hsuper =>
    rw [Bool.eq_false_iff.2 hsuper, Bool.false_or]
    split at h
    · next hlocal =>
      rw [Bool.not_eq_true'] at hlocal
      rw [hlocal, Bool.false_and]
    · split at h
      · cases h
      · exact absurd h (hsome _)
      · exact absurd h (hsome _)
      · next h₁ h₂ h₃ =>
        have hother : ["argc", "argv", "http_response_header"].contains name = false := by
          simpa using ⟨h₁, h₂, h₃⟩
        rw [hother, Bool.and_false]

end Scope

namespace World

variable {o : Options} {w w₁ w₂ : World}

/-- The code base has its registered elements and every scope its variables. -/
structure Keeps (o : Options) (w w₁ : World) : Prop where
  base : w.base.Supplements w₁.base
  scopes : ∀ (i : Nat) (s : Scope), w.scopes[i]? = some s → s.variables.Valid →
    ∃ s₁, w₁.scopes[i]? = some s₁ ∧ s.Keeps o s₁

theorem Keeps.of_supplements (h : w.base.Supplements w₁.base) (hs : w₁.scopes = w.scopes) :
    w.Keeps o w₁ :=
  ⟨h, fun i s hi hv => ⟨s, by rw [hs, hi], .refl o hv⟩⟩

theorem Keeps.trans (h₁ : w.Keeps o w₁) (h₂ : w₁.Keeps o w₂) : w.Keeps o w₂ := by
  refine ⟨h₁.base.trans h₂.base, fun i s hi hv => ?_⟩
  obtain ⟨s₁, hi₁, hs₁⟩ := h₁.scopes i s hi hv
  obtain ⟨s₂, hi₂, hs₂⟩ := h₂.scopes i s₁ hi₁ hs₁.valid
  exact ⟨s₂, hi₂, hs₁.trans hs₂⟩

/-- New scopes stand behind the ones that are there. -/
theorem Keeps.withScope (hb : w.base.Orderly) (c : Context) (s : Scope) :
    w.Keeps o (w.withScope c s).2 := by
  refine ⟨.refl hb, fun i s' hi hv => ⟨s', ?_, .refl o hv⟩⟩
  have hlt : i < w.scopes.size := (Array.getElem?_eq_some_iff.1 hi).1
  show (w.scopes.push s)[i]? = some s'
  rw [Array.getElem?_push_lt hlt, ← Array.getElem?_eq_getElem hlt, hi]

theorem Keeps.withVariables (hb : w.base.Orderly) (c : Context) (vars : List (String × UnionType)) :
    w.Keeps o (w.withVariables c vars).2 := by
  induction vars generalizing w c with
  | nil => exact .of_supplements (.refl hb) rfl
  | cons x vars ih =>
    have hfirst : w.Keeps o (w.withVariable c x.1 x.2).2 := .withScope hb c _
    exact hfirst.trans (ih (hfirst.base.orderly hb) _)

/-- An undefined variable comes about in the scope of a context. -/
theorem Keeps.define {c : Context} {name : String} (hb : w.base.Orderly)
    (hnone : (w.scopeOf c).get? name = none) (hprovided : (w.scopeOf c).isProvided name = false)
    (hglobal : (w.scopeOf c).isGlobal = true)
    (ho : o.ignoreUndeclaredVariablesInGlobalScope = true) :
    w.Keeps o (w.define c name .empty) := by
  refine ⟨.refl hb, fun i s hi hv => ?_⟩
  by_cases hc : c.scope = i
  · have hs : w.scopeOf c = s := by rw [scopeOf, hc, hi, Option.getD_some]
    rw [hs] at hnone hprovided hglobal
    have hfree : s.variables.contains name = false := by
      rw [hv.contains_eq_isSome]
      exact Option.isSome_eq_false_iff.2 (Option.isNone_iff_eq_none.2 hnone)
    refine ⟨s.add name .empty, ?_, rfl, hv.insert _ _, [(name, .empty)], ?_, ?_⟩
    · show (w.scopes.modify c.scope _)[i]? = _
      rw [Array.getElem?_modify, if_pos hc, hi, Option.map_some]
    · exact OrderedTable.toList_insert_of_not_contains hfree
    · rintro e (_ | ⟨_, ⟨⟩⟩)
      exact ⟨rfl, hprovided, hglobal, ho⟩
  · refine ⟨s, ?_, .refl o hv⟩
    show (w.scopes.modify c.scope _)[i]? = _
    rw [Array.getElem?_modify, if_neg hc, hi]

end World

/-! ### Work -/

namespace AnalysisM

variable {α β : Type}

/-- The work keeps scopes and code bases as far as evaluation does. -/
def Frames (p : AnalysisM α) : Prop :=
  ∀ s w r w', w.base.Orderly → p s w = .ok (r, w') → w.Keeps s.options w'

theorem Frames.bind {p : AnalysisM α} {f : α → AnalysisM β} (hp : Frames p)
    (hf : ∀ a, Frames (f a)) : Frames (p >>= f) := by
  intro s w r w' hb h
  rw [bind_apply] at h
  split at h
  · next a w₁ hw =>
    have hfirst := hp s w _ _ hb hw
    exact hfirst.trans (hf a s w₁ _ _ (hfirst.base.orderly hb) h)
  · next e w₁ hw =>
    cases h
    exact hp s w _ _ hb hw
  · cases h

theorem Frames.recover {p : AnalysisM α} {handle : Failure → AnalysisM α} (hp : Frames p)
    (hf : ∀ f, Frames (handle f)) : Frames (recover p handle) := by
  intro s w r w' hb h
  rw [recover_apply] at h
  split at h
  · next a w₁ hw =>
    cases h
    exact hp s w _ _ hb hw
  · next f w₁ hw =>
    have hfirst := hp s w _ _ hb hw
    exact hfirst.trans (hf f s w₁ _ _ (hfirst.base.orderly hb) h)
  · cases h

/-- Work that leaves the code base and the scopes alone. -/
theorem Frames.of_eq {p : AnalysisM α}
    (h : ∀ s w r w', p s w = .ok (r, w') → w'.base = w.base ∧ w'.scopes = w.scopes) :
    Frames p := by
  intro s w r w' hb hw
  obtain ⟨hbase, hscopes⟩ := h s w r w' hw
  exact .of_supplements (hbase.symm ▸ .refl hb) hscopes

theorem types_apply (work : TypeM α) (s : Setup) (w : World) :
    types work s w = (work w.types).map fun r => (.ok r.1, { w with types := r.2 }) := by
  show (work w.types >>= fun r => _) = _
  cases work w.types <;> rfl

theorem types_eq_ok {work : TypeM α} {s : Setup} {w w' : World} {r : Except Failure α} :
    types work s w = .ok (r, w') ↔
      ∃ a t, work w.types = .ok (a, t) ∧ r = .ok a ∧ w' = { w with types := t } := by
  rw [types_apply]
  cases work w.types with
  | error v => exact ⟨(fun h => nomatch h), fun ⟨_, _, h, _⟩ => nomatch h⟩
  | ok x =>
    constructor
    · rintro ⟨⟩
      exact ⟨x.1, x.2, rfl, rfl, rfl⟩
    · rintro ⟨_, _, ⟨⟩, rfl, rfl⟩
      rfl

theorem query_eq_ok {f : TypeTable → Checked α} {s : Setup} {w w' : World}
    {r : Except Failure α} :
    query f s w = .ok (r, w') ↔ ∃ a, f w.types = .ok a ∧ r = .ok a ∧ w' = w := by
  show (f w.types >>= fun x => _) = _ ↔ _
  cases f w.types with
  | error v => exact ⟨(fun h => nomatch h), fun ⟨_, h, _⟩ => nomatch h⟩
  | ok a =>
    constructor
    · rintro ⟨⟩
      exact ⟨a, rfl, rfl, rfl⟩
    · rintro ⟨_, ⟨⟩, rfl, rfl⟩
      rfl

theorem hierarchy_eq_ok {work : ExpandM CodeBase α} {s : Setup} {w w' : World}
    {r : Except Failure α} :
    hierarchy work s w = .ok (r, w') ↔ ∃ a t b, work (w.types, w.base) = .ok (a, t, b) ∧
      r = .ok a ∧ w' = { w with types := t, base := b } := by
  show (work (w.types, w.base) >>= fun x => _) = _ ↔ _
  cases work (w.types, w.base) with
  | error v => exact ⟨(fun h => nomatch h), fun ⟨_, _, _, h, _⟩ => nomatch h⟩
  | ok x =>
    obtain ⟨a, t, b⟩ := x
    constructor
    · rintro ⟨⟩
      exact ⟨a, t, b, rfl, rfl, rfl⟩
    · rintro ⟨_, _, _, ⟨⟩, rfl, rfl⟩
      rfl

theorem getClass_eq_ok {name : ClassName} {s : Setup} {w w' : World}
    {r : Except Failure ClassDecl} :
    getClass name s w = .ok (r, w') ↔ ∃ c b, CodeBase.getClass name w.base = .ok (c, b) ∧
      r = .ok c ∧ w' = { w with base := b } := by
  show (CodeBase.getClass name w.base >>= fun x => _) = _ ↔ _
  cases CodeBase.getClass name w.base with
  | error v => exact ⟨(fun h => nomatch h), fun ⟨_, _, h, _⟩ => nomatch h⟩
  | ok x =>
    obtain ⟨c, b⟩ := x
    constructor
    · rintro ⟨⟩
      exact ⟨c, b, rfl, rfl, rfl⟩
    · rintro ⟨_, _, ⟨⟩, rfl, rfl⟩
      rfl

/-- A variable is the object that a method belongs to, or else it is looked for in the scope. -/
theorem variableType?_eq (c : Context) (name : String) :
    (∃ owner, c.owner = some owner ∧ variableType? c name =
      types (TypeM.classType owner) >>= fun id => pure (some (UnionType.of id))) ∨
    variableType? c name = scopeOf c >>= fun s =>
      match s.get? name with
      | some u => pure (some u)
      | none => types (s.providedType name) := by
  unfold variableType?
  cases c.owner with
  | none => exact .inr rfl
  | some owner =>
    cases name == "this" && !c.isStatic with
    | false => exact .inr rfl
    | true => exact .inl ⟨owner, rfl, rfl⟩

/-- Undefined variables may come about outside of functions. -/
def lenient : Options := { ignoreUndeclaredVariablesInGlobalScope := true }

end AnalysisM

end UnionInference
