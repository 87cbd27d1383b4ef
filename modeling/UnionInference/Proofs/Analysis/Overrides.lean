import UnionInference.Analysis.Declaration
import UnionInference.Proofs.Analysis.Indexing
import Mathlib.Data.List.DropRight

/-!
Overridden methods. Where the check of an override reports no mismatch of the parameters, the method
passes arguments by reference where the method it overrides does, and has a place for as many of them.
The check counts the parameters that must be filled, not where they stand; so the method accepts every
call of the other one exactly when it needs no more arguments, and it needs no more if the parameters
that must be filled come first.
-/

namespace UnionInference

/-! ### Calls that a signature accepts -/

namespace Signature

variable {s s' : Signature} {p : Parameter} {i j n : Nat}

/-- Whether the last parameter takes all arguments that are left. -/
def takesRest (s : Signature) : Bool := s.params.getLast?.any fun p => p.marks.variadic

/-- A call with this many arguments leaves out optional parameters alone, and has a parameter for
every argument. -/
structure Accepts (s : Signature) (n : Nat) : Prop where
  filled : ∀ p ∈ s.params.drop n, p.isOptional = true
  placed : n ≤ s.params.length ∨ s.takesRest = true

/-- Only the last parameter may take several arguments. -/
def RestLast (s : Signature) : Prop := ∀ p ∈ s.params.dropLast, p.marks.variadic = false

/-- Parameters that must be filled come before those that may be left out. -/
def RequiredFirst (s : Signature) : Prop :=
  s.params.Pairwise fun p q => p.isOptional = true → q.isOptional = true

/-- The least number of arguments that fills every parameter that must be filled. -/
def neededCount (s : Signature) : Nat := (s.params.rdropWhile Parameter.isOptional).length

/-! ### How many arguments are needed -/

theorem neededCount_le_iff : s.neededCount ≤ n ↔ ∀ p ∈ s.params.drop n, p.isOptional = true := by
  unfold neededCount
  induction s.params using List.reverseRecOn with
  | nil => simp
  | append_singleton ps p ih =>
    cases hp : p.isOptional with
    | true =>
      rw [List.rdropWhile_concat_pos _ _ _ hp, ih, List.drop_append]
      refine ⟨fun h q hq => (List.mem_append.1 hq).elim (h q) fun hq => ?_,
        fun h q hq => h q (List.mem_append_left _ hq)⟩
      exact List.mem_singleton.1 (List.mem_of_mem_drop hq) ▸ hp
    | false =>
      rw [List.rdropWhile_concat_neg _ _ _ (by simp [hp])]
      refine ⟨fun h q hq => ?_, fun h => ?_⟩
      · rw [List.drop_eq_nil_of_le h] at hq
        cases hq
      · by_contra hlt
        have hlen : n ≤ ps.length := by
          rw [List.length_append, List.length_singleton] at hlt
          omega
        have hmem : p ∈ (ps ++ [p]).drop n := by
          rw [List.drop_append_of_le_length hlen]
          exact List.mem_append_right _ (List.mem_singleton_self p)
        exact absurd (h p hmem) (by simp [hp])

theorem requiredCount_le_neededCount (s : Signature) : s.requiredCount ≤ s.neededCount := by
  unfold requiredCount neededCount
  induction s.params using List.reverseRecOn with
  | nil => simp
  | append_singleton ps p ih =>
    cases hp : p.isOptional with
    | true => simpa [List.rdropWhile_concat_pos _ _ _ hp, hp] using ih
    | false =>
      rw [List.rdropWhile_concat_neg _ _ _ (by simp [hp])]
      exact List.length_filter_le _ _

/-- Counting the parameters that must be filled is enough where they come first. -/
theorem RequiredFirst.neededCount_eq (h : s.RequiredFirst) : s.neededCount = s.requiredCount := by
  unfold RequiredFirst at h
  unfold requiredCount neededCount
  generalize s.params = ps at h ⊢
  induction ps using List.reverseRecOn with
  | nil => simp
  | append_singleton ps p ih =>
    rw [List.pairwise_append] at h
    cases hp : p.isOptional with
    | true => simpa [List.rdropWhile_concat_pos _ _ _ hp, hp] using ih h.1
    | false =>
      have hall : ∀ q ∈ ps ++ [p], (!q.isOptional) = true := by
        intro q hq
        rcases List.mem_append.1 hq with hq | hq
        · by_contra hoptional
          have := h.2.2 q hq p (List.mem_singleton_self p) (by simpa using hoptional)
          exact absurd this (by simp [hp])
        · rw [List.mem_singleton.1 hq, hp]
          rfl
      rw [List.rdropWhile_concat_neg _ _ _ (by simp [hp]), List.filter_eq_self.2 hall]

theorem accepts_iff : s.Accepts n ↔
    s.neededCount ≤ n ∧ (n ≤ s.params.length ∨ s.takesRest = true) := by
  rw [neededCount_le_iff]
  exact ⟨fun h => ⟨h.filled, h.placed⟩, fun h => ⟨h.1, h.2⟩⟩

/-- The least number of arguments is accepted. -/
theorem accepts_neededCount (s : Signature) : s.Accepts s.neededCount :=
  accepts_iff.2 ⟨le_rfl, .inl (List.rdropWhile_prefix _ _).length_le⟩

/-! ### Parameters that receive arguments -/

theorem takesRest_iff :
    s.takesRest = true ↔ ∃ p, s.params.getLast? = some p ∧ p.marks.variadic = true :=
  Option.any_eq_true _ _

theorem paramFor?_of_lt (h : i < s.params.length) : s.paramFor? i = some s.params[i] := by
  rw [paramFor?, List.getElem?_eq_getElem h]

theorem paramFor?_of_le (h : s.params.length ≤ i) :
    s.paramFor? i = s.params.getLast?.filter fun p => p.marks.variadic := by
  rw [paramFor?, List.getElem?_eq_none h]

/-- What takes several arguments is the last parameter. -/
theorem RestLast.getLast? (h : s.RestLast) (hp : s.paramFor? i = some p)
    (hv : p.marks.variadic = true) : s.params.getLast? = some p ∧ s.params.length ≤ i + 1 := by
  rcases Nat.lt_or_ge i s.params.length with hi | hi
  · rw [paramFor?_of_lt hi, Option.some.injEq] at hp
    have hlast : s.params.length ≤ i + 1 := by
      by_contra hlt
      have hi' : i < s.params.dropLast.length := by
        rw [List.length_dropLast]
        omega
      have hmem : p ∈ s.params.dropLast := by
        rw [← hp, ← List.getElem_dropLast hi']
        exact List.getElem_mem hi'
      exact absurd (h p hmem) (by simp [hv])
    refine ⟨?_, hlast⟩
    rw [List.getLast?_eq_getElem?, show s.params.length - 1 = i by omega,
      List.getElem?_eq_getElem hi, hp]
  · rw [paramFor?_of_le hi] at hp
    exact ⟨(Option.filter_eq_some_iff.1 hp).1, by omega⟩

/-- A parameter that takes several arguments receives all that follow. -/
theorem RestLast.paramFor?_of_le (h : s.RestLast) (hp : s.paramFor? i = some p)
    (hv : p.marks.variadic = true) (hij : i ≤ j) : s.paramFor? j = some p := by
  obtain ⟨hlast, hlength⟩ := h.getLast? hp hv
  rcases hij.eq_or_lt with rfl | hlt
  · exact hp
  · rw [Signature.paramFor?_of_le (by omega), hlast]
    exact Option.filter_eq_some_iff.2 ⟨rfl, hv⟩

/-- An accepted call has a parameter for every argument: the one in its place, or the last one, which
takes several. -/
theorem Accepts.exists_paramFor? (h : s.Accepts n) (hi : i < n) :
    ∃ j p, j ≤ i ∧ s.params[j]? = some p ∧ s.paramFor? i = some p ∧
      (j = i ∨ p.marks.variadic = true) := by
  rcases Nat.lt_or_ge i s.params.length with hlt | hge
  · exact ⟨i, _, le_rfl, List.getElem?_eq_getElem hlt, paramFor?_of_lt hlt, .inl rfl⟩
  · obtain ⟨p, hlast, hv⟩ := takesRest_iff.1 (h.placed.resolve_left (by omega))
    refine ⟨s.params.length - 1, p, by omega, ?_, ?_, .inr hv⟩
    · rw [← List.getLast?_eq_getElem?, hlast]
    · rw [paramFor?_of_le hge, hlast]
      exact Option.filter_eq_some_iff.2 ⟨rfl, hv⟩

/-! ### Standing in for another signature -/

/-- What the check of an override asks of the parameters. -/
structure StandsFor (s s' : Signature) : Prop where
  length : s'.params.length ≤ s.params.length ∨ s.takesRest = true
  required : s.requiredCount ≤ s'.requiredCount
  params : ∀ i p', s'.params[i]? = some p' → ∃ p, s.paramFor? i = some p ∧
    p.marks.byRef = p'.marks.byRef ∧ (p'.marks.variadic = true → p.marks.variadic = true)

namespace StandsFor

variable (h : s.StandsFor s')
include h

/-- There is a place for every argument that the other signature has a place for. -/
theorem placed (hs : s.RestLast) (hn : s'.Accepts n) :
    n ≤ s.params.length ∨ s.takesRest = true := by
  rcases hn.placed with hn | hrest
  · exact h.length.imp_left hn.trans
  · obtain ⟨p', hlast', hv'⟩ := takesRest_iff.1 hrest
    rw [List.getLast?_eq_getElem?] at hlast'
    obtain ⟨p, hp, -, hvariadic⟩ := h.params _ p' hlast'
    exact .inr (takesRest_iff.2 ⟨p, (hs.getLast? hp (hvariadic hv')).1, hvariadic hv'⟩)

/-- A call of the other signature is accepted if it fills what must be filled. -/
theorem accepts_iff (hs : s.RestLast) (hn : s'.Accepts n) : s.Accepts n ↔ s.neededCount ≤ n :=
  Signature.accepts_iff.trans (and_iff_left (h.placed hs hn))

/-- Every call of the other signature is accepted exactly if no more arguments are needed. -/
theorem forall_accepts_iff (hs : s.RestLast) :
    (∀ n, s'.Accepts n → s.Accepts n) ↔ s.neededCount ≤ s'.neededCount := by
  refine ⟨fun hall => ?_, fun hle n hn => ?_⟩
  · exact (Signature.accepts_iff.1 (hall _ s'.accepts_neededCount)).1
  · exact (h.accepts_iff hs hn).2 (hle.trans (Signature.accepts_iff.1 hn).1)

theorem neededCount_le (hfirst : s.RequiredFirst) : s.neededCount ≤ s'.neededCount :=
  hfirst.neededCount_eq ▸ h.required.trans s'.requiredCount_le_neededCount

/-- The parameters that receive an argument agree on passing it by reference. -/
theorem byRef_eq (hs : s.RestLast) (hn : s'.Accepts n) {i : Nat} (hi : i < n) :
    ∃ p p', s.paramFor? i = some p ∧ s'.paramFor? i = some p' ∧
      p.marks.byRef = p'.marks.byRef := by
  obtain ⟨j, p', hji, hj, hp', hplace⟩ := hn.exists_paramFor? hi
  obtain ⟨p, hp, hbyRef, hvariadic⟩ := h.params j p' hj
  rcases hplace with rfl | hv'
  · exact ⟨p, p', hp, hp', hbyRef⟩
  · exact ⟨p, p', hs.paramFor?_of_le hp (hvariadic hv') hji, hp', hbyRef⟩

end StandsFor

end Signature

/-! ### The check -/

/-- The issue says that the parameters or the result of a method do not fit those of the method that
it overrides, which may be a built-in one. -/
def IssueKind.IsParamMismatch (k : IssueKind) : Prop :=
  k = .paramSignatureMismatch ∨ k = .paramSignatureMismatchInternal

namespace AnalysisM

variable {α β : Type} {m m' : Method} {s : Setup} {w w' : World}

/-- Work that reports nothing. -/
def Silent (p : AnalysisM α) : Prop :=
  ∀ s w r w', p s w = .ok (r, w') → w'.issues = w.issues

namespace Silent

theorem pure (a : α) : Silent (pure a) := by
  rintro s w r w' ⟨⟩
  rfl

theorem bind {p : AnalysisM α} {f : α → AnalysisM β} (hp : Silent p) (hf : ∀ a, Silent (f a)) :
    Silent (p >>= f) := by
  intro s w r w' h
  rw [bind_apply] at h
  split at h
  · next a w₁ hw => exact (hf a s w₁ _ _ h).trans (hp s w _ _ hw)
  · next e w₁ hw =>
    cases h
    exact hp s w _ _ hw
  · cases h

theorem options : Silent options := by
  rintro s w r w' ⟨⟩
  rfl

theorem types (work : TypeM α) : Silent (types work) := by
  intro s w r w' h
  obtain ⟨_, _, -, -, rfl⟩ := types_eq_ok.1 h
  rfl

theorem query (f : TypeTable → Checked α) : Silent (query f) := by
  intro s w r w' h
  obtain ⟨_, -, -, rfl⟩ := query_eq_ok.1 h
  rfl

theorem hierarchy (work : ExpandM CodeBase α) : Silent (hierarchy work) := by
  intro s w r w' h
  obtain ⟨_, _, _, -, -, rfl⟩ := hierarchy_eq_ok.1 h
  rfl

theorem ite {p q : AnalysisM α} {c : Prop} [Decidable c] (hp : Silent p) (hq : Silent q) :
    Silent (if c then p else q) := by
  split
  · exact hp
  · exact hq

end Silent

theorem silent_acceptsParam (m : Method) (p : Parameter) (m' : Method) (p' : Parameter) :
    Silent (acceptsParam m p m' p') :=
  (Silent.types _).bind fun _ => (Silent.types _).bind fun _ =>
    .ite (.pure _) (Silent.options.bind fun _ =>
      .ite (.pure _) (.ite (.pure _) (.hierarchy _)))

theorem silent_acceptsParams (m m' : Method) (i : Nat) (ps : List Parameter) :
    Silent (acceptsParams m m' i ps) := by
  induction ps generalizing i with
  | nil => exact .pure _
  | cons p' ps ih =>
    rw [acceptsParams]
    split
    · exact .pure _
    · refine .ite (.pure _) (.ite (.pure _) ((silent_acceptsParam _ _ _ _).bind fun _ => ?_))
      exact .ite (ih _) (.pure _)

theorem silent_returnsCompatibly (m m' : Method) : Silent (returnsCompatibly m m') :=
  (Silent.types _).bind fun _ =>
    .ite (.pure _) ((Silent.types _).bind fun _ => .ite (.pure _) (.hierarchy _))

theorem silent_isCompatible (m m' : Method) : Silent (isCompatible m m') :=
  .ite (.pure _) (.ite (.pure _) ((silent_acceptsParams _ _ _ _).bind fun _ =>
    .ite (silent_returnsCompatibly _ _) (.pure _)))

/-- The parameters that are compared agree. -/
theorem of_acceptsParams {i : Nat} {ps : List Parameter}
    (h : acceptsParams m m' i ps s w = .ok (.ok true, w')) {k : Nat} {p' : Parameter}
    (hk : ps[k]? = some p') : ∃ p, m.signature.paramFor? (i + k) = some p ∧
      p.marks.byRef = p'.marks.byRef ∧ (p'.marks.variadic = true → p.marks.variadic = true) := by
  induction ps generalizing i k w with
  | nil => cases hk
  | cons q' ps ih =>
    cases hp : m.signature.paramFor? i with
    | none =>
      rw [acceptsParams, hp] at h
      cases h
    | some p =>
      rw [acceptsParams, hp] at h
      dsimp only at h
      split at h
      · cases h
      · next hbyRef =>
        split at h
        · cases h
        · next hvariadic =>
          obtain ⟨accepted, w₁, -, h⟩ := bind_eq_ok.1 h
          split at h
          · cases k with
            | zero =>
              obtain rfl : q' = p' := by simpa using hk
              refine ⟨p, hp, by simpa using hbyRef, fun hv' => ?_⟩
              simpa [hv'] using hvariadic
            | succ k =>
              rw [show i + (k + 1) = i + 1 + k by omega]
              exact ih h hk
          · cases h

theorem standsFor_of_isCompatible (h : isCompatible m m' s w = .ok (.ok true, w')) :
    m.signature.StandsFor m'.signature := by
  unfold isCompatible at h
  split at h
  · cases h
  · next hlength =>
    split at h
    · cases h
    · next hrequired =>
      obtain ⟨accepted, w₁, hparams, h⟩ := bind_eq_ok.1 h
      split at h
      · next haccepted =>
        rw [haccepted] at hparams
        refine ⟨?_, not_lt.1 hrequired, fun i p' hi => ?_⟩
        · simp only [Bool.and_eq_true, decide_eq_true_eq, Bool.not_eq_true', not_and,
            Bool.not_eq_false] at hlength
          exact (le_or_gt _ _).imp_right hlength
        · simpa using of_acceptsParams hparams hi
      · cases h

theorem grows_checkVisibility (m m' : Method) (text text' : String) :
    Grows (checkVisibility m m' text text') := by
  unfold checkVisibility reportAt
  grind

theorem standsFor_of_checkOverride (hprivate : m'.modifiers.isPrivate = false)
    (hname : Text.sameFolded m.name.name "__construct" = false)
    (hrun : checkOverride m m' s w = .ok (.ok (), w'))
    (hsilent : ∀ i : Issue, i.Reported w w' → ¬ i.kind.IsParamMismatch) :
    m.signature.StandsFor m'.signature := by
  unfold checkOverride at hrun
  rw [if_neg (by simp [hprivate, hname])] at hrun
  obtain ⟨text, w₁, htext, hrun⟩ := bind_eq_ok.1 hrun
  obtain ⟨text', w₂, htext', hrun⟩ := bind_eq_ok.1 hrun
  obtain ⟨⟨⟩, w₃, hvisibility, hrun⟩ := bind_eq_ok.1 hrun
  obtain ⟨compatible, w₄, hcompatible, hrun⟩ := bind_eq_ok.1 hrun
  cases compatible with
  | true => exact standsFor_of_isCompatible hcompatible
  | false =>
    -- the report stands behind what was reported before it
    have hgrows : w.issues.toList <+: w₄.issues.toList := by
      rw [silent_isCompatible m m' s w₃ _ _ hcompatible, ← Silent.query _ s w _ _ htext,
        ← Silent.query _ s w₁ _ _ htext']
      exact grows_checkVisibility m m' text text' s w₂ _ _ hvisibility
    have hreport {kind : IssueKind} {args : List String} (hkind : kind.IsParamMismatch)
        (h : reportAt m.location kind args s w₄ = .ok (.ok (), w')) : False := by
      cases h
      exact hsilent _ ((Issue.Reported.emit w₄ _).mono_left hgrows) hkind
    rw [Bool.not_false, if_pos rfl] at hrun
    split at hrun
    · exact (hreport (.inr rfl) hrun).elim
    · exact (hreport (.inl rfl) hrun).elim

/-! ### Methods without types -/

/-- Nothing is known of the parameters and the result. -/
structure Untyped (m : Method) : Prop where
  params : ∀ p ∈ m.signature.params, p.type = .empty
  result : m.signature.result = .empty

theorem exists_classType {name : ClassName} (hname : name.Typable) (t : TypeTable) :
    ∃ id t₁, TypeM.classType name t = .ok (id, t₁) := by
  rw [TypeM.classType, TypeM.classTypeWith, TypeM.make_of_typable hname, TypeM.intern,
    dif_pos (by simp [TypeKind.embedded])]
  exact ⟨_, _, rfl⟩

theorem exists_resolveStatic_empty {name : ClassName} (hname : name.Typable) (s : Setup)
    (w : World) : ∃ w', types (UnionType.empty.resolveStatic name) s w = .ok (.ok .empty, w') := by
  obtain ⟨id, t₁, ht₁⟩ := exists_classType hname w.types
  exact ⟨_, types_eq_ok.2 ⟨_, t₁, TypeM.bind_eq_ok.2 ⟨id, t₁, ht₁, rfl⟩, rfl, rfl⟩⟩

theorem exists_render (hm : Untyped m) (t : TypeTable) : ∃ text, m.render t = .ok text := by
  have hdisplay : UnionType.empty.display t = .ok (t.renderUnion .empty) := rfl
  have hparam : ∀ p ∈ m.signature.params, ∃ text, p.render t = .ok text := by
    intro p hp
    rw [Parameter.render, hm.params p hp, hdisplay]
    exact ⟨_, rfl⟩
  obtain ⟨texts, htexts⟩ := UnionType.exists_mapM hparam
  rw [Method.render, htexts, hm.result, hdisplay]
  exact ⟨_, rfl⟩

section

variable (hm : Untyped m) (hname : m.name.owner.Typable) (hname' : m'.name.owner.Typable)
include hm hname hname'

theorem exists_acceptsParams {i : Nat} {ps : List Parameter}
    (hps : ∀ p' ∈ ps, p'.type = .empty)
    (h : ∀ k p', ps[k]? = some p' → ∃ p, m.signature.paramFor? (i + k) = some p ∧
      p.marks.byRef = p'.marks.byRef ∧ (p'.marks.variadic = true → p.marks.variadic = true))
    (w : World) : ∃ w', acceptsParams m m' i ps s w = .ok (.ok true, w') := by
  induction ps generalizing i w with
  | nil => exact ⟨w, rfl⟩
  | cons p' ps ih =>
    obtain ⟨p, hp, hbyRef, hvariadic⟩ := h 0 p' rfl
    have hempty : p.type = .empty := hm.params p (Signature.mem_of_paramFor? hp)
    obtain ⟨w₁, hw₁⟩ := exists_resolveStatic_empty hname s w
    obtain ⟨w₂, hw₂⟩ := exists_resolveStatic_empty hname' s w₁
    have haccepts : acceptsParam m p m' p' s w = .ok (.ok true, w₂) := by
      rw [acceptsParam, hempty, hps p' List.mem_cons_self, bind_of_ok hw₁, bind_of_ok hw₂]
      rfl
    obtain ⟨w₃, hw₃⟩ := ih (i := i + 1) (fun q hq => hps q (List.mem_cons_of_mem _ hq))
      (fun k q hq => by
        rw [show i + 1 + k = i + (k + 1) by omega]
        exact h (k + 1) q hq) w₂
    refine ⟨w₃, ?_⟩
    rw [acceptsParams, show m.signature.paramFor? i = some p from hp]
    dsimp only
    rw [if_neg (by simp [hbyRef]), if_neg (by simpa using hvariadic), bind_of_ok haccepts, if_pos rfl]
    exact hw₃

variable (hm' : Untyped m')
include hm'

/-- What the check asks of the parameters is enough where no types are declared. -/
theorem exists_isCompatible (h : m.signature.StandsFor m'.signature) (w : World) :
    ∃ w', isCompatible m m' s w = .ok (.ok true, w') := by
  obtain ⟨w₁, hw₁⟩ := exists_acceptsParams (s := s) hm hname hname' (i := 0) hm'.params
    (fun k p' hk => by simpa using h.params k p' hk) w
  obtain ⟨w₂, hw₂⟩ := exists_resolveStatic_empty hname' s w₁
  have hreturns : returnsCompatibly m m' s w₁ = .ok (.ok true, w₂) := by
    rw [returnsCompatibly, hm'.result, bind_of_ok hw₂]
    rfl
  refine ⟨w₂, ?_⟩
  have hlength : ¬ (decide (m.signature.params.length < m'.signature.params.length) &&
      !m.signature.takesRest) = true := by
    simpa using fun hlt => h.length.resolve_left (not_le.2 hlt)
  unfold Signature.takesRest at hlength
  unfold isCompatible
  rw [if_neg hlength, if_neg (not_lt.2 h.required), bind_of_ok hw₁, if_pos rfl]
  exact hreturns

/-- The check reports nothing of a method that stands in for the other one and is as visible. -/
theorem exists_checkOverride (h : m.signature.StandsFor m'.signature)
    (hrank : m.modifiers.rank ≤ m'.modifiers.rank) (w : World) :
    ∃ w', checkOverride m m' s w = .ok (.ok (), w') ∧ w'.issues = w.issues := by
  obtain ⟨text, htext⟩ := exists_render hm w.types
  obtain ⟨text', htext'⟩ := exists_render hm' w.types
  obtain ⟨w', hw'⟩ := exists_isCompatible (s := s) hm hname hname' hm' h w
  have hissues := silent_isCompatible m m' s w _ _ hw'
  have hvisibility : checkVisibility m m' text text' s w = .ok (.ok (), w) := by
    rw [checkVisibility, if_neg (not_lt.2 hrank)]
    rfl
  unfold checkOverride
  split
  · exact ⟨w, rfl, rfl⟩
  · refine ⟨w', ?_, hissues⟩
    rw [bind_of_ok (query_eq_ok.2 ⟨text, htext, rfl, rfl⟩),
      bind_of_ok (query_eq_ok.2 ⟨text', htext', rfl, rfl⟩), bind_of_ok hvisibility, bind_of_ok hw']
    rfl

end

/-! ### Two methods that override another one -/

/-- The method `\Base::f($a, $b = default)`. -/
def baseMethod : Method where
  name := ⟨.ofFullName "\\Base", "f"⟩
  signature := { params := [{ name := "a" }, { name := "b", hasDefault := true }] }

/-- The method `\Child::f($a, ...$rest)`. -/
def restMethod : Method where
  name := ⟨.ofFullName "\\Child", "f"⟩
  signature := { params := [{ name := "a" }, { name := "rest", marks := { variadic := true } }] }

/-- The method `\Child::f($a = default, $b)`. -/
def swappedMethod : Method where
  name := ⟨.ofFullName "\\Child", "f"⟩
  signature := { params := [{ name := "a", hasDefault := true }, { name := "b" }] }

theorem untyped_of_two {m : Method} {p q : Parameter} (hm : m.signature.params = [p, q])
    (hp : p.type = .empty) (hq : q.type = .empty) (hresult : m.signature.result = .empty) :
    Untyped m := by
  refine ⟨fun x hx => ?_, hresult⟩
  rw [hm, List.mem_pair] at hx
  rcases hx with rfl | rfl <;> assumption

theorem standsFor_baseMethod {m : Method} (hm : m = restMethod ∨ m = swappedMethod) :
    m.signature.StandsFor baseMethod.signature := by
  have hparams : ∀ i p', baseMethod.signature.params[i]? = some p' →
      ∃ p, m.signature.paramFor? i = some p ∧ p.marks.byRef = p'.marks.byRef ∧
        (p'.marks.variadic = true → p.marks.variadic = true) := by
    intro i p' hi
    match i with
    | 0 | 1 =>
      cases hi
      rcases hm with rfl | rfl <;> exact ⟨_, rfl, rfl, by decide⟩
    | i + 2 => cases hi
  rcases hm with rfl | rfl <;> exact ⟨.inl le_rfl, by decide, hparams⟩

theorem typable_owner : baseMethod.name.owner.Typable ∧ restMethod.name.owner.Typable ∧
    swappedMethod.name.owner.Typable :=
  ⟨QualifiedName.typable_ofFullName (by decide) (by decide),
    QualifiedName.typable_ofFullName (by decide) (by decide),
    QualifiedName.typable_ofFullName (by decide) (by decide)⟩

theorem untyped_baseMethod : Untyped baseMethod := untyped_of_two rfl rfl rfl rfl

/-- Nothing is reported of either method. -/
theorem checkOverride_baseMethod {m : Method} (hm : m = restMethod ∨ m = swappedMethod) :
    ∃ w', checkOverride m baseMethod {} (.create {}) = .ok (.ok (), w') ∧
      ∀ i : Issue, ¬ i.Reported (.create {}) w' := by
  obtain ⟨hbase, hrest, hswapped⟩ := typable_owner
  have hrun : ∃ w', checkOverride m baseMethod {} (.create {}) = .ok (.ok (), w') ∧
      w'.issues = (World.create {}).issues := by
    rcases hm with rfl | rfl
    · exact exists_checkOverride (untyped_of_two rfl rfl rfl rfl) hrest hbase untyped_baseMethod
        (standsFor_baseMethod (.inl rfl)) le_rfl _
    · exact exists_checkOverride (untyped_of_two rfl rfl rfl rfl) hswapped hbase untyped_baseMethod
        (standsFor_baseMethod (.inr rfl)) le_rfl _
  obtain ⟨w', hrun, hissues⟩ := hrun
  refine ⟨w', hrun, fun i hi => ?_⟩
  rw [Issue.Reported, hissues] at hi
  cases hi

/-- A method whose parameters the check of the override accepts passes arguments by reference where
the other method does, and accepts all its calls exactly if it needs no more arguments; so it does
where the parameters that must be filled come first. -/
theorem checkOverride_accepts_iff (hrest : m.signature.RestLast)
    (hprivate : m'.modifiers.isPrivate = false)
    (hname : Text.sameFolded m.name.name "__construct" = false)
    (hrun : checkOverride m m' s w = .ok (.ok (), w'))
    (hsilent : ∀ i : Issue, i.Reported w w' → ¬ i.kind.IsParamMismatch) :
    ((∀ n, m'.signature.Accepts n → m.signature.Accepts n) ↔
      m.signature.neededCount ≤ m'.signature.neededCount) ∧
    (m.signature.RequiredFirst → m.signature.neededCount ≤ m'.signature.neededCount) ∧
    ∀ n, m'.signature.Accepts n → ∀ i < n, ∃ p p', m.signature.paramFor? i = some p ∧
      m'.signature.paramFor? i = some p' ∧ p.marks.byRef = p'.marks.byRef := by
  have h := standsFor_of_checkOverride hprivate hname hrun hsilent
  exact ⟨h.forall_accepts_iff hrest, h.neededCount_le, fun n hn i hi => h.byRef_eq hrest hn hi⟩

/-- A parameter that takes the rest receives what the other method leaves out or is given. -/
theorem checkOverride_accepts_iff_rest : ∃ w w' : World,
    restMethod.signature.RestLast ∧ baseMethod.modifiers.isPrivate = false ∧
    Text.sameFolded restMethod.name.name "__construct" = false ∧
    checkOverride restMethod baseMethod {} w = .ok (.ok (), w') ∧
    (∀ i : Issue, i.Reported w w' → ¬ i.kind.IsParamMismatch) ∧
    restMethod.signature.RequiredFirst ∧ baseMethod.signature.Accepts 2 ∧
    (∀ n, baseMethod.signature.Accepts n → restMethod.signature.Accepts n) ∧
    ∃ p p', restMethod.signature.paramFor? 1 = some p ∧
      baseMethod.signature.paramFor? 1 = some p' ∧ p.marks.byRef = p'.marks.byRef := by
  obtain ⟨w', hrun, hsilent⟩ := checkOverride_baseMethod (.inl rfl)
  have hrest : restMethod.signature.RestLast := by
    intro p hp
    obtain rfl := List.mem_singleton.1 hp
    rfl
  have hfirst : restMethod.signature.RequiredFirst := by
    simp [Signature.RequiredFirst, restMethod, Parameter.isOptional]
  have htwo : baseMethod.signature.Accepts 2 := Signature.accepts_iff.2 ⟨by decide, .inl le_rfl⟩
  obtain ⟨hiff, hneeded, hbyRef⟩ := checkOverride_accepts_iff hrest rfl (by decide) hrun
    fun i hi => absurd hi (hsilent i)
  exact ⟨_, w', hrest, rfl, by decide, hrun, fun i hi => absurd hi (hsilent i), hfirst, htwo,
    hiff.2 (hneeded hfirst), hbyRef 2 htwo 1 (by decide)⟩

/-- The check counts one parameter that must be filled on either side. It reports nothing, though the
one argument that the overridden method needs does not fill the second parameter. -/
theorem not_accepts_swappedMethod : ∃ w' : World,
    checkOverride swappedMethod baseMethod {} (.create {}) = .ok (.ok (), w') ∧
    (∀ i : Issue, ¬ i.Reported (.create {}) w') ∧ swappedMethod.signature.RestLast ∧
    baseMethod.signature.RestLast ∧ baseMethod.modifiers.isPrivate = false ∧
    Text.sameFolded swappedMethod.name.name "__construct" = false ∧
    baseMethod.signature.Accepts 1 ∧ ¬ swappedMethod.signature.Accepts 1 := by
  obtain ⟨w', hrun, hsilent⟩ := checkOverride_baseMethod (.inr rfl)
  have hone : baseMethod.signature.Accepts 1 :=
    Signature.accepts_iff.2 ⟨by decide, .inl (by decide)⟩
  have hmore : ¬ swappedMethod.signature.Accepts 1 := fun h =>
    absurd (Signature.accepts_iff.1 h).1 (by decide)
  refine ⟨w', hrun, hsilent, ?_, ?_, rfl, by decide, hone, hmore⟩
  · intro p hp
    obtain rfl := List.mem_singleton.1 hp
    rfl
  · intro p hp
    obtain rfl := List.mem_singleton.1 hp
    rfl

end AnalysisM

end UnionInference
