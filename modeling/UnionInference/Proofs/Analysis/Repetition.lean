import UnionInference.Proofs.Analysis.Frame
import UnionInference.Proofs.CodeBase.Persistence
import UnionInference.Proofs.Types.Recurrence

/-!
Work that comes again. What a step of an evaluation finds out in a session it finds out again at any
later time of the session: types stand where they stood, classes answer as they did, and a variable
that came about has the type it was given. The second time nothing is added to the table of types.
-/

namespace UnionInference

/-! ### Sessions -/

namespace World

variable {c : Context} {o : Options} {w w₁ w₂ : World}

/-- A world as sessions leave them: what is remembered of the class hierarchy holds, nothing is
loaded on demand, and the variables of the scope stand in a valid table. -/
structure Tidy (c : Context) (w : World) : Prop where
  fresh : CacheFresh (w.types, w.base)
  base : w.base.Orderly
  scope : (w.scopeOf c).variables.Valid

/-- The second world is the first one at a later time, as far as a context can tell. -/
structure Later (c : Context) (o : Options) (w w₁ : World) : Prop where
  types : w.types.Extends w₁.types
  base : w.base.Endures w₁.base
  stock : w.base.FillsTo w₁.base
  scope : (w.scopeOf c).Keeps o (w₁.scopeOf c)

theorem Tidy.canonical (h : w.Tidy c) : w.types.Canonical := h.fresh.canonical

theorem Tidy.wellNamed (h : w.Tidy c) : w.types.WellNamed := h.canonical.named

/-- A session in which no class is announced leaves a tidy world, if names tell the types apart that
are asked for. -/
theorem tidy_of_session {requests : List Request}
    (hall : ∀ r ∈ requests, r.Immediate ∧ r.WellNamed) {nullCasts hydrateLazily : Bool}
    (hrun : requests.forM Request.run (.initial nullCasts, .create hydrateLazily) =
      .ok ((), w.types, w.base))
    (hscope : (w.scopeOf c).variables.Valid) : w.Tidy c where
  fresh := keepsFresh_session (fun r hr => ⟨(hall r hr).1.honest, (hall r hr).2⟩) _ _ _
    (cacheFresh_start nullCasts hydrateLazily) hrun
  base := by
    have horderly := CodeBase.orderly_create hydrateLazily
    rw [Request.base_eq_foldl_effect (fun r hr => (hall r hr).1) horderly.selfContained hrun]
    exact horderly.foldl_effect requests
  scope := hscope

theorem Later.refl (h : w.Tidy c) : w.Later c o w :=
  ⟨.refl _, .refl h.base, .refl _, .refl o h.scope⟩

theorem Later.trans (h : w.Later c o w₁) (h₁ : w₁.Later c o w₂) : w.Later c o w₂ :=
  ⟨h.types.trans h₁.types, h.base.trans h₁.base, h.stock.trans h₁.stock, h.scope.trans h₁.scope⟩

theorem Later.classes (h : w.Later c o w₁) : w₁.base.classes = w.base.classes :=
  h.base.supplements.classes

/-- Only the table changes. -/
theorem Tidy.withTypes {t : TypeTable} (h : w.Tidy c) (ht : CacheFresh (t, w.base)) :
    ({ w with types := t } : World).Tidy c := ⟨ht, h.base, h.scope⟩

theorem Later.withTypes {t : TypeTable} (h : w.Tidy c) (ht : w.types.Extends t) :
    w.Later c o { w with types := t } := ⟨ht, .refl h.base, .refl _, .refl o h.scope⟩

/-- Only a class is filled. -/
theorem Tidy.withFilled (h : w.Tidy c) (owner : ClassName) :
    ({ w with base := w.base.filled owner } : World).Tidy c where
  fresh :=
    have hs := (h.base.endures_filled owner).supplements
    have hsame : w.base.SameClasses (w.base.filled owner) :=
      ⟨hs.classes, hs.pending, hs.resolver, hs.generation⟩
    h.fresh.step h.canonical (.refl _) rfl (hsame.moves h.fresh.loadable)
  base := (h.base.endures_filled owner).orderly h.base
  scope := h.scope

theorem Later.withFilled (h : w.Tidy c) (owner : ClassName) :
    w.Later c o { w with base := w.base.filled owner } :=
  ⟨.refl _, h.base.endures_filled owner, w.base.fillsTo_filled owner, .refl o h.scope⟩

/-- Only the issues and the stores change. -/
theorem Tidy.withLog (h : w.Tidy c) (log : IssueLog) (caches : Array (Std.HashMap Nat UnionType)) :
    ({ w with issues := log, caches := caches } : World).Tidy c := ⟨h.fresh, h.base, h.scope⟩

theorem Later.withLog (h : w.Later c o w₁) (log : IssueLog)
    (caches : Array (Std.HashMap Nat UnionType)) :
    w.Later c o { w₁ with issues := log, caches := caches } := ⟨h.types, h.base, h.stock, h.scope⟩

end World

/-! ### Variables -/

namespace Scope

variable {x x₁ : Scope} {o : Options} {name : String}

theorem recurs_providedType (x : Scope) (name : String) : TypeM.Recurs (x.providedType name) := by
  have hsome : ∀ {work : TypeM TypeId}, TypeM.Recurs work →
      TypeM.Recurs (do return some (UnionType.of (← work))) := fun h => h.bind fun _ => .pure _
  unfold providedType
  split
  · exact hsome (TypeM.recurs_array _ _ _)
  · split
    · exact .pure none
    · split
      · exact .pure _
      · exact hsome (TypeM.recurs_array _ _ _)
      · exact hsome (TypeM.recurs_array _ _ _)
      · exact .pure none

theorem providedType_of_not_provided (h : x.isProvided name = false) :
    x.providedType name = pure none := by
  obtain ⟨hsuper, hglobal⟩ := Bool.or_eq_false_iff.1 h
  unfold providedType
  rw [if_neg (by rw [hsuper]; exact Bool.false_ne_true)]
  split
  · rfl
  · next hg =>
    rw [Bool.not_eq_true', Bool.not_eq_false] at hg
    have hother : ["argc", "argv", "http_response_header"].contains name = false := by
      simpa [hg] using hglobal
    split <;> first | rfl | (exact absurd hother (by decide))

/-- A variable that is there later was there before, or it came about. -/
theorem Keeps.get?_inv {u : UnionType} (h : x.Keeps o x₁) (hx : x.variables.Valid)
    (hu : x₁.get? name = some u) : x.get? name = some u ∨
      x.get? name = none ∧ u = .empty ∧ x.isProvided name = false ∧
        (x.isGlobal && o.ignoreUndeclaredVariablesInGlobalScope) = true := by
  obtain ⟨added, hlist, hadded⟩ := h.grows
  unfold get? at hu ⊢
  rw [hx.get?_eq_lookup]
  rw [h.valid.get?_eq_lookup, hlist, List.lookup_append] at hu
  cases hold : x.variables.toList.lookup name with
  | some v =>
    rw [hold, Option.some_or] at hu
    exact .inl hu
  | none =>
    rw [hold, Option.none_or] at hu
    obtain ⟨l₁, l₂, hsplit, -⟩ := List.lookup_eq_some_iff.1 hu
    obtain ⟨hempty, hprovided, hglobal, ho⟩ := hadded (name, u) (by simp [hsplit])
    exact .inr ⟨rfl, hempty, hprovided, by rw [hglobal, ho]; rfl⟩

/-- A variable that the language provides, or that could not come about, does not come about
later. -/
theorem Keeps.get?_eq_none (h : x.Keeps o x₁) (hx : x.variables.Valid) (hnone : x.get? name = none)
    (hfix : x.isProvided name = true ∨
      (x.isGlobal && o.ignoreUndeclaredVariablesInGlobalScope) = false) : x₁.get? name = none := by
  cases hu : x₁.get? name with
  | none => rfl
  | some u =>
    rcases h.get?_inv hx hu with hold | ⟨-, -, hprovided, hallowed⟩
    · rw [hnone] at hold
      cases hold
    · rw [hprovided, hallowed] at hfix
      rcases hfix with hfix | hfix <;> cases hfix

end Scope

/-! ### Ancestors -/

namespace ExpandM

variable {α β : Type}

/-- Work that keeps all types in their places, whatever the table is. -/
structure KeepsTypes (p : ExpandM CodeBase α) : Prop where
  keeps : ∀ {t t₁ : TypeTable} {b b₁ : CodeBase} {a : α}, p (t, b) = .ok (a, t₁, b₁) → t.Keeps t₁

theorem keepsTypes_pure (a : α) : KeepsTypes (pure a : ExpandM CodeBase α) where
  keeps hrun := by
    cases hrun
    exact .refl _

theorem keepsTypes_throw (v : Violation) : KeepsTypes (throw v : ExpandM CodeBase α) := ⟨nofun⟩

theorem keepsTypes_types {work : TypeM α} (h : TypeM.Recurs work) :
    KeepsTypes (types work : ExpandM CodeBase α) := ⟨fun hrun => (h.keeps (types_eq_ok.1 hrun).1).1⟩

theorem keepsTypes_query (f : TypeTable → Checked α) :
    KeepsTypes (query f : ExpandM CodeBase α) := by
  refine ⟨fun {t t₁ b b₁ a} hrun => ?_⟩
  have hquery := (types_eq_ok.1 hrun).1
  rw [TypeM.query] at hquery
  cases hf : f t with
  | error v =>
    rw [hf] at hquery
    cases hquery
  | ok a =>
    rw [hf] at hquery
    cases hquery
    exact .refl _

theorem KeepsTypes.bind {p : ExpandM CodeBase α} {f : α → ExpandM CodeBase β} (hp : KeepsTypes p)
    (hf : ∀ a, KeepsTypes (f a)) : KeepsTypes (p >>= f) where
  keeps hrun := by
    obtain ⟨a, x', hfirst, hrest⟩ := bind_eq_ok.1 hrun
    exact (hp.keeps hfirst).trans ((hf a).keeps hrest)

theorem KeepsTypes.foldlM {f : β → α → ExpandM CodeBase β} (hf : ∀ b a, KeepsTypes (f b a))
    (as : List α) (b : β) : KeepsTypes (as.foldlM f b) := by
  induction as generalizing b with
  | nil => exact keepsTypes_pure b
  | cons a as ih =>
    rw [List.foldlM_cons]
    exact (hf b a).bind ih

theorem keepsTypes_addAncestor {n : Nat}
    (ih : ∀ id : TypeId, KeepsTypes (expandWithin n id : ExpandM CodeBase UnionType)) (id : TypeId)
    (name : ClassName) (result : UnionType) (member : TypeId) :
    KeepsTypes (addAncestor n id name result member) := by
  have hunion : KeepsTypes (do return result.union (← expandWithin n member) :
      ExpandM CodeBase UnionType) := (ih member).bind fun _ => keepsTypes_pure _
  unfold addAncestor
  split
  · exact keepsTypes_pure _
  · refine (keepsTypes_query _).bind fun ty => ?_
    split
    · split
      · exact keepsTypes_pure _
      · exact hunion
    · exact hunion

theorem keepsTypes_expandWithin (n : Nat) :
    ∀ id : TypeId, KeepsTypes (expandWithin n id : ExpandM CodeBase UnionType) := by
  induction n with
  | zero => exact fun id => (keepsTypes_query _).bind fun _ => keepsTypes_throw _
  | succ n ih =>
    intro id
    rw [expandWithin]
    refine (keepsTypes_query _).bind fun ty => ?_
    split
    · next name _ _ =>
      have hdeclared : KeepsTypes (declaredType name : ExpandM CodeBase (Option UnionType)) :=
        ⟨by rintro t t₁ b b₁ a ⟨⟩; exact .refl _⟩
      refine hdeclared.bind fun declared => ?_
      split
      · exact keepsTypes_pure _
      · refine KeepsTypes.foldlM (fun result member => ?_) _ _
        show KeepsTypes (addDeclared n id name ty.nullable result member)
        unfold addDeclared
        split
        · exact (keepsTypes_types (TypeM.recurs_withNull _ _)).bind
            (keepsTypes_addAncestor ih id name result)
        · exact (keepsTypes_pure _).bind (keepsTypes_addAncestor ih id name result)
    · refine (keepsTypes_query _).bind fun elementType => (keepsTypes_query _).bind fun nested => ?_
      split
      · exact keepsTypes_pure _
      · exact (ih _).bind fun expanded => keepsTypes_types
          (expanded.recurs_mapMembers fun e => TypeM.recurs_array _ e _)
    · exact keepsTypes_pure _

theorem keepsTypes_expandType (id : TypeId) :
    KeepsTypes (expandType id : ExpandM CodeBase UnionType) := by
  refine ⟨fun {t t₁ b b₁ u} hrun => ?_⟩
  rw [expandType_apply] at hrun
  split at hrun
  · cases hrun
    exact .refl _
  · cases hwithin : expandWithin maxExpansionDepth id (t.syncCache b.generation, b) with
    | error v =>
      rw [hwithin] at hrun
      cases hrun
    | ok x =>
      rw [hwithin] at hrun
      cases hrun
      have hkeeps : (t.syncCache b.generation).Keeps x.2.1 :=
        (keepsTypes_expandWithin maxExpansionDepth id).keeps hwithin
      exact hkeeps

theorem keepsTypes_hasAncestor (u : UnionType) (owner : ClassName) :
    KeepsTypes (u.hasAncestor owner : ExpandM CodeBase Bool) := by
  rw [hasAncestor_eq]
  refine KeepsTypes.bind ?_ fun expanded => ?_
  · exact .foldlM (fun result id => (keepsTypes_expandType id).bind fun _ => keepsTypes_pure _) _ _
  · unfold someOfClass
    induction expanded.members with
    | nil => exact keepsTypes_pure false
    | cons i ids ih =>
      refine KeepsTypes.bind ((keepsTypes_query _).bind fun ty => ?_) fun found => ?_
      · split <;> exact keepsTypes_pure _
      · split
        · exact keepsTypes_pure _
        · exact ih

/-- A class is found among the ancestors of a type at any later time where it was found once, and
then no types are added. -/
theorem hasAncestor_again {t t₁ : TypeTable} {b b₁ : CodeBase} {id : TypeId}
    {owner : ClassName} {found : Bool} (h : CacheFresh (t, b)) (hb : b.SelfContained)
    (hrun : (UnionType.of id).hasAncestor owner (t, b) = .ok (found, t₁, b₁)) :
    t.Extends t₁ ∧ b₁ = b ∧ CacheFresh (t₁, b₁) ∧
      ∀ {t₂ : TypeTable} {b₂ : CodeBase}, CacheFresh (t₂, b₂) → b₂.SelfContained →
        b₂.classes = b.classes → t₁.Extends t₂ → ∃ t₃,
          (UnionType.of id).hasAncestor owner (t₂, b₂) = .ok (found, t₃, b₂) ∧
            t₃.entries = t₂.entries ∧ t₂.Extends t₃ := by
  obtain rfl := (leavesBase_hasAncestor _ owner).base_eq hb hrun
  have hfresh₁ := keepsFresh_hasAncestor _ owner _ _ _ h hrun
  obtain ⟨cache, hanew⟩ := hasAncestor_eq_anew h hb id owner
  rw [hanew] at hrun
  cases hreach : reachesClass id owner (t, b₁) with
  | error v =>
    rw [hreach] at hrun
    cases hrun
  | ok x =>
    obtain ⟨r, t', b'⟩ := x
    rw [hreach] at hrun
    cases hrun
    have hsteady := steady_reachesClass id owner
    have hgrows := (hsteady.grows h.canonical h.loadable hreach).1
    refine ⟨hgrows.keeps.trans (t'.extends_withCache cache), rfl, hfresh₁, ?_⟩
    intro t₂ b₂ h₂ hb₂ hclasses hext
    have hdeclared : b₂.declared? = b'.declared? := by
      funext q
      rw [hb.declared?_eq, hb₂.declared?_eq, CodeBase.class?, CodeBase.class?, hclasses]
    obtain ⟨b₃, hagain⟩ := hsteady.repeats h.canonical h.loadable hreach h₂.canonical
      ⟨hext.entries, hext.byKey⟩ h₂.loadable hdeclared
    obtain rfl := (reads_reachesClass id owner).base_eq hb₂ hagain
    obtain ⟨cache₂, hanew₂⟩ := hasAncestor_eq_anew h₂ hb₂ id owner
    rw [hagain] at hanew₂
    exact ⟨t₂.withCache cache₂, hanew₂, rfl, t₂.extends_withCache cache₂⟩

end ExpandM

/-! ### Work that comes again -/

namespace AnalysisM

variable {α β : Type} {c : Context} {s : Setup}

/-- The work has the same result at any later time, or it fails again; it leaves the stores of
results alone, and the second time it finds all types that it asks for. -/
structure Repeats (c : Context) (s : Setup) (p : AnalysisM α) : Prop where
  keeps : ∀ {w w₁ : World} {r : Except Failure α}, p s w = .ok (r, w₁) →
    w.types.Keeps w₁.types ∧ w₁.caches = w.caches
  later : ∀ {w w₁ : World} {r : Except Failure α}, w.Tidy c → p s w = .ok (r, w₁) →
    w₁.types.WellNamed → w₁.Tidy c ∧ w.Later c s.options w₁
  again : ∀ {w w₁ w₂ : World} {r : Except Failure α}, w.Tidy c → p s w = .ok (r, w₁) →
    w₁.types.WellNamed → w₂.Tidy c → w₁.Later c s.options w₂ →
    ∃ r' w₃, p s w₂ = .ok (r', w₃) ∧ r'.toOption = r.toOption ∧ w₃.types.entries = w₂.types.entries

theorem toOption_eq_some {a : α} {r : Except Failure α} (h : r.toOption = some a) : r = .ok a := by
  cases r with
  | error f => cases h
  | ok b =>
    cases h
    rfl

theorem toOption_eq_none {r : Except Failure α} (h : r.toOption = none) : ∃ f, r = .error f := by
  cases r with
  | error f => exact ⟨f, rfl⟩
  | ok b => cases h

namespace Repeats

/-- Work that changes at most the log of issues, whatever the world is. -/
theorem of_issues {p : AnalysisM α} (r : Except Failure α)
    (h : ∀ w, ∃ log, p s w = .ok (r, { w with issues := log })) : Repeats c s p where
  keeps {w w₁ r'} hrun := by
    obtain ⟨log, heq⟩ := h w
    rw [heq] at hrun
    cases hrun
    exact ⟨.refl _, rfl⟩
  later {w w₁ r'} hw hrun _ := by
    obtain ⟨log, heq⟩ := h w
    rw [heq] at hrun
    cases hrun
    exact ⟨hw.withLog log w.caches, (World.Later.refl hw).withLog log w.caches⟩
  again {w w₁ w₂ r'} _ hrun _ _ _ := by
    obtain ⟨log, heq⟩ := h w
    obtain ⟨log₂, heq₂⟩ := h w₂
    rw [heq] at hrun
    cases hrun
    exact ⟨r, _, heq₂, rfl, rfl⟩

@[grind ←]
theorem pure (a : α) : Repeats c s (pure a) := of_issues (.ok a) fun w => ⟨w.issues, rfl⟩

@[grind ←]
theorem fail (f : Failure) : Repeats c s (fail f : AnalysisM α) :=
  of_issues (.error f) fun w => ⟨w.issues, rfl⟩

@[grind ←]
theorem emit (i : Issue) : Repeats c s (emit i) := of_issues (.ok ()) fun w => ⟨w.issues.add i, rfl⟩

@[grind ←]
theorem read : Repeats c s (read : AnalysisM Setup) := of_issues (.ok s) fun w => ⟨w.issues, rfl⟩

@[grind ←]
theorem bind {p : AnalysisM α} {f : α → AnalysisM β} (hp : Repeats c s p)
    (hf : ∀ a, Repeats c s (f a)) : Repeats c s (p >>= f) where
  keeps {w w₁ r} h := by
    rw [bind_apply] at h
    split at h
    · next a w' hw =>
      have hfirst := hp.keeps hw
      have hrest := (hf a).keeps h
      exact ⟨hfirst.1.trans hrest.1, hrest.2.trans hfirst.2⟩
    · next e w' hw =>
      cases h
      exact hp.keeps hw
    · cases h
  later {w w₁ r} hw h hn := by
    rw [bind_apply] at h
    split at h
    · next a w' hrun =>
      obtain ⟨hw', hlater⟩ := hp.later hw hrun (hn.of_keeps ((hf a).keeps h).1)
      obtain ⟨hw₁, hlater'⟩ := (hf a).later hw' h hn
      exact ⟨hw₁, hlater.trans hlater'⟩
    · next e w' hrun =>
      cases h
      exact hp.later hw hrun hn
    · cases h
  again {w w₁ w₂ r} hw h hn hw₂ hlater := by
    rw [bind_apply] at h
    split at h
    · next a w' hrun =>
      -- both parts come again, one after the other
      have hn' := hn.of_keeps ((hf a).keeps h).1
      obtain ⟨hw', -⟩ := hp.later hw hrun hn'
      obtain ⟨-, hnext⟩ := (hf a).later hw' h hn
      obtain ⟨r', w₃, hrun₂, hr', he⟩ := hp.again hw hrun hn' hw₂ (hnext.trans hlater)
      obtain rfl := toOption_eq_some hr'
      obtain ⟨hw₃, hlater₃⟩ := hp.later hw₂ hrun₂ (hw₂.wellNamed.of_entries he)
      obtain ⟨r'', w₄, hrun₃, hr'', he'⟩ := (hf a).again hw' h hn hw₃ (hlater.trans hlater₃)
      exact ⟨r'', w₄, by rw [bind_of_ok hrun₂, hrun₃], hr'', he'.trans he⟩
    · next e w' hrun =>
      cases h
      obtain ⟨r', w₃, hrun₂, hr', he⟩ := hp.again hw hrun hn hw₂ hlater
      obtain ⟨f, rfl⟩ := toOption_eq_none hr'
      exact ⟨.error f, w₃, by rw [bind_apply, hrun₂], rfl, he⟩
    · cases h

@[grind ←]
theorem map (f : α → β) {p : AnalysisM α} (hp : Repeats c s p) : Repeats c s (f <$> p) :=
  hp.bind fun a => pure (f a)

@[grind ←]
theorem foldlM {f : β → α → AnalysisM β} (hf : ∀ b a, Repeats c s (f b a)) (as : List α) (b : β) :
    Repeats c s (as.foldlM f b) := by
  induction as generalizing b with
  | nil => exact pure b
  | cons a as ih => exact (hf b a).bind ih

@[grind ←]
theorem mapM {f : α → AnalysisM β} (hf : ∀ a, Repeats c s (f a)) (as : List α) :
    Repeats c s (as.mapM f) := by
  induction as with
  | nil => exact pure []
  | cons a as ih =>
    rw [List.mapM_cons]
    exact (hf a).bind fun b => ih.bind fun bs => pure (b :: bs)

@[grind ←]
theorem anyM {f : α → AnalysisM Bool} (hf : ∀ a, Repeats c s (f a)) (as : List α) :
    Repeats c s (as.anyM f) := by
  induction as with
  | nil => exact pure false
  | cons a as ih => exact (hf a).bind fun found => by cases found <;> grind [List.anyM]

@[grind ←]
theorem andM {p q : AnalysisM Bool} (hp : Repeats c s p) (hq : Repeats c s q) :
    Repeats c s (p <&&> q) :=
  hp.bind fun b => by cases b <;> grind

@[grind ←]
theorem orM {p q : AnalysisM Bool} (hp : Repeats c s p) (hq : Repeats c s q) :
    Repeats c s (p <||> q) :=
  hp.bind fun b => by cases b <;> grind

/-! ### Types -/

@[grind ←]
theorem types {work : TypeM α} (h : TypeM.Recurs work) : Repeats c s (types work) where
  keeps {w w₁ r} hrun := by
    obtain ⟨a, t, ht, rfl, rfl⟩ := types_eq_ok.1 hrun
    exact ⟨(h.keeps ht).1, rfl⟩
  later {w w₁ r} hw hrun hn := by
    obtain ⟨a, t, ht, rfl, rfl⟩ := types_eq_ok.1 hrun
    obtain ⟨hcanonical, hext⟩ := h.grows hw.canonical ht hn
    have hmoves := (CodeBase.Loads.refl hw.fresh.loadable).moves
    exact ⟨hw.withTypes (hw.fresh.step hcanonical hext (h.keeps ht).2 hmoves), .withTypes hw hext⟩
  again {w w₁ w₂ r} hw hrun hn _ hlater := by
    obtain ⟨a, t, ht, rfl, rfl⟩ := types_eq_ok.1 hrun
    have hrun₂ := h.again hw.canonical ht hn hlater.types
    exact ⟨.ok a, w₂, types_eq_ok.2 ⟨a, w₂.types, hrun₂, rfl, rfl⟩, rfl, rfl⟩

@[grind ←]
theorem query (f : TypeTable → Checked α) [hf : TypeTable.Lasting f] : Repeats c s (query f) where
  keeps hrun := by
    obtain ⟨a, -, rfl, rfl⟩ := query_eq_ok.1 hrun
    exact ⟨.refl _, rfl⟩
  later hw hrun _ := by
    obtain ⟨a, -, rfl, rfl⟩ := query_eq_ok.1 hrun
    exact ⟨hw, .refl hw⟩
  again {w w₁ w₂ r} _ hrun _ _ hlater := by
    obtain ⟨a, ha, rfl, rfl⟩ := query_eq_ok.1 hrun
    exact ⟨.ok a, w₂, query_eq_ok.2 ⟨a, hf.upholds hlater.types.keeps a ha, rfl, rfl⟩, rfl, rfl⟩

/-! ### Classes and their members -/

/-- A question that a class answers always in the same way. -/
theorem base {work : BaseM α} {owner : ClassName} (h : CodeBase.Stays owner work) :
    Repeats c s (base work) := by
  constructor
  · rintro w w₁ r ⟨⟩
    exact ⟨.refl _, rfl⟩
  · rintro w w₁ r hw ⟨⟩ _
    show ({ w with base := (work w.base).2 } : World).Tidy c ∧
      w.Later c s.options { w with base := (work w.base).2 }
    rw [h.fills hw.base]
    exact ⟨hw.withFilled owner, .withFilled hw owner⟩
  · rintro w w₁ w₂ r hw ⟨⟩ _ _ hlater
    refine ⟨.ok (work w.base).1, w₂, ?_, rfl, rfl⟩
    show Except.ok (Except.ok (work w₂.base).1, { w₂ with base := (work w₂.base).2 }) = _
    rw [h.again hw.base hlater.base]

@[grind ←]
theorem method? (owner : ClassName) (name : String) :
    Repeats c s (AnalysisM.base (CodeBase.method? owner name)) := base (CodeBase.stays_method? _ _)

@[grind ←]
theorem property? (owner : ClassName) (name : String) :
    Repeats c s (AnalysisM.base (CodeBase.property? owner name)) :=
  base (CodeBase.stays_property? _ _)

@[grind ←]
theorem constant? (owner : ClassName) (name : String) :
    Repeats c s (AnalysisM.base (CodeBase.constant? owner name)) :=
  base (CodeBase.stays_constant? _ _)

@[grind ←]
theorem getClass (name : ClassName) : Repeats c s (getClass name) where
  keeps hrun := by
    obtain ⟨d, b, -, rfl, rfl⟩ := getClass_eq_ok.1 hrun
    exact ⟨.refl _, rfl⟩
  later hw hrun _ := by
    obtain ⟨d, b, hget, rfl, rfl⟩ := getClass_eq_ok.1 hrun
    obtain ⟨-, rfl⟩ := CodeBase.getClass_eq_ok_iff.1 hget
    exact ⟨hw.withFilled name, .withFilled hw name⟩
  again {w w₁ w₂ r} hw hrun _ _ hlater := by
    obtain ⟨d, b, hget, rfl, rfl⟩ := getClass_eq_ok.1 hrun
    have hget₂ := (hw.base.getClass_again hget hlater.base).2
    exact ⟨.ok d, w₂, getClass_eq_ok.2 ⟨d, w₂.base, hget₂, rfl, rfl⟩, rfl, rfl⟩

/-- A question to the code base about what stays as it was registered. -/
theorem codeBase {f : CodeBase → AnalysisM β} (hf : ∀ b, Repeats c s (f b))
    (hsame : ∀ b b₁ : CodeBase, b.Supplements b₁ → f b₁ = f b) :
    Repeats c s (codeBase >>= f) where
  keeps {w w₁ r} h := (hf w.base).keeps h
  later {w w₁ r} hw h hn := (hf w.base).later hw h hn
  again {w w₁ w₂ r} hw h hn hw₂ hlater := by
    obtain ⟨r', w₃, hrun, hrest⟩ := (hf w.base).again hw h hn hw₂ hlater
    refine ⟨r', w₃, ?_, hrest⟩
    have hfirst := ((hf w.base).later hw h hn).2
    show f w₂.base s w₂ = _
    rw [hsame _ _ (hfirst.base.supplements.trans hlater.base.supplements), hrun]

theorem hasClass_apply {w : World} (hw : w.Tidy c) (name : ClassName) :
    AnalysisM.hasClass name s w = .ok (.ok (w.base.isRegistered name), w) := by
  show Except.ok (Except.ok (CodeBase.hasClass name w.base).1,
    { w with base := (CodeBase.hasClass name w.base).2 }) = _
  rw [hw.base.selfContained.hasClass]

@[grind ←]
theorem hasClass (name : ClassName) : Repeats c s (hasClass name) := by
  constructor
  · rintro w w₁ r ⟨⟩
    exact ⟨.refl _, rfl⟩
  · intro w w₁ r hw hrun _
    rw [hasClass_apply hw] at hrun
    cases hrun
    exact ⟨hw, .refl hw⟩
  · intro w w₁ w₂ r hw hrun _ hw₂ hlater
    rw [hasClass_apply hw] at hrun
    cases hrun
    refine ⟨_, w₂, hasClass_apply hw₂ name, ?_, rfl⟩
    rw [CodeBase.isRegistered, CodeBase.isRegistered, hlater.classes]

@[grind ←]
theorem hasAncestor (id : TypeId) (owner : ClassName) :
    Repeats c s (hierarchy ((UnionType.of id).hasAncestor owner)) where
  keeps hrun := by
    obtain ⟨a, t, b, h, rfl, rfl⟩ := hierarchy_eq_ok.1 hrun
    exact ⟨(ExpandM.keepsTypes_hasAncestor _ owner).keeps h, rfl⟩
  later {w w₁ r} hw hrun _ := by
    obtain ⟨a, t, b, h, rfl, rfl⟩ := hierarchy_eq_ok.1 hrun
    obtain ⟨hext, rfl, hfresh, -⟩ := ExpandM.hasAncestor_again hw.fresh hw.base.selfContained h
    exact ⟨hw.withTypes hfresh, .withTypes hw hext⟩
  again {w w₁ w₂ r} hw hrun _ hw₂ hlater := by
    obtain ⟨a, t, b, h, rfl, rfl⟩ := hierarchy_eq_ok.1 hrun
    obtain ⟨-, rfl, -, hagain⟩ := ExpandM.hasAncestor_again hw.fresh hw.base.selfContained h
    obtain ⟨t₃, hrun₂, he, -⟩ := hagain hw₂.fresh hw₂.base.selfContained hlater.classes hlater.types
    exact ⟨.ok a, _, hierarchy_eq_ok.2 ⟨a, t₃, w₂.base, hrun₂, rfl, rfl⟩, rfl, he⟩

theorem isSubclassOf_eq (child ancestor : ClassName) :
    AnalysisM.isSubclassOf child ancestor =
      if child.sameClass ancestor then Pure.pure false
      else AnalysisM.hasClass child >>= fun known =>
        if known then
          AnalysisM.types (TypeM.classType child) >>= fun id =>
            hierarchy ((UnionType.of id).hasAncestor ancestor)
        else Pure.pure false := by
  funext s w
  unfold AnalysisM.isSubclassOf CodeBase.isSubclassOf
  split
  · rfl
  · rw [bind_apply]
    show _ = (if (CodeBase.hasClass child w.base).1 then _ else _ : AnalysisM Bool) s
      { w with base := (CodeBase.hasClass child w.base).2 }
    show (if (CodeBase.hasClass child w.base).1 then _ else _ : ExpandM CodeBase Bool)
      (w.types, (CodeBase.hasClass child w.base).2) >>= _ = _
    cases (CodeBase.hasClass child w.base).1 with
    | false => rfl
    | true =>
      rw [if_pos rfl, if_pos rfl, bind_apply, types_apply, ExpandM.bind_apply, ExpandM.types_apply]
      dsimp only
      cases TypeM.classType child w.types <;> rfl

@[grind ←]
theorem isSubclassOf (child ancestor : ClassName) : Repeats c s (isSubclassOf child ancestor) := by
  rw [isSubclassOf_eq]
  split
  · exact pure false
  · refine (hasClass child).bind fun known => ?_
    split
    · exact (types (TypeM.recurs_classType child)).bind fun id => hasAncestor id ancestor
    · exact pure false

end Repeats

/-! ### Variables -/

/-- How the look-up of a variable in the scope ends: it is there, it is provided, it comes about, or
it is missing. -/
inductive LookedUp (c : Context) (o : Options) (name : String) (w : World) :
    Except Failure UnionType → World → Prop
  | found {u : UnionType} (hu : (w.scopeOf c).get? name = some u) : LookedUp c o name w (.ok u) w
  | provided {u : UnionType} {t : TypeTable} (hnone : (w.scopeOf c).get? name = none)
      (hprovided : (w.scopeOf c).isProvided name = true)
      (htype : (w.scopeOf c).providedType name w.types = .ok (some u, t)) :
      LookedUp c o name w (.ok u) { w with types := t }
  | created (hnone : (w.scopeOf c).get? name = none)
      (hnot : (w.scopeOf c).isProvided name = false)
      (hallowed : ((w.scopeOf c).isGlobal && o.ignoreUndeclaredVariablesInGlobalScope) = true) :
      LookedUp c o name w (.ok .empty) (w.define c name .empty)
  | missing {f : Failure} (hnone : (w.scopeOf c).get? name = none)
      (hnot : (w.scopeOf c).isProvided name = false)
      (hallowed : ((w.scopeOf c).isGlobal && o.ignoreUndeclaredVariablesInGlobalScope) = false) :
      LookedUp c o name w (.error f) w

/-- What a variable is where there is no object that a method belongs to. -/
theorem resolveOrCreateVariable_apply {name : String} (line : Nat) {w : World}
    (h : variableType? c name = scopeOf c >>= fun x =>
      match x.get? name with
      | some u => pure (some u)
      | none => types (x.providedType name)) :
    resolveOrCreateVariable c name line s w =
      match (w.scopeOf c).get? name with
      | some u => .ok (.ok u, w)
      | none => (w.scopeOf c).providedType name w.types >>= fun x =>
        match x.1 with
        | some u => .ok (.ok u, { w with types := x.2 })
        | none =>
          if (w.scopeOf c).isGlobal && s.options.ignoreUndeclaredVariablesInGlobalScope then
            .ok (.ok .empty, ({ w with types := x.2 } : World).define c name .empty)
          else
            .ok (.error (.issue (undeclaredVariable c (w.scopeOf c) name line)),
              { w with types := x.2 }) := by
  unfold resolveOrCreateVariable
  rw [h, bind_apply, bind_apply, show scopeOf c s w = .ok (.ok (w.scopeOf c), w) from rfl]
  dsimp only
  cases (w.scopeOf c).get? name with
  | some u => rfl
  | none =>
    dsimp only
    rw [types_apply]
    cases (w.scopeOf c).providedType name w.types with
    | error v => rfl
    | ok x =>
      obtain ⟨found, t⟩ := x
      cases found with
      | some u => rfl
      | none =>
        show (if (w.scopeOf c).isGlobal && s.options.ignoreUndeclaredVariablesInGlobalScope then _
          else _ : AnalysisM UnionType) s { w with types := t } = _
        split <;> rfl

theorem lookedUp_iff {name : String} {line : Nat} {w w₁ : World} {r : Except Failure UnionType}
    (h : variableType? c name = scopeOf c >>= fun x =>
      match x.get? name with
      | some u => pure (some u)
      | none => types (x.providedType name)) :
    LookedUp c s.options name w r w₁ ↔
      ∃ r', resolveOrCreateVariable c name line s w = .ok (r', w₁) ∧ r'.toOption = r.toOption := by
  rw [resolveOrCreateVariable_apply line h]
  constructor
  · rintro (hu | ⟨hnone, hprovided, htype⟩ | ⟨hnone, hnot, hallowed⟩ | ⟨hnone, hnot, hallowed⟩)
    · exact ⟨_, by rw [hu], rfl⟩
    · exact ⟨_, by rw [hnone, htype]; rfl, rfl⟩
    · refine ⟨.ok .empty, ?_, rfl⟩
      rw [hnone, Scope.providedType_of_not_provided hnot, hallowed]
      rfl
    · refine ⟨.error (.issue (undeclaredVariable c (w.scopeOf c) name line)), ?_, rfl⟩
      rw [hnone, Scope.providedType_of_not_provided hnot, hallowed]
      rfl
  · rintro ⟨r', hrun, hr⟩
    split at hrun
    · next u hu =>
      cases hrun
      obtain rfl := toOption_eq_some hr.symm
      exact .found hu
    next hnone =>
    cases hprovided : (w.scopeOf c).isProvided name with
    | true =>
      cases htype : (w.scopeOf c).providedType name w.types with
      | error v =>
        rw [htype] at hrun
        cases hrun
      | ok x =>
        obtain ⟨_ | u, t⟩ := x
        · rw [Scope.isProvided_of_providedType htype] at hprovided
          cases hprovided
        · rw [htype] at hrun
          cases hrun
          obtain rfl := toOption_eq_some hr.symm
          exact .provided hnone hprovided htype
    | false =>
      rw [Scope.providedType_of_not_provided hprovided] at hrun
      change (if (w.scopeOf c).isGlobal && s.options.ignoreUndeclaredVariablesInGlobalScope then _
        else _) = _ at hrun
      split at hrun
      · next hallowed =>
        cases hrun
        obtain rfl := toOption_eq_some hr.symm
        exact .created hnone hprovided hallowed
      · next hallowed =>
        cases hrun
        obtain ⟨f, rfl⟩ := toOption_eq_none hr.symm
        exact .missing hnone hprovided (Bool.eq_false_iff.2 hallowed)

/-- The scope of a context after a variable has come about in it. -/
theorem scopeOf_define {name : String} {w : World} (hglobal : (w.scopeOf c).isGlobal = true) :
    (w.define c name .empty).scopeOf c = (w.scopeOf c).add name .empty := by
  show ((w.scopes.modify c.scope _)[c.scope]?).getD .function = _
  rw [Array.getElem?_modify, if_pos rfl]
  cases hscope : w.scopes[c.scope]? with
  | none =>
    rw [World.scopeOf, hscope] at hglobal
    cases hglobal
  | some x => rw [World.scopeOf, hscope]; rfl

theorem LookedUp.later {name : String} {o : Options} {w w₁ : World} {r : Except Failure UnionType}
    (h : LookedUp c o name w r w₁) (hw : w.Tidy c) (hn : w₁.types.WellNamed) :
    w₁.Tidy c ∧ w.Later c o w₁ := by
  cases h with
  | found _ | missing _ _ _ => exact ⟨hw, .refl hw⟩
  | provided _ _ htype =>
    have hrecurs := (w.scopeOf c).recurs_providedType name
    obtain ⟨hcanonical, hext⟩ := hrecurs.grows hw.canonical htype hn
    have hmoves := (CodeBase.Loads.refl hw.fresh.loadable).moves
    exact ⟨hw.withTypes (hw.fresh.step hcanonical hext (hrecurs.keeps htype).2 hmoves),
      .withTypes hw hext⟩
  | created hnone hnot hallowed =>
    rw [Bool.and_eq_true] at hallowed
    have hfree : (w.scopeOf c).variables.contains name = false := by
      rw [hw.scope.contains_eq_isSome]
      exact Option.isSome_eq_false_iff.2 (Option.isNone_iff_eq_none.2 hnone)
    have hkeeps : (w.scopeOf c).Keeps o ((w.scopeOf c).add name .empty) := by
      refine ⟨rfl, hw.scope.insert _ _, [(name, .empty)], ?_, ?_⟩
      · exact OrderedTable.toList_insert_of_not_contains hfree
      · rintro e (_ | ⟨_, ⟨⟩⟩)
        exact ⟨rfl, hnot, hallowed⟩
    rw [← scopeOf_define hallowed.1] at hkeeps
    exact ⟨⟨hw.fresh, hw.base, hkeeps.valid⟩, ⟨.refl _, .refl hw.base, .refl _, hkeeps⟩⟩

/-- A variable that came about is there later, and one that is missing stays so. -/
theorem LookedUp.again {name : String} {o : Options} {w w₁ w₂ : World}
    {r : Except Failure UnionType} (h : LookedUp c o name w r w₁) (hw : w.Tidy c)
    (hn : w₁.types.WellNamed) (hlater : w₁.Later c o w₂) :
    ∃ w₃, LookedUp c o name w₂ r w₃ ∧ w₃.types.entries = w₂.types.entries := by
  obtain ⟨hw₁, hfirst⟩ := h.later hw hn
  have hscope := hfirst.scope.trans hlater.scope
  have hprovided₂ : (w₂.scopeOf c).isProvided name = (w.scopeOf c).isProvided name := by
    rw [Scope.isProvided, Scope.isProvided, hscope.isGlobal]
  cases h with
  | found hu => exact ⟨w₂, .found (hscope.get?_eq_some hw.scope hu), rfl⟩
  | provided hnone hprovided htype =>
    have hrecurs := (w.scopeOf c).recurs_providedType name
    have htype₂ := hrecurs.again hw.canonical htype hn hlater.types
    have hsame : (w₂.scopeOf c).providedType name = (w.scopeOf c).providedType name := by
      unfold Scope.providedType
      rw [hscope.isGlobal]
    exact ⟨w₂, .provided (hscope.get?_eq_none hw.scope hnone (.inl hprovided))
      (hprovided₂.trans hprovided) (hsame ▸ htype₂), rfl⟩
  | created hnone hnot hallowed =>
    rw [Bool.and_eq_true] at hallowed
    have hmade : ((w.define c name .empty).scopeOf c).get? name = some .empty := by
      rw [scopeOf_define hallowed.1]
      show ((w.scopeOf c).variables.insert name .empty).get? name = _
      rw [hw.scope.get?_insert, if_pos (beq_self_eq_true name)]
    exact ⟨w₂, .found (hlater.scope.get?_eq_some hw₁.scope hmade), rfl⟩
  | missing hnone hnot hallowed =>
    exact ⟨w₂, .missing (hscope.get?_eq_none hw.scope hnone (.inr hallowed))
      (hprovided₂.trans hnot) (hscope.isGlobal ▸ hallowed), rfl⟩

/-- The object that a method belongs to. -/
theorem resolveOrCreateVariable_this {name : String} {owner : ClassName} (line : Nat)
    (h : variableType? c name =
      types (TypeM.classType owner) >>= fun id => pure (some (UnionType.of id))) :
    resolveOrCreateVariable c name line =
      types (TypeM.classType owner) >>= fun id => pure (UnionType.of id) := by
  funext s w
  rw [resolveOrCreateVariable, h, bind_apply, bind_apply, bind_apply, types_apply]
  cases TypeM.classType owner w.types <;> rfl

@[grind ←]
theorem repeats_resolveOrCreateVariable (name : String) (line : Nat) :
    Repeats c s (resolveOrCreateVariable c name line) := by
  rcases variableType?_eq c name with ⟨owner, -, heq⟩ | heq
  · rw [resolveOrCreateVariable_this line heq]
    exact (Repeats.types (TypeM.recurs_classType owner)).bind fun _ => .pure _
  · have hlook : ∀ {w w₁ r}, resolveOrCreateVariable c name line s w = .ok (r, w₁) →
        LookedUp c s.options name w r w₁ := fun h => (lookedUp_iff heq).2 ⟨_, h, rfl⟩
    constructor
    · intro w w₁ r hrun
      cases hlook hrun with
      | provided _ _ htype => exact ⟨((w.scopeOf c).recurs_providedType name |>.keeps htype).1, rfl⟩
      | _ => exact ⟨.refl _, rfl⟩
    · exact fun hw hrun hn => (hlook hrun).later hw hn
    · intro w w₁ w₂ r hw hrun hn _ hlater
      obtain ⟨w₃, hagain, he⟩ := (hlook hrun).again hw hn hlater
      obtain ⟨r', hrun', hr⟩ := (lookedUp_iff heq).1 hagain
      exact ⟨r', w₃, hrun', hr, he⟩

end AnalysisM

end UnionInference
