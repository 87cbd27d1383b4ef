import UnionInference.Proofs.Analysis.Issues
import UnionInference.Proofs.CodeBase.Shallow

/-!
Work on sound worlds. In a sound world the table holds every type that the code base, the scopes and
the stores of results mention, and no walk over the hierarchy is too long. Work runs when it ends
without a violation, in a sound world that holds what was held before; the one violation that it may
end with is a refusal to expand a hierarchy, where the regime allows for it.
-/

namespace UnionInference

/-! ### Names -/

/-- Segments with a backslash between each two of them. -/
def IsPath (s : String) : Prop :=
  ∃ segments, segments ≠ [] ∧ (∀ x ∈ segments, IsSegment x) ∧ '\\' :: s.toList = rootedPath segments

/-- A node may spell the name: it has no bar, its last segment is not empty, and it is a path where
names are strict. -/
structure Regime.Spells (r : Regime) (s : String) : Prop where
  undivided : Text.hasChar s '|' = false
  ends : ∃ c, s.toList.getLast? = some c ∧ isSeparator c = false
  path : r.strict → IsPath s

variable {r : Regime} {name : String}

/-- A name that a node spells denotes a class in every namespace. -/
theorem Regime.Spells.admits (h : r.Spells name) {x : String}
    (hbar : Text.hasChar x '|' = false)
    (hpath : r.strict → ∃ segments, (∀ y ∈ segments, IsSegment y) ∧
      x.toList = rootedPath segments) :
    r.Admits (.ofFullName (x ++ "\\" ++ name)) := by
  obtain ⟨c, hlast, hc⟩ := h.ends
  have hne : name.toList ≠ [] := fun hnil => by simp [hnil] at hlast
  refine ⟨QualifiedName.typable_ofFullName ?_ (QualifiedName.name_ofFullName_ne (c := c) ?_ hc),
    fun hs => ?_⟩
  · have hname := h.undivided
    simp only [Text.hasChar, List.contains_eq_mem, decide_eq_false_iff_not] at hbar hname ⊢
    simp [String.toList_append, hbar, hname]
  · rw [String.toList_append, List.getLast?_append_of_ne_nil _ hne, hlast]
  · obtain ⟨outer, houter, hspace⟩ := hpath hs
    obtain ⟨segments, hnil, hsegments, hname⟩ := h.path hs
    have hne : outer ++ segments ≠ [] := by simp [hnil]
    refine QualifiedName.regular_ofFullName hne
      (fun y hy => (List.mem_append.1 hy).elim (houter y) (hsegments y)) ?_
    have htext : (x ++ "\\" ++ name).toList = rootedPath (outer ++ segments) := by
      rw [rootedPath, List.flatMap_append, ← rootedPath, ← rootedPath, ← hname, ← hspace]
      simp [String.toList_append]
    rw [htext]

theorem Regime.Spells.admits_ofFullName (h : r.Spells name) : r.Admits (.ofFullName name) := by
  have hread : QualifiedName.ofFullName ("" ++ "\\" ++ name) = .ofFullName name := by
    refine QualifiedName.ofFullName_congr ?_
    simp [String.toList_append, isSeparator]
  rw [← hread]
  exact h.admits (by decide) fun _ => ⟨[], by simp, rfl⟩

namespace Context

variable {c : Context}

/-- The names in the context may be those of classes. -/
structure Fits (r : Regime) (c : Context) : Prop where
  undivided : Text.hasChar c.space '|' = false
  path : r.strict → c.space = "\\" ∨ ∃ segments, segments ≠ [] ∧ (∀ x ∈ segments, IsSegment x) ∧
    c.space.toList = rootedPath segments
  imports : ∀ e ∈ c.imports.classes, r.Admits e.2
  owner : ∀ q, c.owner = some q → r.Admits q

theorem Fits.qualify (h : c.Fits r) (hname : r.Spells name) :
    r.Admits (.ofFullName (c.qualify name)) := by
  rw [Context.qualify]
  split
  · exact hname.admits (x := "") (by decide) fun _ => ⟨[], by simp, rfl⟩
  · next hspace =>
    refine hname.admits h.undivided fun hs => ?_
    obtain ⟨segments, -, hsegments, htext⟩ := (h.path hs).resolve_left (by simpa using hspace)
    exact ⟨segments, hsegments, htext⟩

/-- What follows the first segment of a name is such a name again. -/
theorem spells_of_splitFirst (h : r.Spells name) {first rest : String}
    (hsplit : splitFirst name = (first, some rest)) : r.Spells rest := by
  rw [splitFirst] at hsplit
  split at hsplit
  · cases hsplit
  · next d cs hdrop =>
    cases hsplit
    have happend : name.toList = name.toList.takeWhile (fun c => !isSeparator c) ++ d :: cs := by
      rw [← hdrop, List.takeWhile_append_dropWhile]
    have hd : isSeparator d = true := by
      have := List.head?_dropWhile_not (fun c => !isSeparator c) name.toList
      rw [hdrop] at this
      simpa using this
    refine ⟨?_, ?_, fun hs => ?_⟩
    · have hname := h.undivided
      simp only [Text.hasChar, List.contains_eq_mem, decide_eq_false_iff_not] at hname ⊢
      rw [String.toList_ofList]
      intro hmem
      rw [happend] at hname
      exact hname (List.mem_append_right _ (List.mem_cons_of_mem _ hmem))
    · obtain ⟨c, hlast, hc⟩ := h.ends
      refine ⟨c, ?_, hc⟩
      rw [happend, List.getLast?_append_of_ne_nil _ (by simp)] at hlast
      rw [String.toList_ofList]
      cases cs with
      | nil =>
        obtain rfl : d = c := by simpa using hlast
        rw [hd] at hc
        cases hc
      | cons e cs => rwa [List.getLast?_cons_of_ne_nil (by simp)] at hlast
    · obtain ⟨segments, hne, hsegments, htext⟩ := h.path hs
      obtain ⟨x, segments, rfl⟩ := List.exists_cons_of_ne_nil hne
      rw [rootedPath_cons, List.cons.injEq] at htext
      have hx : ∀ c ∈ x, (!isSeparator c) = true := fun c hc => by
        simp [not_isSeparator_of_isSegmentChar ((hsegments x (by simp)).2 c hc)]
      rw [htext.2, List.dropWhile_append_of_pos hx] at hdrop
      cases segments with
      | nil => cases hdrop
      | cons y segments =>
        rw [rootedPath_cons, List.dropWhile_cons_of_neg (by simp [isSeparator])] at hdrop
        refine ⟨y :: segments, by simp, fun z hz => hsegments z (List.mem_cons_of_mem _ hz), ?_⟩
        rw [String.toList_ofList, rootedPath_cons, ← (List.cons.inj hdrop).2]

theorem Fits.class? (h : c.Fits r) {short : String} {q : ClassName}
    (hq : c.imports.class? short = some q) : r.Admits q := by
  obtain ⟨l₁, l₂, hl, -⟩ := List.lookup_eq_some_iff.1 hq
  exact h.imports (Text.fold short, q) (by simp [hl])

theorem Fits.resolveClass (h : c.Fits r) (hname : r.Spells name) (kind : NameKind) :
    r.Admits (c.resolveClass name kind) := by
  cases kind with
  | fullyQualified => exact hname.admits_ofFullName
  | relative => exact h.qualify hname
  | notFullyQualified =>
    simp only [Context.resolveClass]
    split
    · next target hclass _ => exact h.class? hclass
    · next target rest hclass hrest =>
      have hadmits := h.class? hclass
      have hrest : r.Spells rest :=
        spells_of_splitFirst hname (Prod.ext_iff.2 ⟨rfl, hrest⟩)
      refine hrest.admits ?_ fun hs => ?_
      · have hbar := hadmits.typable.undivided
        simp only [Text.hasChar, List.contains_eq_mem, Bool.or_eq_false_iff,
          decide_eq_false_iff_not] at hbar ⊢
        rw [QualifiedName.text]
        split
        · simp [String.toList_append, hbar]
        · simp [String.toList_append, hbar]
      · obtain ⟨segments, -, hsegments, htext⟩ := (hadmits.regular hs).wellFormed
        exact ⟨segments, hsegments, htext⟩
    · exact h.qualify hname

end Context

/-! ### Worlds -/

variable {s : Setup} {w w₁ w₂ : World}

/-- The table holds the types of all variables. -/
def Scope.Inside (t : TypeTable) (x : Scope) : Prop := ∀ e ∈ x.variables.toList, e.2.Inside t

/-- The table holds all results. -/
def CacheInside (t : TypeTable) (m : Std.HashMap Nat UnionType) : Prop :=
  ∀ (k : Nat) (u : UnionType), m[k]? = some u → u.Inside t

/-- The table holds every type that is mentioned, and no walk over the hierarchy is too long. -/
structure World.Sound (r : Regime) (s : Setup) (w : World) : Prop where
  shallow : Shallow r w.types w.base
  scopes : ∀ x ∈ w.scopes, x.Inside w.types
  caches : ∀ m ∈ w.caches, CacheInside w.types m
  whenTrue : ∀ e ∈ s.narrowing.whenTrue, e.2.Inside w.types
  whenFalse : ∀ e ∈ s.narrowing.whenFalse, e.2.Inside w.types

/-- The second world is sound and holds what the first one holds. -/
structure World.Leads (r : Regime) (s : Setup) (w w₁ : World) : Prop where
  continues : Continues w.types w.base w₁.types w₁.base
  sound : w₁.Sound r s

/-- The class is registered. -/
def World.Has (w : World) (name : ClassName) : Prop := ∃ d, w.base.class? name = some d

namespace World

theorem Sound.types (h : w.Sound r s) : w.types.Sound r := h.shallow.types

theorem Sound.base (h : w.Sound r s) : w.base.Sound r w.types := h.shallow.base

theorem Leads.refl (h : w.Sound r s) : w.Leads r s w := ⟨.refl h.base.loadable, h⟩

theorem Leads.trans (h : w.Leads r s w₁) (h₁ : w₁.Leads r s w₂) : w.Leads r s w₂ :=
  ⟨h.continues.trans h₁.continues, h₁.sound⟩

theorem Leads.keeps (h : w.Leads r s w₁) : w.types.Keeps w₁.types := h.continues.types

theorem Leads.has (h : w.Leads r s w₁) {q : ClassName} (hq : w.Has q) : w₁.Has q := by
  obtain ⟨d, hd⟩ := hq
  exact ⟨d, h.continues.base.classes q d hd⟩

theorem Has.regular {q : ClassName} (h : w.Has q) (hw : w.Sound r s) : q.Regular := by
  obtain ⟨d, hd⟩ := h
  exact hw.base.names q d hd

/-- A world with a larger table and code base, and nothing new besides. -/
theorem Sound.leads (h : w.Sound r s) (hc : Continues w.types w.base w₁.types w₁.base)
    (ht : w₁.types.Sound r) (hb : w₁.base.Sound r w₁.types)
    (hscopes : ∀ x ∈ w₁.scopes, x ∈ w.scopes ∨ x.Inside w₁.types)
    (hcaches : ∀ m ∈ w₁.caches, m ∈ w.caches ∨ CacheInside w₁.types m) : w.Leads r s w₁ where
  continues := hc
  sound :=
    { shallow := h.shallow.continues hc ht hb
      scopes := fun x hx => (hscopes x hx).elim
        (fun hx e he => (h.scopes x hx e he).keeps hc.types) id
      caches := fun m hm => (hcaches m hm).elim
        (fun hm k u hu => (h.caches m hm k u hu).keeps hc.types) id
      whenTrue := fun e he => (h.whenTrue e he).keeps hc.types
      whenFalse := fun e he => (h.whenFalse e he).keeps hc.types }

/-- Only the table and the code base change. -/
theorem Sound.leads_of_eq (h : w.Sound r s) (hc : Continues w.types w.base w₁.types w₁.base)
    (ht : w₁.types.Sound r) (hb : w₁.base.Sound r w₁.types) (hscopes : w₁.scopes = w.scopes)
    (hcaches : w₁.caches = w.caches) : w.Leads r s w₁ :=
  h.leads hc ht hb (fun _ hx => .inl (hscopes ▸ hx)) fun _ hm => .inl (hcaches ▸ hm)

theorem Sound.scopeOf (h : w.Sound r s) (c : Context) : (w.scopeOf c).Inside w.types := by
  rw [World.scopeOf]
  cases hx : w.scopes[c.scope]? with
  | none => exact fun e he => by simp [Scope.function, OrderedTable.toList] at he
  | some x => exact h.scopes x (Array.mem_of_getElem? hx)

theorem Sound.cacheOf (h : w.Sound r s) (c : Context) : CacheInside w.types (w.cacheOf c) := by
  rw [World.cacheOf]
  cases hm : w.caches[c.cache]? with
  | none => exact fun k u hu => by simp at hu
  | some m => exact h.caches m (Array.mem_of_getElem? hm)

end World

namespace Scope

variable {t : TypeTable} {x : Scope} {u : UnionType}

theorem Inside.get? (h : x.Inside t) (hu : x.get? name = some u) : u.Inside t := by
  rw [Scope.get?, OrderedTable.get?] at hu
  split at hu
  · obtain ⟨e, he, rfl⟩ := Option.map_eq_some_iff.1 hu
    exact h e (Array.mem_toList_iff.2 (Array.mem_of_getElem? he))
  · cases hu

theorem Inside.add (h : x.Inside t) (name : String) (hu : u.Inside t) : (x.add name u).Inside t := by
  intro e he
  rw [Scope.add, OrderedTable.toList, Array.mem_toList_iff, OrderedTable.insert] at he
  split at he
  · next i _ =>
    obtain ⟨j, hj⟩ := Array.mem_iff_getElem?.1 he
    rw [Array.getElem?_modify] at hj
    split at hj
    · obtain ⟨e', he', rfl⟩ := Option.map_eq_some_iff.1 hj
      exact hu
    · exact h e (Array.mem_toList_iff.2 (Array.mem_of_getElem? hj))
  · rcases Array.mem_push.1 he with he | rfl
    · exact h e (Array.mem_toList_iff.2 he)
    · exact hu

theorem Inside.keeps {t₁ : TypeTable} (h : x.Inside t) (hk : t.Keeps t₁) : x.Inside t₁ :=
  fun e he => (h e he).keeps hk

end Scope

/-- A union that the table holds can be written. -/
theorem UnionType.exists_display {t : TypeTable} {u : UnionType}
    (hu : ∀ i ∈ u.members, i < t.size) : ∃ x, u.display t = .ok x := by
  rw [display]
  cases hfind : u.members.find? fun id => decide (t.size ≤ id) with
  | none => exact ⟨_, rfl⟩
  | some id =>
    have hle := List.find?_some hfind
    rw [decide_eq_true_eq] at hle
    exact absurd (hu id (List.mem_of_find?_eq_some hfind)) (Nat.not_lt.2 hle)

/-! ### Work that runs -/

namespace AnalysisM

variable {α β : Type} {c : Context} {u : UnionType}

/-- The work ends in a sound world that holds what was held before, and what it gives has the
property; it may end with a failure, and where the regime allows for it with the refusal to expand a
hierarchy. -/
def Runs (r : Regime) (s : Setup) (w : World) (p : AnalysisM α) (Q : World → α → Prop) : Prop :=
  (∃ x w₁, p s w = .ok (x, w₁) ∧ w.Leads r s w₁ ∧ ∀ a, x = .ok a → Q w₁ a) ∨
  (r.deep ∧ ∃ key, p s w = .error (.expansionTooDeep key maxExpansionDepth))

variable {p : AnalysisM α} {Q Q' : World → α → Prop} {R : World → β → Prop}

theorem Runs.of_ok {a : α} {x : World} (hrun : p s w = .ok (.ok a, x)) (h : w.Leads r s x)
    (hq : Q x a) :
    Runs r s w p Q :=
  .inl ⟨.ok a, x, hrun, h, fun _ ha => Except.ok.inj ha ▸ hq⟩

theorem Runs.of_fail {f : Failure} (hrun : p s w = .ok (.error f, w₁)) (h : w.Leads r s w₁) :
    Runs r s w p Q :=
  .inl ⟨.error f, w₁, hrun, h, fun _ ha => nomatch ha⟩

/-- What work that runs gives has the property. -/
theorem Runs.post (h : Runs r s w p Q) {a : α} (hrun : p s w = .ok (.ok a, w₁)) :
    w.Leads r s w₁ ∧ Q w₁ a := by
  rcases h with ⟨x, w₂, hrun', hleads, hq⟩ | ⟨-, key, hrun'⟩
  · rw [hrun] at hrun'
    cases hrun'
    exact ⟨hleads, hq a rfl⟩
  · rw [hrun] at hrun'
    cases hrun'

theorem runs_pure (hw : w.Sound r s) {a : α} (h : Q w a) : Runs r s w (pure a) Q :=
  .of_ok rfl (.refl hw) h

theorem runs_fail (hw : w.Sound r s) (f : Failure) : Runs r s w (fail f : AnalysisM α) Q :=
  .of_fail rfl (.refl hw)

theorem runs_failWith (hw : w.Sound r s) (c : Context) (kind : IssueKind) (line : Nat)
    (args : List String) : Runs r s w (failWith c kind line args : AnalysisM α) Q := runs_fail hw _

theorem runs_unanalyzable (hw : w.Sound r s) (n : Node) (reason : String) :
    Runs r s w (unanalyzable n reason : AnalysisM α) Q := runs_fail hw _

/-- One thing after the other. What follows may rely on how the first thing ended. -/
theorem Runs.bind_eq {f : α → AnalysisM β} (hp : Runs r s w p Q)
    (hf : ∀ a w₁, p s w = .ok (.ok a, w₁) → w.Leads r s w₁ → Q w₁ a → Runs r s w₁ (f a) R) :
    Runs r s w (p >>= f) R := by
  rcases hp with ⟨x, w₁, hrun, hleads, hq⟩ | ⟨hdeep, key, hrun⟩
  · cases x with
    | error e =>
      refine .of_fail (f := e) ?_ hleads
      rw [bind_apply, hrun]
    | ok a =>
      have happly : (p >>= f) s w = f a s w₁ := by rw [bind_apply, hrun]
      rcases hf a w₁ hrun hleads (hq a rfl) with ⟨y, w₂, hrun', hleads', hr⟩ | ⟨hdeep, key, hrun'⟩
      · exact .inl ⟨y, w₂, happly.trans hrun', hleads.trans hleads', hr⟩
      · exact .inr ⟨hdeep, key, happly.trans hrun'⟩
  · refine .inr ⟨hdeep, key, ?_⟩
    rw [bind_apply, hrun]

theorem Runs.bind {f : α → AnalysisM β} (hp : Runs r s w p Q)
    (hf : ∀ a w₁, w.Leads r s w₁ → Q w₁ a → Runs r s w₁ (f a) R) : Runs r s w (p >>= f) R :=
  hp.bind_eq fun a w₁ _ => hf a w₁

theorem Runs.imp (hp : Runs r s w p Q)
    (h : ∀ a w₁, w.Leads r s w₁ → Q w₁ a → Q' w₁ a) : Runs r s w p Q' := by
  rcases hp with ⟨x, w₁, hrun, hleads, hq⟩ | hrefused
  · exact .inl ⟨x, w₁, hrun, hleads, fun a ha => h a w₁ hleads (hq a ha)⟩
  · exact .inr hrefused

theorem Runs.map (f : α → β) (hp : Runs r s w p Q)
    (h : ∀ a w₁, w.Leads r s w₁ → Q w₁ a → R w₁ (f a)) : Runs r s w (f <$> p) R :=
  hp.bind fun a w₁ hleads hq => runs_pure hleads.sound (h a w₁ hleads hq)

theorem Runs.recover {handle : Failure → AnalysisM α} (hp : Runs r s w p Q)
    (hf : ∀ f w₁, w.Leads r s w₁ → Runs r s w₁ (handle f) Q) :
    Runs r s w (recover p handle) Q := by
  rcases hp with ⟨x, w₁, hrun, hleads, hq⟩ | ⟨hdeep, key, hrun⟩
  · cases x with
    | ok a =>
      refine .of_ok ?_ hleads (hq a rfl)
      rw [recover_apply, hrun]
    | error f =>
      have happly : AnalysisM.recover p handle s w = handle f s w₁ := by rw [recover_apply, hrun]
      rcases hf f w₁ hleads with ⟨y, w₂, hrun', hleads', hr⟩ | ⟨hdeep, key, hrun'⟩
      · exact .inl ⟨y, w₂, happly.trans hrun', hleads.trans hleads', hr⟩
      · exact .inr ⟨hdeep, key, happly.trans hrun'⟩
  · refine .inr ⟨hdeep, key, ?_⟩
    rw [recover_apply, hrun]

/-! ### Loops -/

theorem runs_foldlM {f : β → α → AnalysisM β} {as : List α} {b : β} (hw : w.Sound r s)
    (hb : R w b)
    (hstep : ∀ b w₁, ∀ a ∈ as, w.Leads r s w₁ → R w₁ b → Runs r s w₁ (f b a) R) :
    Runs r s w (as.foldlM f b) R := by
  induction as generalizing w b with
  | nil => exact runs_pure hw hb
  | cons a as ih =>
    rw [List.foldlM_cons]
    refine (hstep b w a List.mem_cons_self (.refl hw) hb).bind fun b' w₁ h₁ hb' => ?_
    exact ih h₁.sound hb' fun b w₂ a ha h₂ => hstep b w₂ a (List.mem_cons_of_mem _ ha) (h₁.trans h₂)

/-- What is found for each element stays true as the world grows. -/
theorem runs_mapM {f : α → AnalysisM β} {as : List α} (hw : w.Sound r s)
    (hlasts : ∀ w₁ w₂ b, w₁.Leads r s w₂ → R w₁ b → R w₂ b)
    (hstep : ∀ w₁, ∀ a ∈ as, w.Leads r s w₁ → Runs r s w₁ (f a) R) :
    Runs r s w (as.mapM f) fun w₁ bs => ∀ b ∈ bs, R w₁ b := by
  induction as generalizing w with
  | nil => exact runs_pure hw (by simp)
  | cons a as ih =>
    rw [List.mapM_cons]
    refine (hstep w a List.mem_cons_self (.refl hw)).bind fun b w₁ h₁ hb => ?_
    refine (ih h₁.sound fun w₂ a ha h₂ => hstep w₂ a (List.mem_cons_of_mem _ ha) (h₁.trans h₂)).map
      _ fun bs w₂ h₂ hbs => ?_
    exact List.forall_mem_cons.2 ⟨hlasts w₁ w₂ b h₂ hb, hbs⟩

theorem runs_forM {f : α → AnalysisM Unit} {as : List α} (hw : w.Sound r s)
    (hstep : ∀ w₁, ∀ a ∈ as, w.Leads r s w₁ → Runs r s w₁ (f a) fun _ _ => True) :
    Runs r s w (as.forM f) fun _ _ => True := by
  induction as generalizing w with
  | nil => exact runs_pure hw trivial
  | cons a as ih =>
    refine (hstep w a List.mem_cons_self (.refl hw)).bind fun _ w₁ h₁ _ => ?_
    exact ih h₁.sound fun w₂ a ha h₂ => hstep w₂ a (List.mem_cons_of_mem _ ha) (h₁.trans h₂)

theorem runs_anyM {f : α → AnalysisM Bool} {as : List α} (hw : w.Sound r s)
    (hstep : ∀ w₁, ∀ a ∈ as, w.Leads r s w₁ → Runs r s w₁ (f a) fun _ _ => True) :
    Runs r s w (as.anyM f) fun _ _ => True := by
  induction as generalizing w with
  | nil => exact runs_pure hw trivial
  | cons a as ih =>
    refine (hstep w a List.mem_cons_self (.refl hw)).bind fun found w₁ h₁ _ => ?_
    cases found with
    | true => exact runs_pure h₁.sound trivial
    | false => exact ih h₁.sound fun w₂ a ha h₂ => hstep w₂ a (List.mem_cons_of_mem _ ha) (h₁.trans h₂)

theorem runs_andM {p q : AnalysisM Bool} (hp : Runs r s w p fun _ _ => True)
    (hq : ∀ w₁, w.Leads r s w₁ → Runs r s w₁ q fun _ _ => True) :
    Runs r s w (p <&&> q) fun _ _ => True :=
  hp.bind fun b w₁ h₁ _ => by
    cases b with
    | true => exact hq w₁ h₁
    | false => exact runs_pure h₁.sound trivial

theorem runs_orM {p q : AnalysisM Bool} (hp : Runs r s w p fun _ _ => True)
    (hq : ∀ w₁, w.Leads r s w₁ → Runs r s w₁ q fun _ _ => True) :
    Runs r s w (p <||> q) fun _ _ => True :=
  hp.bind fun b w₁ h₁ _ => by
    cases b with
    | true => exact runs_pure h₁.sound trivial
    | false => exact hq w₁ h₁

/-! ### Steps -/

theorem runs_options (hw : w.Sound r s) : Runs r s w options fun _ _ => True :=
  .of_ok rfl (.refl hw) trivial

theorem runs_get (hw : w.Sound r s) : Runs r s w (get : AnalysisM World) fun w₁ x => x = w₁ :=
  .of_ok rfl (.refl hw) rfl

theorem runs_codeBase (hw : w.Sound r s) : Runs r s w codeBase fun w₁ b => b = w₁.base :=
  .of_ok rfl (.refl hw) rfl

theorem runs_scopeOf (hw : w.Sound r s) (c : Context) :
    Runs r s w (scopeOf c) fun w₁ x => x.Inside w₁.types :=
  .of_ok rfl (.refl hw) (hw.scopeOf c)

theorem runs_emit (hw : w.Sound r s) (i : Issue) : Runs r s w (emit i) fun _ _ => True :=
  .of_ok rfl (hw.leads_of_eq (.refl hw.base.loadable) hw.types hw.base rfl rfl) trivial

theorem runs_report (hw : w.Sound r s) (c : Context) (kind : IssueKind) (line : Nat)
    (args : List String) : Runs r s w (report c kind line args) fun _ _ => True := runs_emit hw _

theorem runs_types (hw : w.Sound r s) {work : TypeM α} {P : TypeTable → α → Prop}
    (h : TypeM.Supplies r w.types work P) :
    Runs r s w (types work) fun w₁ a => P w₁.types a := by
  obtain ⟨a, t, hrun, hk, ht, hp⟩ := h
  refine .of_ok (a := a) (x := { w with types := t }) ?_
    (hw.leads_of_eq ⟨hk, .refl hw.base.loadable⟩ ht (hw.base.keeps hk) rfl rfl) hp
  rw [types, hrun]
  rfl

/-- Asking the table changes nothing. -/
theorem runs_query (hw : w.Sound r s) {f : TypeTable → Checked α} {P : α → Prop}
    (h : ∃ a, f w.types = .ok a ∧ P a) : Runs r s w (query f) fun w₁ a => w₁ = w ∧ P a := by
  obtain ⟨a, hrun, hp⟩ := h
  refine .of_ok (a := a) (x := w) ?_ (.refl hw) ⟨rfl, hp⟩
  rw [query, hrun]
  rfl

/-- A question whose answer does not matter. -/
theorem runs_ask (hw : w.Sound r s) {f : TypeTable → Checked α} (h : ∃ a, f w.types = .ok a) :
    Runs r s w (query f) fun _ _ => True := by
  obtain ⟨a, hrun⟩ := h
  exact (runs_query hw (P := fun _ => True) ⟨a, hrun, trivial⟩).imp fun _ _ _ _ => trivial

theorem runs_fetch (hw : w.Sound r s) {i : TypeId} {q : String → Prop}
    (hi : w.types.Holds q i) : Runs r s w (query fun t => t.fetch i) fun w₁ ty =>
      w₁.types.get? i = some ty ∧ w₁.types.HoldsKind q ty.kind := by
  obtain ⟨ty, hrun, hty, hkind⟩ := UnionType.exists_fetch hi
  refine (runs_query hw (P := fun ty => w.types.get? i = some ty ∧ w.types.HoldsKind q ty.kind)
    ⟨ty, hrun, hty, hkind⟩).imp ?_
  rintro _ _ _ ⟨rfl, h⟩
  exact h

theorem runs_base (hw : w.Sound r s) {work : BaseM α} {P : CodeBase → α → Prop}
    (hb : (work w.base).2.Sound r w.types) (hadvances : w.base.Advances (work w.base).2)
    (hp : P (work w.base).2 (work w.base).1) :
    Runs r s w (base work) fun w₁ a => P w₁.base a :=
  .of_ok (x := { w with base := (work w.base).2 }) rfl
    (hw.leads_of_eq ⟨.refl _, hadvances⟩ hw.types hb rfl rfl) hp

theorem runs_hasClass (hw : w.Sound r s) (q : ClassName) :
    Runs r s w (hasClass q) fun w₁ found => found = true → w₁.Has q := by
  obtain ⟨hb, hadvances, hfound⟩ := hw.base.hasClass q
  exact runs_base hw (P := fun b found => found = true → ∃ d, b.class? q = some d) hb hadvances
    hfound

theorem runs_getClass (hw : w.Sound r s) {q : ClassName} (hq : w.Has q) :
    Runs r s w (getClass q) fun w₁ d => d.Sound r w₁.types := by
  obtain ⟨d, hd⟩ := hq
  obtain ⟨b, hrun, hb, hadvances, hdecl⟩ := hw.base.getClass hd
  refine .of_ok (a := d) (x := { w with base := b }) ?_
    (hw.leads_of_eq ⟨.refl _, hadvances⟩ hw.types hb rfl rfl) hdecl
  rw [getClass, hrun]
  rfl

theorem runs_method? (hw : w.Sound r s) (q : ClassName) (name : String) :
    Runs r s w (base (CodeBase.method? q name)) fun w₁ found =>
      ∀ m, found = some m → m.Sound r w₁.types := by
  obtain ⟨hb, hadvances, hfound⟩ := hw.base.method? q name
  refine .of_ok (x := { w with base := _ }) rfl
    (hw.leads_of_eq ⟨.refl _, hadvances⟩ hw.types hb rfl rfl) hfound

theorem runs_property? (hw : w.Sound r s) (q : ClassName) (name : String) :
    Runs r s w (base (CodeBase.property? q name)) fun w₁ found =>
      ∀ x, found = some x → x.Sound w₁.types := by
  obtain ⟨hb, hadvances, hfound⟩ := hw.base.property? q name
  refine .of_ok (x := { w with base := _ }) rfl
    (hw.leads_of_eq ⟨.refl _, hadvances⟩ hw.types hb rfl rfl) hfound

theorem runs_constant? (hw : w.Sound r s) (q : ClassName) (name : String) :
    Runs r s w (base (CodeBase.constant? q name)) fun w₁ found =>
      ∀ k, found = some k → k.type.Inside w₁.types := by
  obtain ⟨hb, hadvances, hfound⟩ := hw.base.constant? q name
  refine .of_ok (x := { w with base := _ }) rfl
    (hw.leads_of_eq ⟨.refl _, hadvances⟩ hw.types hb rfl rfl) hfound

theorem runs_hierarchy (hw : w.Sound r s) {work : ExpandM CodeBase α}
    {P : TypeTable → α → Prop} (h : ExpandM.Ends r w.types w.base r.deep work P) :
    Runs r s w (hierarchy work) fun w₁ a => P w₁.types a := by
  rcases h with ⟨a, t, b, hrun, hc, ht, hb, hp⟩ | ⟨hdeep, key, hrun⟩
  · refine .of_ok (a := a) (x := { w with types := t, base := b }) ?_
      (hw.leads_of_eq hc ht hb rfl rfl) hp
    rw [hierarchy, hrun]
    rfl
  · refine .inr ⟨hdeep, key, ?_⟩
    rw [hierarchy, hrun]
    rfl

theorem runs_isSubclassOf (hw : w.Sound r s) (child ancestor : ClassName) :
    Runs r s w (isSubclassOf child ancestor) fun _ _ => True :=
  runs_hierarchy hw (ExpandM.ends_isSubclassOf hw.shallow child ancestor)

theorem runs_withScope (hw : w.Sound r s) (c : Context) {x : Scope} (hx : x.Inside w.types) :
    Runs r s w (newContext fun w => w.withScope c x) fun _ c₁ => ∃ i, c₁ = { c with scope := i } := by
  refine .of_ok (x := (w.withScope c x).2) rfl ?_ ⟨w.scopes.size, rfl⟩
  refine hw.leads (.refl hw.base.loadable) hw.types hw.base (fun y hy => ?_) fun m hm => .inl hm
  rcases Array.mem_push.1 hy with hy | rfl
  · exact .inl hy
  · exact .inr hx

theorem leads_withVariables (hw : w.Sound r s) (c : Context) {vars : List (String × UnionType)}
    (hvars : ∀ e ∈ vars, e.2.Inside w.types) :
    w.Leads r s (w.withVariables c vars).2 ∧
      ∃ i, (w.withVariables c vars).1 = { c with scope := i } := by
  induction vars generalizing w c with
  | nil => exact ⟨.refl hw, c.scope, rfl⟩
  | cons e vars ih =>
    have hx := (hw.scopeOf c).add e.1 (hvars e List.mem_cons_self)
    have hfirst : w.Leads r s (w.withVariable c e.1 e.2).2 := by
      refine hw.leads (.refl hw.base.loadable) hw.types hw.base (fun y hy => ?_) fun m hm => .inl hm
      rcases Array.mem_push.1 hy with hy | rfl
      · exact .inl hy
      · exact .inr hx
    obtain ⟨hrest, i, hi⟩ := ih hfirst.sound (w.withVariable c e.1 e.2).1 fun e' he' =>
      (hvars e' (List.mem_cons_of_mem _ he')).keeps hfirst.keeps
    exact ⟨hfirst.trans hrest, i, hi⟩

theorem runs_narrow (hw : w.Sound r s) (c : Context) (holds : Bool) :
    Runs r s w (narrow c holds) fun _ c₁ => ∃ i, c₁ = { c with scope := i } := by
  have hvars : ∀ e ∈ (if holds then s.narrowing.whenTrue else s.narrowing.whenFalse),
      e.2.Inside w.types := by
    cases holds
    · exact hw.whenFalse
    · exact hw.whenTrue
  obtain ⟨hleads, hcontext⟩ := leads_withVariables hw c hvars
  exact .of_ok (x := (w.withVariables c _).2) rfl hleads hcontext

/-- A variable of which nothing is known comes about. -/
theorem leads_define (hw : w.Sound r s) (c : Context) (name : String) :
    w.Leads r s (w.define c name .empty) := by
  refine hw.leads (.refl hw.base.loadable) hw.types hw.base (fun y hy => ?_) fun m hm => .inl hm
  obtain ⟨i, hi⟩ := Array.mem_iff_getElem?.1 hy
  rw [World.define, Array.getElem?_modify] at hi
  split at hi
  · obtain ⟨x, hx, rfl⟩ := Option.map_eq_some_iff.1 hi
    exact .inr ((hw.scopes x (Array.mem_of_getElem? hx)).add name UnionType.held_empty)
  · exact .inl (Array.mem_of_getElem? hi)

theorem runs_keep (hw : w.Sound r s) (c : Context) (n : Node) (hu : u.Inside w.types) :
    Runs r s w (keep c n u) fun w₁ v => v.Inside w₁.types := by
  refine .of_ok (x := w.remember c n.id u) rfl ?_ hu
  refine hw.leads (.refl hw.base.loadable) hw.types hw.base (fun x hx => .inl hx) fun m hm => ?_
  obtain ⟨i, hi⟩ := Array.mem_iff_getElem?.1 hm
  rw [World.remember, Array.getElem?_modify] at hi
  split at hi
  · obtain ⟨m', hm', rfl⟩ := Option.map_eq_some_iff.1 hi
    refine .inr fun k v hv => ?_
    rw [Std.HashMap.getElem?_insert] at hv
    split at hv
    · cases hv
      exact hu
    · exact hw.caches m' (Array.mem_of_getElem? hm') k v hv
  · exact .inl (Array.mem_of_getElem? hi)

theorem runs_display (hw : w.Sound r s) (hu : u.Inside w.types) :
    Runs r s w (display u) fun _ _ => True :=
  (runs_ask hw (UnionType.exists_display fun i hi => (hu i hi).lt_size)).bind fun _ _ h₁ _ =>
    runs_pure h₁.sound trivial

end AnalysisM

end UnionInference
