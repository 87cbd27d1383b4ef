import UnionInference.Proofs.Analysis.Transparency
import UnionInference.Proofs.CodeBase.Counterparts
import UnionInference.Proofs.Types.TallyingPlaceholders

/-!
Evaluations from one world that are compared. An evaluation comes to its result once more, without
any store, at a time when the table holds all types that it asks for. The tables at the ends of two
evaluations may hold different types, and the same ones in different places; the classes and the
variables are those of the world that both began with. Work that is done on either side comes to
results that are related whenever it comes to results.
-/

namespace UnionInference

namespace AnalysisM

variable {α β γ δ : Type} {c : Context} {s : Setup} {w w₁ w₂ : World} {T : TypeTable}

/-! ### Types that are kept -/

theorem types_withVariables (w : World) (c : Context)
    (vars : List (String × UnionType)) : (w.withVariables c vars).2.types = w.types := by
  induction vars generalizing w c with
  | nil => rfl
  | cons e vars ih => exact ih ..

/-- No step of an evaluation takes a type from its place. -/
theorem Built.keeps {p : AnalysisM α} (h : Built p) {r : Except Failure α}
    (hrun : p s w = .ok (r, w₁)) : w.types.Keeps w₁.types := by
  have hbase : ∀ {γ : Type} {work : BaseM γ} {w w₁ : World} {r : Except Failure γ},
      base work s w = .ok (r, w₁) → w.types.Keeps w₁.types := by
    rintro γ work w w₁ r ⟨⟩
    exact .refl _
  induction h generalizing w w₁ with
  | pure | fail | read | get | emit | keep =>
    cases hrun
    exact .refl _
  | bind _ _ hp hf =>
    rw [bind_apply] at hrun
    split at hrun
    · next hfirst => exact (hp hfirst).trans (hf _ hrun)
    · next hfirst =>
      cases hrun
      exact hp hfirst
    · cases hrun
  | recover _ _ hp hf =>
    rw [recover_apply] at hrun
    split at hrun
    · next hfirst =>
      cases hrun
      exact hp hfirst
    · next hfirst => exact (hp hfirst).trans (hf _ hrun)
    · cases hrun
  | types hwork =>
    obtain ⟨a, t, ht, -, rfl⟩ := types_eq_ok.1 hrun
    exact (hwork.keeps ht).1
  | query f =>
    obtain ⟨a, -, -, rfl⟩ := query_eq_ok.1 hrun
    exact .refl _
  | hasClass | method? | property? | constant? => exact hbase hrun
  | getClass name =>
    obtain ⟨d, b, -, -, rfl⟩ := getClass_eq_ok.1 hrun
    exact .refl _
  | hasAncestor u owner =>
    obtain ⟨a, t, b, h, -, rfl⟩ := hierarchy_eq_ok.1 hrun
    exact (ExpandM.keepsTypes_hasAncestor u owner).keeps h
  | isSubclassOf child ancestor =>
    -- the context makes no difference
    let c : Context := { file := "", scope := 0, cache := 0 }
    exact ((Repeats.isSubclassOf (c := c) child ancestor).keeps hrun).1
  | withScope c scope =>
    cases hrun
    exact .refl _
  | withVariables c vars =>
    cases hrun
    rw [types_withVariables]
    exact .refl _
  | resolveOrCreateVariable c name line =>
    exact ((repeats_resolveOrCreateVariable (c := c) name line).keeps hrun).1

/-! ### Work without stores -/

/-- Without stores the work goes on from a session to a later time of it, and keeps types in their
places. -/
structure Proceeds (c : Context) (s : Setup) (p : AnalysisM α) : Prop where
  keeps : ∀ {w w₁ : World} {r : Except Failure α}, p s w = .ok (r, w₁) → w.types.Keeps w₁.types
  later : ∀ {w w₁ : World} {r : Except Failure α}, w.Tidy c → w.caches = #[] →
    p s w = .ok (r, w₁) → w₁.types.WellNamed → w₁.Tidy c ∧ w.Later c s.options w₁ ∧ w₁.caches = #[]

@[grind ←]
theorem Repeats.proceeds {p : AnalysisM α} (h : Repeats c s p) : Proceeds c s p where
  keeps hrun := (h.keeps hrun).1
  later hw hcaches hrun hn := by
    obtain ⟨hw₁, hlater⟩ := h.later hw hrun hn
    exact ⟨hw₁, hlater, (h.keeps hrun).2.trans hcaches⟩

theorem Echoes.proceeds {root : Child} {p q : AnalysisM α} (h : Echoes root c s p q) :
    Proceeds c s p where
  keeps hrun := (h.keeps hrun).1
  later {w w₁ r} hw hcaches hrun hn := by
    have hempty : w.cacheOf c = {} := by rw [World.cacheOf, hcaches]; rfl
    obtain ⟨hw₁, hlater, -⟩ := h.echo (fair_of_empty hw hempty) hrun hn
    have hsize := (h.keeps hrun).2
    rw [hcaches] at hsize
    exact ⟨hw₁.tidy, hlater, Array.size_eq_zero_iff.1 hsize⟩

namespace Proceeds

theorem pure (a : α) : Proceeds c s (pure a : AnalysisM α) := (Repeats.pure a).proceeds

theorem bind {p : AnalysisM α} {f : α → AnalysisM β} (hp : Proceeds c s p)
    (hf : ∀ a, Proceeds c s (f a)) : Proceeds c s (p >>= f) where
  keeps {w w₁ r} hrun := by
    rw [bind_apply] at hrun
    split at hrun
    · next hfirst => exact (hp.keeps hfirst).trans ((hf _).keeps hrun)
    · next hfirst =>
      cases hrun
      exact hp.keeps hfirst
    · cases hrun
  later {w w₁ r} hw hcaches hrun hn := by
    rw [bind_apply] at hrun
    split at hrun
    · next hfirst =>
      obtain ⟨hw', hlater, hcaches'⟩ :=
        hp.later hw hcaches hfirst (hn.of_keeps ((hf _).keeps hrun))
      obtain ⟨hw₁, hlater', hcaches₁⟩ := (hf _).later hw' hcaches' hrun hn
      exact ⟨hw₁, hlater.trans hlater', hcaches₁⟩
    · next hfirst =>
      cases hrun
      exact hp.later hw hcaches hfirst hn
    · cases hrun

theorem mapM {f : α → AnalysisM β} {as : List α} (h : ∀ a ∈ as, Proceeds c s (f a)) :
    Proceeds c s (as.mapM f) := by
  induction as with
  | nil => exact pure []
  | cons a as ih =>
    rw [List.mapM_cons]
    refine (h a List.mem_cons_self).bind fun b => ?_
    exact (ih fun a' ha => h a' (List.mem_cons_of_mem a ha)).bind fun bs => pure _

theorem foldlM {f : β → α → AnalysisM β} {as : List α} (h : ∀ b, ∀ a ∈ as, Proceeds c s (f b a))
    (b : β) : Proceeds c s (as.foldlM f b) := by
  induction as generalizing b with
  | nil => exact pure b
  | cons a as ih =>
    exact (h b a List.mem_cons_self).bind (ih fun b a' ha => h b a' (List.mem_cons_of_mem a ha))

end Proceeds

/-! ### Work on all types that it asks for -/

/-- The world is the first one at a later time, without stores and with the types of the table. -/
structure Rests (c : Context) (s : Setup) (w₀ : World) (T : TypeTable) (w : World) : Prop where
  tidy : w.Tidy c
  later : w₀.Later c s.options w
  entries : w.types.entries = T.entries
  stores : w.caches = #[]

/-- At some time at which there are all the types of the table, the work comes to the result and adds
no types; or it fails, if there is no result. -/
def Yields (c : Context) (s : Setup) (w₀ : World) (T : TypeTable) (p : AnalysisM α)
    (o : Option α) : Prop :=
  ∃ w w₁ r, Rests c s w₀ T w ∧ Rests c s w₀ T w₁ ∧ p s w = .ok (r, w₁) ∧ r.toOption = o

namespace Yields

variable {w₀ : World} {p : AnalysisM α} {a : α} {o : Option α}

theorem of_run {r : Except Failure α} (hp : Proceeds c s p) (hw : Rests c s w₀ T w)
    (hrun : p s w = .ok (r, w₁)) (he : w₁.types.entries = T.entries) :
    Yields c s w₀ T p r.toOption := by
  have hn : w₁.types.WellNamed := hw.tidy.wellNamed.of_entries (he.trans hw.entries.symm)
  obtain ⟨hw₁, hlater, hcaches⟩ := hp.later hw.tidy hw.stores hrun hn
  exact ⟨w, w₁, r, hw, ⟨hw₁, hw.later.trans hlater, he, hcaches⟩, hrun, rfl⟩

theorem pure_eq (h : Yields c s w₀ T (pure a) o) : o = some a := by
  obtain ⟨w, w₁, r, -, -, hrun, rfl⟩ := h
  cases hrun
  rfl

theorem fail_eq {f : Failure} (h : Yields c s w₀ T (fail f : AnalysisM α) o) : o = none := by
  obtain ⟨w, w₁, r, -, -, hrun, rfl⟩ := h
  cases hrun
  rfl

/-- Work in two steps comes to what the second step comes to after the first one, or the first step
fails. -/
theorem bind_inv {f : α → AnalysisM β} {o : Option β} (h : Yields c s w₀ T (p >>= f) o)
    (hp : Proceeds c s p) (hf : ∀ a, Built (f a)) :
    (∃ a, Yields c s w₀ T p (some a) ∧ Yields c s w₀ T (f a) o) ∨
      Yields c s w₀ T p none ∧ o = none := by
  obtain ⟨w, w₂, r, hw, hw₂, hrun, rfl⟩ := h
  rw [bind_apply] at hrun
  split at hrun
  · next a w₁ hfirst =>
    -- the types after the first step are between those before it and those in the end
    have he : w₁.types.entries = T.entries :=
      ((hp.keeps hfirst).entries_eq ((hf a).keeps hrun) (hw₂.entries.trans hw.entries.symm)).trans
        hw.entries
    have hn : w₁.types.WellNamed := hw.tidy.wellNamed.of_entries (he.trans hw.entries.symm)
    obtain ⟨hw₁, hlater, hcaches⟩ := hp.later hw.tidy hw.stores hfirst hn
    have hrests : Rests c s w₀ T w₁ := ⟨hw₁, hw.later.trans hlater, he, hcaches⟩
    exact .inl ⟨a, ⟨w, w₁, _, hw, hrests, hfirst, rfl⟩, ⟨w₁, w₂, r, hrests, hw₂, hrun, rfl⟩⟩
  · next f w₁ hfirst =>
    cases hrun
    exact .inr ⟨⟨w, w₂, _, hw, hw₂, hfirst, rfl⟩, rfl⟩
  · cases hrun

/-- Going on after a failure, with a fixed result and perhaps a report, keeps the result. -/
theorem recover_inv {handle : Failure → AnalysisM α} (h : Yields c s w₀ T (recover p handle) o)
    (hf : ∀ f w, ∃ log, handle f s w = .ok (.ok a, { w with issues := log })) :
    ∃ o', Yields c s w₀ T p o' ∧ o = some (o'.getD a) := by
  obtain ⟨w, w₂, r, hw, hw₂, hrun, rfl⟩ := h
  rw [recover_apply] at hrun
  split at hrun
  · next a w₁ hfirst =>
    cases hrun
    exact ⟨some a, ⟨w, w₂, _, hw, hw₂, hfirst, rfl⟩, rfl⟩
  · next f w₁ hfirst =>
    obtain ⟨log, hlog⟩ := hf f w₁
    cases hlog.symm.trans hrun
    have hrests : Rests c s w₀ T w₁ :=
      ⟨hw₂.tidy.withLog w₁.issues w₁.caches, hw₂.later.withLog w₁.issues w₁.caches, hw₂.entries,
        hw₂.stores⟩
    exact ⟨none, ⟨w, w₁, _, hw, hrests, hfirst, rfl⟩, rfl⟩
  · cases hrun

theorem mapM_inv {f : β → AnalysisM γ} {as : List β} {o : Option (List γ)}
    (h : Yields c s w₀ T (as.mapM f) o) (hp : ∀ b ∈ as, Proceeds c s (f b))
    (hf : ∀ b, Built (f b)) :
    (∃ bs, o = some bs ∧ List.Forall₂ (fun b c' => Yields c s w₀ T (f b) (some c')) as bs) ∨
      o = none ∧ ∃ b ∈ as, Yields c s w₀ T (f b) none := by
  induction as generalizing o with
  | nil => exact .inl ⟨[], h.pure_eq, .nil⟩
  | cons b as ih =>
    have hrest := fun b' hb => hp b' (List.mem_cons_of_mem b hb)
    rw [List.mapM_cons] at h
    rcases h.bind_inv (hp b List.mem_cons_self)
      fun x => (Built.mapM hf as).bind fun xs => .pure _ with
      ⟨x, hx, h⟩ | ⟨hnone, rfl⟩
    · rcases h.bind_inv (Proceeds.mapM hrest) fun xs => .pure _ with ⟨xs, hxs, h⟩ | ⟨hnone, rfl⟩
      · rcases ih hxs hrest with ⟨ys, hys, hall⟩ | ⟨hxs, -⟩
        · cases hys
          exact .inl ⟨x :: xs, h.pure_eq, .cons hx hall⟩
        · cases hxs
      · rcases ih hnone hrest with ⟨ys, hys, -⟩ | ⟨-, b', hb', hfail⟩
        · cases hys
        · exact .inr ⟨rfl, b', List.mem_cons_of_mem b hb', hfail⟩
    · exact .inr ⟨rfl, b, List.mem_cons_self, hnone⟩

theorem anyM_inv {f : β → AnalysisM Bool} {as : List β} {o : Option Bool}
    (h : Yields c s w₀ T (as.anyM f) o) (hp : ∀ b ∈ as, Proceeds c s (f b))
    (hf : ∀ b, Built (f b)) (hsome : ∀ b ∈ as, ¬ Yields c s w₀ T (f b) none) :
    o = some true ∧ (∃ b ∈ as, Yields c s w₀ T (f b) (some true)) ∨
      o = some false ∧ ∀ b ∈ as, Yields c s w₀ T (f b) (some false) := by
  induction as generalizing o with
  | nil => exact .inr ⟨h.pure_eq, nofun⟩
  | cons b as ih =>
    rw [List.anyM] at h
    rcases h.bind_inv (hp b List.mem_cons_self) fun found => by cases found <;> grind with
      ⟨found, hfound, h⟩ | ⟨hnone, -⟩
    · cases found with
      | true => exact .inl ⟨h.pure_eq, b, List.mem_cons_self, hfound⟩
      | false =>
        rcases ih h (fun b' hb => hp b' (List.mem_cons_of_mem b hb))
          (fun b' hb => hsome b' (List.mem_cons_of_mem b hb)) with ⟨rfl, b', hb', hb⟩ | ⟨rfl, hall⟩
        · exact .inl ⟨rfl, b', List.mem_cons_of_mem b hb', hb⟩
        · exact .inr ⟨rfl, List.forall_mem_cons.2 ⟨hfound, hall⟩⟩
    · exact absurd hnone (hsome b List.mem_cons_self)

theorem types_inv {work : TypeM α} (hwork : TypeM.Recurs work) (hT : T.Canonical)
    (h : Yields c s w₀ T (types work) o) : ∃ a, o = some a ∧ TypeM.Yields T work a := by
  obtain ⟨w, w₁, r, hw, hw₁, hrun, rfl⟩ := h
  obtain ⟨a, t, ht, rfl, rfl⟩ := types_eq_ok.1 hrun
  exact ⟨a, rfl, hwork.yields hT hw.tidy.canonical hw.entries ht hw₁.entries⟩

theorem query_inv {f : TypeTable → Checked α} [hf : TypeTable.Lasting f]
    (h : Yields c s w₀ T (query f) o) : ∃ a, o = some a ∧ f T = .ok a := by
  obtain ⟨w, w₁, r, hw, -, hrun, rfl⟩ := h
  obtain ⟨a, ha, rfl, rfl⟩ := query_eq_ok.1 hrun
  exact ⟨a, rfl, hf.upholds (TypeTable.keeps_of_entries hw.entries) a ha⟩

end Yields

end AnalysisM

/-! ### Two tables -/

/-- The ends of two evaluations from one world: their tables, and the world that both began with. -/
structure Comparison (r : Regime) where
  context : Context
  setup : Setup
  start : World
  left : TypeTable
  right : TypeTable
  siblings : TypeTable.Siblings r start.types left right
  tidy : start.Tidy context
  sound : start.Sound r setup
  fits : context.Fits r
  acyclic : start.base.Acyclic

namespace Comparison

open AnalysisM

variable {r : Regime} (x : Comparison r) {α β γ δ : Type}

/-- What the work comes to on the types of the first table. -/
abbrev Left (p : AnalysisM α) (o : Option α) : Prop :=
  AnalysisM.Yields x.context x.setup x.start x.left p o

/-- What the work comes to on the types of the second table. -/
abbrev Right (p : AnalysisM α) (o : Option α) : Prop :=
  AnalysisM.Yields x.context x.setup x.start x.right p o

/-- Without stores the work goes on to a later time. -/
abbrev Proceeds (p : AnalysisM α) : Prop := AnalysisM.Proceeds x.context x.setup p

/-- Both pieces of work come to results, which are related, or both fail. -/
def Tallies (A : α → β → Prop) (p : AnalysisM α) (q : AnalysisM β) : Prop :=
  ∀ o o', x.Left p o → x.Right q o' → Option.Rel A o o'

/-- Two pieces of work go on to later times, and what follows them only adds to the types. -/
abbrev Chains (p : AnalysisM α) (q : AnalysisM β) (f : α → AnalysisM γ) (g : β → AnalysisM δ) :
    Prop :=
  x.Proceeds p ∧ x.Proceeds q ∧ (∀ a, Built (f a)) ∧ ∀ b, Built (g b)

/-- The rounds of two loops go on to later times and only add to the types. -/
abbrev Rounds (as : List α) (bs : List β) (f : α → AnalysisM γ) (g : β → AnalysisM δ) : Prop :=
  (∀ a ∈ as, x.Proceeds (f a)) ∧ (∀ b ∈ bs, x.Proceeds (g b)) ∧ (∀ a, Built (f a)) ∧ ∀ b, Built (g b)

/-- The tables in the other order. -/
def flip : Comparison r := { x with left := x.right, right := x.left, siblings := x.siblings.flip }

namespace Tallies

variable {x} {A : α → β → Prop} {B : γ → δ → Prop} {p : AnalysisM α} {q : AnalysisM β}

theorem imp {A' : α → β → Prop} (h : x.Tallies A p q) (hA : ∀ a b, A a b → A' a b) :
    x.Tallies A' p q := by
  intro o o' hl hr
  obtain ⟨hab⟩ | _ := h o o' hl hr
  · exact .some (hA _ _ hab)
  · exact .none

theorem flip (h : x.Tallies A p q) : x.flip.Tallies (fun b a => A a b) q p := by
  intro o o' hl hr
  obtain ⟨hab⟩ | _ := h o' o hr hl
  · exact .some hab
  · exact .none

theorem pure {a : α} {b : β} (h : A a b) : x.Tallies A (pure a) (pure b) := by
  intro o o' hl hr
  rw [hl.pure_eq, hr.pure_eq]
  exact .some h

theorem fail (f g : Failure) : x.Tallies A (fail f) (AnalysisM.fail g) := by
  intro o o' hl hr
  rw [hl.fail_eq, hr.fail_eq]
  exact .none

theorem bind {f : α → AnalysisM γ} {g : β → AnalysisM δ} (h : x.Tallies A p q)
    (hs : x.Chains p q f g) (hfg : ∀ a b, A a b → x.Tallies B (f a) (g b)) :
    x.Tallies B (p >>= f) (q >>= g) := by
  intro o o' hl hr
  obtain ⟨hp, hq, hf, hg⟩ := hs
  rcases hl.bind_inv hp hf with ⟨a, ha, hl⟩ | ⟨ha, rfl⟩
  · rcases hr.bind_inv hq hg with ⟨b, hb, hr⟩ | ⟨hb, rfl⟩
    · obtain ⟨hab⟩ := h _ _ ha hb
      exact hfg a b hab _ _ hl hr
    · cases h _ _ ha hb
  · rcases hr.bind_inv hq hg with ⟨b, hb, hr⟩ | ⟨hb, rfl⟩
    · cases h _ _ ha hb
    · exact .none

theorem map {f : α → γ} {g : β → δ} (h : x.Tallies A p q) (hs : x.Proceeds p ∧ x.Proceeds q)
    (hfg : ∀ a b, A a b → B (f a) (g b)) : x.Tallies B (f <$> p) (g <$> q) :=
  h.bind ⟨hs.1, hs.2, fun _ => .pure _, fun _ => .pure _⟩ fun a b hab => pure (hfg a b hab)

/-- Going on after a failure, with related results and perhaps a report. -/
theorem recover {handle : Failure → AnalysisM α} {handle' : Failure → AnalysisM β} {a : α} {b : β}
    (h : x.Tallies A p q) (hab : A a b)
    (hf : ∀ f w, ∃ log, handle f x.setup w = .ok (.ok a, { w with issues := log }))
    (hg : ∀ f w, ∃ log, handle' f x.setup w = .ok (.ok b, { w with issues := log })) :
    x.Tallies A (recover p handle) (AnalysisM.recover q handle') := by
  intro o o' hl hr
  obtain ⟨y, hy, rfl⟩ := hl.recover_inv hf
  obtain ⟨z, hz, rfl⟩ := hr.recover_inv hg
  obtain ⟨hyz⟩ | _ := h y z hy hz
  · exact .some hyz
  · exact .some hab

/-! ### Types -/

theorem types {work : TypeM α} {work' : TypeM β} (h : TypeM.Tallies x.left x.right A work work') :
    x.Tallies A (types work) (AnalysisM.types work') := by
  intro o o' hl hr
  obtain ⟨a, rfl, ha⟩ := hl.types_inv h.left x.siblings.canonical
  obtain ⟨b, rfl, hb⟩ := hr.types_inv h.right x.siblings.canonical'
  exact .some (h.tally a b ha hb)

theorem query {f : TypeTable → Checked α} {g : TypeTable → Checked β} [TypeTable.Lasting f]
    [TypeTable.Lasting g] (h : ∃ a b, f x.left = .ok a ∧ g x.right = .ok b ∧ A a b) :
    x.Tallies A (query f) (AnalysisM.query g) := by
  intro o o' hl hr
  obtain ⟨a, b, ha, hb, hab⟩ := h
  obtain ⟨a', rfl, ha'⟩ := hl.query_inv
  obtain ⟨b', rfl, hb'⟩ := hr.query_inv
  cases ha.symm.trans ha'
  cases hb.symm.trans hb'
  exact .some hab

/-! ### Loops -/

section Loops

variable {R : γ → δ → Prop} {f : γ → AnalysisM α} {g : δ → AnalysisM β} {as : List γ} {bs : List δ}

/-- Where rounds that match are related, no loop fails alone. -/
theorem mapM_none (h : Matched R as bs) (hfg : ∀ a ∈ as, ∀ b ∈ bs, R a b → x.Tallies A (f a) (g b))
    (hfail : ∃ a ∈ as, x.Left (f a) none) {ys : List β}
    (hall : List.Forall₂ (fun b y => x.Right (g b) (some y)) bs ys) : False := by
  obtain ⟨a, ha, hfail⟩ := hfail
  obtain ⟨b, hb, hab⟩ := h.forth a ha
  obtain ⟨y, -, hy⟩ := (Matched.of_forall₂ hall).forth b hb
  cases hfg a ha b hb hab _ _ hfail hy

/-- In step through rows that are related row by row. -/
theorem mapM_forall₂ (h : List.Forall₂ R as bs) (hs : x.Rounds as bs f g)
    (hfg : ∀ a ∈ as, ∀ b ∈ bs, R a b → x.Tallies A (f a) (g b)) :
    x.Tallies (List.Forall₂ A) (as.mapM f) (bs.mapM g) := by
  intro o o' hl hr
  obtain ⟨hp, hq, hf, hg⟩ := hs
  have hmatched := Matched.of_forall₂ h
  rcases hl.mapM_inv hp hf with ⟨xs, rfl, hxs⟩ | ⟨rfl, hfail⟩
  · rcases hr.mapM_inv hq hg with ⟨ys, rfl, hys⟩ | ⟨rfl, hfail⟩
    · refine .some ?_
      clear hl hr hp hq hmatched
      induction h generalizing xs ys with
      | nil =>
        cases hxs
        cases hys
        exact .nil
      | cons hab _ ih =>
        obtain _ | ⟨hx, hxs⟩ := hxs
        obtain _ | ⟨hy, hys⟩ := hys
        obtain ⟨hxy⟩ := hfg _ List.mem_cons_self _ List.mem_cons_self hab _ _ hx hy
        exact .cons hxy (ih (fun a ha b hb =>
          hfg a (List.mem_cons_of_mem _ ha) b (List.mem_cons_of_mem _ hb)) _ hxs _ hys)
    · exact (mapM_none (x := x.flip) hmatched.flip
        (fun b hb a ha hab => (hfg a ha b hb hab).flip) hfail hxs).elim
  · rcases hr.mapM_inv hq hg with ⟨ys, rfl, hys⟩ | ⟨rfl, -⟩
    · exact (mapM_none hmatched hfg hfail hys).elim
    · exact .none

/-- Through the elements of lists that match, in whatever order they come. -/
theorem mapM_matched (h : Matched R as bs) (hs : x.Rounds as bs f g)
    (hfg : ∀ a ∈ as, ∀ b ∈ bs, R a b → x.Tallies A (f a) (g b)) :
    x.Tallies (Matched A) (as.mapM f) (bs.mapM g) := by
  intro o o' hl hr
  obtain ⟨hp, hq, hf, hg⟩ := hs
  rcases hl.mapM_inv hp hf with ⟨xs, rfl, hxs⟩ | ⟨rfl, hfail⟩
  · rcases hr.mapM_inv hq hg with ⟨ys, rfl, hys⟩ | ⟨rfl, hfail⟩
    · refine .some (h.rows hxs hys fun a ha b hb hab y z hy hz => ?_)
      obtain ⟨hyz⟩ := hfg a ha b hb hab _ _ hy hz
      exact hyz
    · exact (mapM_none (x := x.flip) h.flip (fun b hb a ha hab => (hfg a ha b hb hab).flip)
        hfail hxs).elim
  · rcases hr.mapM_inv hq hg with ⟨ys, rfl, hys⟩ | ⟨rfl, -⟩
    · exact (mapM_none h hfg hfail hys).elim
    · exact .none

/-- Loops whose rounds make something of an element and add it, in whatever order the elements come,
where what comes of adding it does not depend on the order. -/
theorem foldlM_matched {S : Type} {S' : Type} {C : S → S' → Prop} {round : S → γ → AnalysisM S}
    {round' : S' → δ → AnalysisM S'} {step : S → α → S} {step' : S' → β → S'} {c : S} {d : S'}
    (hround : ∀ c a, round c a = step c <$> f a) (hround' : ∀ d b, round' d b = step' d <$> g b)
    (h : Matched R as bs) (hs : x.Rounds as bs f g)
    (hfg : ∀ a ∈ as, ∀ b ∈ bs, R a b → x.Tallies A (f a) (g b))
    (hstep : ∀ xs ys, Matched A xs ys → C (xs.foldl step c) (ys.foldl step' d)) :
    x.Tallies C (as.foldlM round c) (bs.foldlM round' d) := by
  obtain rfl : round = fun c a => do return step c (← f a) :=
    funext₂ fun c a => (hround c a).trans (map_eq_pure_bind _ _)
  obtain rfl : round' = fun d b => do return step' d (← g b) :=
    funext₂ fun d b => (hround' d b).trans (map_eq_pure_bind _ _)
  rw [foldlM_eq_mapM, foldlM_eq_mapM]
  exact (mapM_matched h hs hfg).bind
    ⟨.mapM hs.1, .mapM hs.2.1, fun _ => .pure _, fun _ => .pure _⟩
    fun _ _ hall => pure (hstep _ _ hall)

/-- Loops that add to a list what they would add to nothing. -/
theorem foldlM_add {round : List α → γ → AnalysisM (List α)}
    {round' : List β → δ → AnalysisM (List β)} (add : List α → List α → List α)
    (add' : List β → List β → List β) {found : List α} {found' : List β} (h : Matched R as bs)
    (hs : x.Rounds as bs (round []) (round' []))
    (hfg : ∀ a ∈ as, ∀ b ∈ bs, R a b → x.Tallies (Matched A) (round [] a) (round' [] b))
    (hround : ∀ found a, round found a = add found <$> round [] a)
    (hround' : ∀ found b, round' found b = add' found <$> round' [] b)
    (hadd : ∀ xs ys, Matched (Matched A) xs ys →
      Matched A (xs.foldl add found) (ys.foldl add' found')) :
    x.Tallies (Matched A) (as.foldlM round found) (bs.foldlM round' found') :=
  foldlM_matched hround hround' h hs hfg hadd

/-- Loops that append what comes of each element. -/
theorem foldlM_append {round : List α → γ → AnalysisM (List α)}
    {round' : List β → δ → AnalysisM (List β)} (h : Matched R as bs)
    (hs : x.Rounds as bs (round []) (round' []))
    (hfg : ∀ a ∈ as, ∀ b ∈ bs, R a b → x.Tallies (Matched A) (round [] a) (round' [] b))
    (hround : ∀ found a, round found a = (fun more => found ++ more) <$> round [] a)
    (hround' : ∀ found b, round' found b = (fun more => found ++ more) <$> round' [] b) :
    x.Tallies (Matched A) (as.foldlM round []) (bs.foldlM round' []) := by
  refine foldlM_add (· ++ ·) (· ++ ·) h hs hfg hround hround' fun xs ys hxy => ?_
  have hall := Matched.flatMap (f := id) (g := id) hxy fun _ _ _ _ hab => hab
  rwa [List.flatMap_eq_foldl, List.flatMap_eq_foldl] at hall

/-- The union of what comes of each element. -/
theorem foldlM_union {f : γ → AnalysisM UnionType} {g : δ → AnalysisM UnionType}
    {round : UnionType → γ → AnalysisM UnionType} {round' : UnionType → δ → AnalysisM UnionType}
    (hround : ∀ u a, round u a = u.union <$> f a) (hround' : ∀ u b, round' u b = u.union <$> g b)
    (h : Matched R as bs) (hs : x.Rounds as bs f g)
    (hfg : ∀ a ∈ as, ∀ b ∈ bs, R a b → x.Tallies (x.left.SameTypes x.right) (f a) (g b)) :
    x.Tallies (x.left.SameTypes x.right) (as.foldlM round UnionType.empty)
      (bs.foldlM round' UnionType.empty) :=
  foldlM_matched hround hround' h hs hfg fun _ _ hxy => .foldl_union hxy .empty

/-- A loop through one list, in which what was found is related from round to round. -/
theorem foldlM {f : α → γ → AnalysisM α} {g : β → γ → AnalysisM β} {a : α} {b : β} (hab : A a b)
    (hs : ∀ a b, x.Rounds as as (f a) (g b))
    (hfg : ∀ a b, ∀ k ∈ as, A a b → x.Tallies A (f a k) (g b k)) :
    x.Tallies A (as.foldlM f a) (as.foldlM g b) := by
  induction as generalizing a b with
  | nil => exact pure hab
  | cons k as ih =>
    rw [List.foldlM_cons, List.foldlM_cons]
    refine (hfg a b k List.mem_cons_self hab).bind ⟨(hs a b).1 k List.mem_cons_self,
      (hs a b).2.1 k List.mem_cons_self, fun _ => .foldlM (fun a' => (hs a' b).2.2.1) _ _,
      fun _ => .foldlM (fun b' => (hs a b').2.2.2) _ _⟩ fun a' b' hab' => ?_
    refine ih hab' (fun a b => ?_) fun a b k' hk => hfg a b k' (List.mem_cons_of_mem k hk)
    obtain ⟨hp, hq, hf, hg⟩ := hs a b
    exact ⟨fun k' hk => hp k' (List.mem_cons_of_mem k hk),
      fun k' hk => hq k' (List.mem_cons_of_mem k hk), hf, hg⟩

theorem forM {f g : γ → AnalysisM Unit} (hs : x.Rounds as as f g)
    (hfg : ∀ k ∈ as, x.Tallies (fun _ _ => True) (f k) (g k)) :
    x.Tallies (fun _ _ => True) (as.forM f) (as.forM g) := by
  induction as with
  | nil => exact pure trivial
  | cons k as ih =>
    obtain ⟨hp, hq, hf, hg⟩ := hs
    refine (hfg k List.mem_cons_self).bind ⟨hp k List.mem_cons_self, hq k List.mem_cons_self,
      fun _ => .forM hf _, fun _ => .forM hg _⟩ fun _ _ _ => ?_
    exact ih ⟨fun k' hk => hp k' (List.mem_cons_of_mem k hk),
      fun k' hk => hq k' (List.mem_cons_of_mem k hk), hf, hg⟩
      fun k' hk => hfg k' (List.mem_cons_of_mem k hk)

/-- Some element passes, in whatever order they are asked, if the test does not fail. -/
theorem anyM_matched {f : γ → AnalysisM Bool} {g : δ → AnalysisM Bool} (h : Matched R as bs)
    (hs : x.Rounds as bs f g) (hfg : ∀ a ∈ as, ∀ b ∈ bs, R a b → x.Tallies Eq (f a) (g b))
    (hfsome : ∀ a ∈ as, ¬ x.Left (f a) none) (hgsome : ∀ b ∈ bs, ¬ x.Right (g b) none) :
    x.Tallies Eq (as.anyM f) (bs.anyM g) := by
  intro o o' hl hr
  obtain ⟨hp, hq, hf, hg⟩ := hs
  rcases hl.anyM_inv hp hf hfsome with ⟨rfl, a, ha, hpass⟩ | ⟨rfl, hall⟩
  · rcases hr.anyM_inv hq hg hgsome with ⟨rfl, -⟩ | ⟨rfl, hall⟩
    · exact .some rfl
    · obtain ⟨b, hb, hab⟩ := h.forth a ha
      exact absurd (hfg a ha b hb hab _ _ hpass (hall b hb)) (by rintro ⟨⟨⟩⟩)
  · rcases hr.anyM_inv hq hg hgsome with ⟨rfl, b, hb, hpass⟩ | ⟨rfl, -⟩
    · obtain ⟨a, ha, hab⟩ := h.back b hb
      exact absurd (hfg a ha b hb hab _ _ (hall a ha) hpass) (by rintro ⟨⟨⟩⟩)
    · exact .some rfl

theorem andM {p q p' q' : AnalysisM Bool} (h : x.Tallies Eq p q)
    (hs : x.Proceeds p ∧ x.Proceeds q ∧ Built p' ∧ Built q') (h' : x.Tallies Eq p' q') :
    x.Tallies Eq (p <&&> p') (q <&&> q') := by
  obtain ⟨hp, hq, hp', hq'⟩ := hs
  refine h.bind ⟨hp, hq, fun b => ?_, fun b => ?_⟩ fun b _ hb => ?_
  · cases b with
    | true => exact hp'
    | false => exact .pure _
  · cases b with
    | true => exact hq'
    | false => exact .pure _
  · cases hb
    cases b with
    | true => exact h'
    | false => exact pure rfl

theorem orM {p q p' q' : AnalysisM Bool} (h : x.Tallies Eq p q)
    (hs : x.Proceeds p ∧ x.Proceeds q ∧ Built p' ∧ Built q') (h' : x.Tallies Eq p' q') :
    x.Tallies Eq (p <||> p') (q <||> q') := by
  obtain ⟨hp, hq, hp', hq'⟩ := hs
  refine h.bind ⟨hp, hq, fun b => ?_, fun b => ?_⟩ fun b _ hb => ?_
  · cases b with
    | true => exact .pure _
    | false => exact hp'
  · cases b with
    | true => exact .pure _
    | false => exact hq'
  · cases hb
    cases b with
    | true => exact pure rfl
    | false => exact h'

end Loops

end Tallies

end Comparison

end UnionInference
