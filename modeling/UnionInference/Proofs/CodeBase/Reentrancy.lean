import Mathlib.Data.Finset.Card
import Mathlib.Data.Finset.Lattice.Basic
import UnionInference.Proofs.CodeBase.Resolving

/-!
Loading while loading. A resolver that is asked for a class works through a script: it looks classes
up, which may ask it again, registers and announces classes, and says whether it found the class.
The set of classes that are being loaded guards every look-up. Looking a class up is followed here
level by level, where a level is one load inside another, and every step of interest goes into a
ledger: who is asked for, who answers, which announced class is loaded, what is announced. Over a
finite set of names the levels end, and the ledger can be replayed from the classes that were being
loaded and the classes that were waiting at the start.
-/

namespace UnionInference

/-! ### Scripts -/

/-- What a resolver does when it is asked for a class. What it does after a look-up may depend on
the answer. -/
inductive LoadScript where
  /-- It tells whether it found the class. -/
  | finish (found : Bool)
  | lookUp (name : ClassName) (next : Bool → LoadScript)
  | register (d : ClassDefinition) (next : LoadScript)
  | announce (name : ClassName) (d : ClassDefinition) (next : LoadScript)
  /-- It notes what happened. -/
  | note (e : LoadEvent) (next : LoadScript)

/-- Every class that the script looks up, whatever the answers are, is one of the given ones. -/
def LoadScript.Within (names : Finset QualifiedName) : LoadScript → Prop
  | .finish _ => True
  | .lookUp c next => c.fold ∈ names ∧ ∀ found, (next found).Within names
  | .register _ next | .announce _ _ next | .note _ next => next.Within names

/-! ### The ledger -/

/-- A step of loading; classes stand under their folded names. -/
inductive LoadStep where
  /-- The resolver is asked for a class. -/
  | ask (k : QualifiedName)
  /-- The resolver is done with a class. -/
  | answer (k : QualifiedName)
  /-- An announced class is registered. -/
  | load (k : QualifiedName) (p : PendingClass)
  | announce (k : QualifiedName) (p : PendingClass)

namespace LoadStep

/-- Whether the step registers the announced class. -/
def isLoad (k : QualifiedName) : LoadStep → Bool
  | .load k' _ => k' == k
  | _ => false

/-- Whether the step announces the class. -/
def isAnnounce (k : QualifiedName) : LoadStep → Bool
  | .announce k' _ => k' == k
  | _ => false

end LoadStep

/-- The classes that are being loaded and those that are announced and wait to be loaded. -/
structure Ledger where
  loading : Finset QualifiedName
  waiting : QualifiedName → Option PendingClass

namespace Ledger

variable {l l' l₁ : Ledger} {k : QualifiedName} {x : LoadStep} {xs ys : List LoadStep}

/-- One step. The resolver is asked only for a class that is not being loaded, and an announced
class is loaded only while it waits, after which it does not wait any more. -/
inductive Step (l : Ledger) : LoadStep → Ledger → Prop where
  | ask {k : QualifiedName} (free : k ∉ l.loading) :
    l.Step (.ask k) { l with loading := insert k l.loading }
  | answer {k : QualifiedName} (guarded : k ∈ l.loading) :
    l.Step (.answer k) { l with loading := l.loading.erase k }
  | load {k : QualifiedName} {p : PendingClass} (free : k ∉ l.loading)
    (waits : l.waiting k = some p) :
    l.Step (.load k p) { l with waiting := Function.update l.waiting k none }
  | announce (k : QualifiedName) (p : PendingClass) :
    l.Step (.announce k p) { l with waiting := Function.update l.waiting k (some p) }

/-- All steps, one after the other. -/
inductive Replays : Ledger → List LoadStep → Ledger → Prop where
  | nil (l : Ledger) : Replays l [] l
  | cons {l l₁ l' : Ledger} {x : LoadStep} {xs : List LoadStep} (head : l.Step x l₁)
    (tail : Replays l₁ xs l') : Replays l (x :: xs) l'

theorem Replays.append (h : l.Replays xs l₁) (h' : l₁.Replays ys l') :
    l.Replays (xs ++ ys) l' := by
  induction h with
  | nil l => exact h'
  | cons head _ ih => exact .cons head (ih h')

theorem Step.replays (h : l.Step x l') : l.Replays [x] l' := .cons h (.nil l')

/-- How many announcements of a class wait: none or one. -/
def waits (l : Ledger) (k : QualifiedName) : Nat := (l.waiting k).isSome.toNat

/-- A step that loads a class uses an announcement up. -/
theorem Step.waits (h : l.Step x l') (k : QualifiedName) :
    (x.isLoad k).toNat + l'.waits k ≤ l.waits k + (x.isAnnounce k).toNat := by
  cases h with
  | ask | answer => simp [LoadStep.isLoad, LoadStep.isAnnounce, Ledger.waits]
  | @load k' p _ hwaits =>
    by_cases hk : k' = k
    · subst hk
      simp [LoadStep.isLoad, LoadStep.isAnnounce, Ledger.waits, hwaits]
    · simp [LoadStep.isLoad, LoadStep.isAnnounce, Ledger.waits, Ne.symm hk,
        beq_eq_false_iff_ne.2 hk]
  | announce k' p =>
    by_cases hk : k' = k
    · subst hk
      simp [LoadStep.isLoad, LoadStep.isAnnounce, Ledger.waits]
    · simp [LoadStep.isLoad, LoadStep.isAnnounce, Ledger.waits, Ne.symm hk]

/-- No announcement is loaded twice: what was loaded and what still waits does not exceed what
waited at the start and what was announced. -/
theorem Replays.waits (h : l.Replays xs l') (k : QualifiedName) :
    xs.countP (LoadStep.isLoad k) + l'.waits k ≤ l.waits k + xs.countP (LoadStep.isAnnounce k) := by
  induction h with
  | nil l => simp
  | @cons l l₁ l' x xs head _ ih =>
    have hstep := head.waits k
    rw [List.countP_cons, List.countP_cons]
    cases hload : x.isLoad k <;> cases hann : x.isAnnounce k <;>
      simp only [hload, hann, Bool.toNat_true, Bool.toNat_false, if_true, if_false,
        Bool.false_eq_true] at hstep ⊢ <;> omega

end Ledger

/-! ### Looking a class up, level by level -/

/-- A code base with the classes that are being loaded and the ledger of what has happened. -/
structure LoadState where
  base : CodeBase
  loading : Finset QualifiedName := ∅
  steps : List LoadStep := []

namespace LoadState

/-- The classes that are being loaded and those that wait. -/
def ledger (s : LoadState) : Ledger := ⟨s.loading, fun k => s.base.pending[k]?⟩

/-- The resolver is asked for a class. -/
def ask (s : LoadState) (c : ClassName) : LoadState :=
  { s with loading := insert c.fold s.loading, steps := s.steps ++ [.ask c.fold] }

/-- The resolver is done with a class. -/
def answer (s : LoadState) (c : ClassName) : LoadState :=
  { s with loading := s.loading.erase c.fold, steps := s.steps ++ [.answer c.fold] }

/-- An announced class is registered. Its loader sees no code base and looks nothing up, so the
class need not be guarded meanwhile. -/
def load (s : LoadState) (c : ClassName) (p : PendingClass) : LoadState :=
  { s with base := s.base.load c p, steps := s.steps ++ [.load c.fold p] }

/-- A class is registered. -/
def register (s : LoadState) (d : ClassDefinition) : LoadState :=
  { s with base := s.base.addDefinition d }

/-- A class is announced. -/
def announce (s : LoadState) (c : ClassName) (d : ClassDefinition) : LoadState :=
  { s with base := s.base.announce c d, steps := s.steps ++ [.announce c.fold ⟨c, d⟩] }

/-- Something is noted. -/
def note (s : LoadState) (e : LoadEvent) : LoadState := { s with base := s.base.log e }

end LoadState

/-- Works through a script, where `look` looks classes up. -/
def LoadScript.run (look : ClassName → LoadState → Option (Bool × LoadState)) :
    LoadScript → LoadState → Option (Bool × LoadState)
  | .finish found, s => some (found, s)
  | .lookUp c next, s => (look c s).bind fun r => (next r.1).run look r.2
  | .register d next, s => next.run look (s.register d)
  | .announce c d next, s => next.run look (s.announce c d)
  | .note e next, s => next.run look (s.note e)

/-- Whether a class exists, after loading it if it can be; no result if the loads inside each other
go deeper than the given number of levels. -/
def findClass (resolver : Option (ClassName → LoadScript)) :
    Nat → ClassName → LoadState → Option (Bool × LoadState)
  | 0, _, _ => none
  | n + 1, c, s =>
    if s.base.isRegistered c then some (true, s)
    else if c.fold ∈ s.loading then some (false, s)
    else
      match s.base.pending[c.fold]? with
      | some p => some ((s.load c p).base.isRegistered c, s.load c p)
      | none =>
        match resolver with
        | none => some (false, s)
        | some scripts =>
          ((scripts c).run (findClass resolver n) (s.ask c)).map fun r =>
            (r.1 && (r.2.answer c).base.isRegistered c, r.2.answer c)

theorem findClass_succ (resolver : Option (ClassName → LoadScript)) (n : Nat) (c : ClassName)
    (s : LoadState) :
    findClass resolver (n + 1) c s =
      if s.base.isRegistered c then some (true, s)
      else if c.fold ∈ s.loading then some (false, s)
      else
        match s.base.pending[c.fold]? with
        | some p => some ((s.load c p).base.isRegistered c, s.load c p)
        | none =>
          match resolver with
          | none => some (false, s)
          | some scripts =>
            ((scripts c).run (findClass resolver n) (s.ask c)).map fun r =>
              (r.1 && (r.2.answer c).base.isRegistered c, r.2.answer c) := rfl

namespace LoadState

variable {resolver : Option (ClassName → LoadScript)} {s s' s₁ : LoadState} {c : ClassName}
  {names : Finset QualifiedName}

/-- What happened between the two states can be replayed. -/
def Replays (s s' : LoadState) : Prop :=
  ∃ xs, s'.steps = s.steps ++ xs ∧ s.ledger.Replays xs s'.ledger

theorem Replays.refl (s : LoadState) : s.Replays s := ⟨[], (List.append_nil _).symm, .nil _⟩

theorem Replays.trans (h : s.Replays s₁) (h' : s₁.Replays s') : s.Replays s' := by
  obtain ⟨xs, hxs, hrun⟩ := h
  obtain ⟨ys, hys, hrun'⟩ := h'
  exact ⟨xs ++ ys, by rw [hys, hxs, List.append_assoc], hrun.append hrun'⟩

theorem pending_addDefinition (b : CodeBase) (d : ClassDefinition) :
    (b.addDefinition d).pending = b.pending :=
  (CodeBase.sameClasses_addDefinition b d).pending

theorem replays_ask (h : c.fold ∉ s.loading) : s.Replays (s.ask c) :=
  ⟨_, rfl, Ledger.Step.replays (.ask h)⟩

theorem replays_answer (h : c.fold ∈ s.loading) : s.Replays (s.answer c) :=
  ⟨_, rfl, Ledger.Step.replays (.answer h)⟩

theorem ledger_load (s : LoadState) (c : ClassName) (p : PendingClass) :
    (s.load c p).ledger =
      { s.ledger with waiting := Function.update s.ledger.waiting c.fold none } := by
  refine congrArg (Ledger.mk s.loading) (funext fun k => ?_)
  show (s.base.load c p).pending[k]? = Function.update (fun k => s.base.pending[k]?) c.fold none k
  rw [CodeBase.load, pending_addDefinition, Function.update_apply]
  show (s.base.pending.erase c.fold)[k]? = _
  rw [Std.HashMap.getElem?_erase]
  exact if_congr (by rw [beq_iff_eq, eq_comm]) rfl rfl

theorem replays_load (h : c.fold ∉ s.loading) {p : PendingClass}
    (hp : s.base.pending[c.fold]? = some p) : s.Replays (s.load c p) :=
  ⟨_, rfl, Ledger.Step.replays (s.ledger_load c p ▸ .load h hp)⟩

theorem ledger_announce (s : LoadState) (c : ClassName) (d : ClassDefinition) :
    (s.announce c d).ledger =
      { s.ledger with waiting := Function.update s.ledger.waiting c.fold (some ⟨c, d⟩) } := by
  refine congrArg (Ledger.mk s.loading) (funext fun k => ?_)
  show (s.base.pending.insert c.fold ⟨c, d⟩)[k]? =
    Function.update (fun k => s.base.pending[k]?) c.fold (some ⟨c, d⟩) k
  rw [Std.HashMap.getElem?_insert, Function.update_apply]
  exact if_congr (by rw [beq_iff_eq, eq_comm]) rfl rfl

theorem replays_announce (s : LoadState) (c : ClassName) (d : ClassDefinition) :
    s.Replays (s.announce c d) :=
  ⟨_, rfl, Ledger.Step.replays (s.ledger_announce c d ▸ .announce _ _)⟩

theorem replays_register (s : LoadState) (d : ClassDefinition) : s.Replays (s.register d) := by
  refine ⟨[], (List.append_nil _).symm, ?_⟩
  have hledger : (s.register d).ledger = s.ledger := by
    rw [ledger, ledger, register, pending_addDefinition]
  exact hledger ▸ .nil _

theorem replays_note (s : LoadState) (e : LoadEvent) : s.Replays (s.note e) :=
  ⟨[], (List.append_nil _).symm, .nil _⟩

/-- Looking a class up came to an end, with the same classes being loaded as before. -/
structure Answers (s : LoadState) (c : ClassName) (r : Bool × LoadState) : Prop where
  loading : r.2.loading = s.loading
  replays : s.Replays r.2
  registered : r.1 = true → r.2.base.isRegistered c = true

/-- A script comes to an end, with the same classes being loaded, if its look-ups do. -/
theorem exists_run {look : ClassName → LoadState → Option (Bool × LoadState)}
    {script : LoadScript} (hscript : script.Within names)
    (hlook : ∀ (c : ClassName) (s₁ : LoadState), c.fold ∈ names → s₁.loading = s.loading →
      ∃ r, look c s₁ = some r ∧ s₁.Answers c r) :
    ∃ r, script.run look s = some r ∧ r.2.loading = s.loading ∧ s.Replays r.2 := by
  induction script generalizing s with
  | finish found => exact ⟨_, rfl, rfl, .refl s⟩
  | lookUp c next ih =>
    obtain ⟨⟨found, s₁⟩, hfound, hs₁⟩ := hlook c s hscript.1 rfl
    obtain ⟨r, hr, hloading, hreplays⟩ := ih found (hscript.2 found)
      fun c s₂ hc hs₂ => hlook c s₂ hc (hs₂.trans hs₁.loading)
    refine ⟨r, ?_, hloading.trans hs₁.loading, hs₁.replays.trans hreplays⟩
    rw [LoadScript.run, hfound]
    exact hr
  | register d next ih =>
    obtain ⟨r, hr, hloading, hreplays⟩ := ih (s := s.register d) hscript hlook
    exact ⟨r, hr, hloading, (s.replays_register d).trans hreplays⟩
  | announce c d next ih =>
    obtain ⟨r, hr, hloading, hreplays⟩ := ih (s := s.announce c d) hscript hlook
    exact ⟨r, hr, hloading, (s.replays_announce c d).trans hreplays⟩
  | note e next ih =>
    obtain ⟨r, hr, hloading, hreplays⟩ := ih (s := s.note e) hscript hlook
    exact ⟨r, hr, hloading, (s.replays_note e).trans hreplays⟩

/-- One level: a class is found if the classes that its script looks up are, one level down, while
the class itself is being loaded. -/
theorem exists_findClass_succ (hresolver : ∀ scripts ∈ resolver, ∀ c, (scripts c).Within names)
    {n : Nat} (hlook : ∀ (c' : ClassName) (s₁ : LoadState), c'.fold ∈ names → c.fold ∉ s.loading →
      s₁.loading = insert c.fold s.loading →
      ∃ r, findClass resolver n c' s₁ = some r ∧ s₁.Answers c' r) :
    ∃ r, findClass resolver (n + 1) c s = some r ∧ s.Answers c r := by
  rw [findClass_succ]
  split
  · next hc => exact ⟨_, rfl, rfl, .refl s, fun _ => hc⟩
  split
  · exact ⟨_, rfl, rfl, .refl s, fun h => by cases h⟩
  next hfree =>
  cases hp : s.base.pending[c.fold]? with
  | some p => exact ⟨_, rfl, rfl, replays_load hfree hp, id⟩
  | none =>
    cases hscripts : resolver with
    | none => exact ⟨_, rfl, rfl, .refl s, fun h => by cases h⟩
    | some scripts =>
      rw [hscripts] at hlook
      obtain ⟨r, hr, hloading, hreplays⟩ := exists_run (s := s.ask c) (hresolver scripts hscripts c)
        fun c' s₁ hc' hs₁ => hlook c' s₁ hc' hfree hs₁
      have hguarded : c.fold ∈ r.2.loading := by
        rw [hloading]
        exact Finset.mem_insert_self _ _
      refine ⟨_, congrArg (Option.map _) hr, ?_, ?_, fun h => ?_⟩
      · show r.2.loading.erase c.fold = s.loading
        rw [hloading]
        exact Finset.erase_insert hfree
      · exact (replays_ask hfree).trans (hreplays.trans (replays_answer hguarded))
      · exact ((Bool.and_eq_true _ _).mp h).2

/-- The names that are not being loaded bound the levels: each load inside another takes one of
them. -/
theorem exists_findClass_of_mem (hresolver : ∀ scripts ∈ resolver, ∀ c, (scripts c).Within names)
    {n : Nat} (hn : (names \ s.loading).card < n) (hc : c.fold ∈ names) :
    ∃ r, findClass resolver n c s = some r ∧ s.Answers c r := by
  induction n generalizing s c with
  | zero => exact absurd hn (Nat.not_lt_zero _)
  | succ n ih =>
    refine exists_findClass_succ hresolver fun c' s₁ hc' hfree hs₁ => ih ?_ hc'
    have hsub : names \ s₁.loading ⊂ names \ s.loading := by
      rw [hs₁]
      refine (Finset.ssubset_iff_of_subset ?_).2 ⟨c.fold, ?_, ?_⟩
      · exact Finset.sdiff_subset_sdiff subset_rfl (Finset.subset_insert _ _)
      · exact Finset.mem_sdiff.2 ⟨hc, hfree⟩
      · simp
    exact Nat.lt_of_lt_of_le (Finset.card_lt_card hsub) (Nat.le_of_lt_succ hn)

/-- A class need not be among the names that the scripts look up: it takes one level more. -/
theorem exists_findClass (hresolver : ∀ scripts ∈ resolver, ∀ c, (scripts c).Within names) {n : Nat}
    (hn : names.card + 2 ≤ n) (c : ClassName) (s : LoadState) :
    ∃ r, findClass resolver n c s = some r ∧ s.Answers c r := by
  obtain ⟨n, rfl⟩ : ∃ m, n = m + 1 := ⟨n - 1, by omega⟩
  refine exists_findClass_succ hresolver fun c' s₁ hc' _ _ =>
    exists_findClass_of_mem hresolver ?_ hc'
  have := Finset.card_le_card (Finset.sdiff_subset (s := names) (t := s₁.loading))
  omega

/-! ### More levels change nothing -/

theorem run_mono {look look' : ClassName → LoadState → Option (Bool × LoadState)}
    (hlook : ∀ c s r, look c s = some r → look' c s = some r) {script : LoadScript}
    {r : Bool × LoadState} (h : script.run look s = some r) : script.run look' s = some r := by
  induction script generalizing s with
  | finish found => exact h
  | lookUp c next ih =>
    obtain ⟨r₁, hr₁, hrest⟩ := Option.bind_eq_some_iff.1 h
    exact Option.bind_eq_some_iff.2 ⟨r₁, hlook _ _ _ hr₁, ih _ hrest⟩
  | register d next ih | announce c d next ih | note e next ih => exact ih h

theorem findClass_mono {n m : Nat} (hnm : n ≤ m) {r : Bool × LoadState}
    (h : findClass resolver n c s = some r) : findClass resolver m c s = some r := by
  induction n generalizing m c s r with
  | zero => cases h
  | succ n ih =>
    obtain ⟨m, rfl⟩ : ∃ k, m = k + 1 := ⟨m - 1, by omega⟩
    rw [findClass_succ] at h ⊢
    split at h
    · next hc => rwa [if_pos hc]
    next hc =>
    rw [if_neg hc]
    split at h
    · next hl => rwa [if_pos hl]
    next hl =>
    rw [if_neg hl]
    cases hp : s.base.pending[c.fold]? with
    | some p => rwa [hp] at h
    | none =>
      rw [hp] at h
      cases hscripts : resolver with
      | none => rwa [hscripts] at h
      | some scripts =>
        rw [hscripts] at h ih
        obtain ⟨r₁, hr₁, rfl⟩ := Option.map_eq_some_iff.1 h
        exact congrArg (Option.map _) (run_mono (fun _ _ _ => ih (Nat.le_of_succ_le_succ hnm)) hr₁)

end LoadState

/-! ### Resolvers given by entries -/

/-- Looks classes up one after the other and notes each answer. -/
def lookEach (event : ClassName → Bool → LoadEvent) (names : List ClassName) (next : LoadScript) :
    LoadScript :=
  names.foldr (fun c next => .lookUp c fun found => .note (event c found) next) next

namespace ResolverEntry

/-- What the entry does when it is asked. -/
def script (e : ResolverEntry) : LoadScript :=
  lookEach .before e.before
    (e.definitions.foldr .register (lookEach .after e.after (.finish e.found)))

/-- What entries do when they are asked for a class. -/
def scripts (rows : List ResolverEntry) (c : ClassName) : LoadScript :=
  .note (.resolve c) (((find? rows c).map script).getD (.finish false))

/-- The classes that entries look up. -/
def mentioned (rows : List ResolverEntry) : Finset QualifiedName :=
  ((rows.flatMap fun e => e.before ++ e.after).map QualifiedName.fold).toFinset

theorem within_lookEach {names : Finset QualifiedName} {event : ClassName → Bool → LoadEvent}
    {cs : List ClassName} {next : LoadScript} (hcs : ∀ c ∈ cs, c.fold ∈ names)
    (hnext : next.Within names) : (lookEach event cs next).Within names := by
  induction cs with
  | nil => exact hnext
  | cons c cs ih =>
    exact ⟨hcs c List.mem_cons_self, fun _ => ih fun c hc => hcs c (List.mem_cons_of_mem _ hc)⟩

theorem within_register {names : Finset QualifiedName} {ds : List ClassDefinition}
    {next : LoadScript} (hnext : next.Within names) :
    (ds.foldr .register next).Within names := by
  induction ds with
  | nil => exact hnext
  | cons d ds ih => exact ih

/-- The scripts of entries look up what the entries mention. -/
theorem within_scripts (rows : List ResolverEntry) (c : ClassName) :
    (scripts rows c).Within (mentioned rows) := by
  show (((find? rows c).map script).getD (.finish false)).Within (mentioned rows)
  cases hfind : find? rows c with
  | none => trivial
  | some e =>
    have hmem : e ∈ rows := List.mem_of_find?_eq_some hfind
    have hname : ∀ c ∈ e.before ++ e.after, c.fold ∈ mentioned rows := fun c hc =>
      List.mem_toFinset.2 (List.mem_map_of_mem (List.mem_flatMap.2 ⟨e, hmem, hc⟩))
    exact within_lookEach (fun c hc => hname c (List.mem_append_left _ hc))
      (within_register (within_lookEach (fun c hc => hname c (List.mem_append_right _ hc)) trivial))

end ResolverEntry

namespace CodeBase

/-- What the resolver of a code base does for each class. -/
def scripts (b : CodeBase) : Option (ClassName → LoadScript) :=
  b.resolver.map ResolverEntry.scripts

end CodeBase

namespace LoadState

variable {entries : Option (List ResolverEntry)}

/-- Looking classes up one after the other, in a script and in the loop that loading runs. -/
theorem run_lookEach {look : ClassName → LoadState → Option (Bool × LoadState)}
    {load : ClassName → BaseM Bool} {loading : Finset QualifiedName}
    (hlook : ∀ c b xs, ∃ ys,
      look c ⟨b, loading, xs⟩ = some ((load c b).1, ⟨(load c b).2, loading, ys⟩))
    (event : ClassName → Bool → LoadEvent) (cs : List ClassName) (next : LoadScript)
    (b : CodeBase) (xs : List LoadStep) :
    ∃ ys, (lookEach event cs next).run look ⟨b, loading, xs⟩ =
      next.run look ⟨CodeBase.visit load event cs b, loading, ys⟩ := by
  induction cs generalizing b xs with
  | nil => exact ⟨xs, rfl⟩
  | cons c cs ih =>
    obtain ⟨ys, hys⟩ := hlook c b xs
    obtain ⟨zs, hzs⟩ := ih ((load c b).2.log (event c (load c b).1)) ys
    refine ⟨zs, ?_⟩
    show ((look c ⟨b, loading, xs⟩).bind fun r => _) = _
    rw [hys]
    exact hzs

theorem run_register (look : ClassName → LoadState → Option (Bool × LoadState))
    (ds : List ClassDefinition) (next : LoadScript) (s : LoadState) :
    (ds.foldr LoadScript.register next).run look s =
      next.run look { s with base := ds.foldl CodeBase.addDefinition s.base } := by
  induction ds generalizing s with
  | nil => rfl
  | cons d ds ih => exact ih (s.register d)

/-- A script of entries does what asking the entries does. -/
theorem run_script {look : ClassName → LoadState → Option (Bool × LoadState)}
    {load : ClassName → BaseM Bool} {loading : Finset QualifiedName}
    (hlook : ∀ c b xs, ∃ ys,
      look c ⟨b, loading, xs⟩ = some ((load c b).1, ⟨(load c b).2, loading, ys⟩))
    (e : ResolverEntry) (b : CodeBase) (xs : List LoadStep) :
    ∃ ys, e.script.run look ⟨b, loading, xs⟩ =
      some (e.found, ⟨CodeBase.follow load e b, loading, ys⟩) := by
  obtain ⟨ys, hbefore⟩ := run_lookEach hlook .before e.before
    (e.definitions.foldr .register (lookEach .after e.after (.finish e.found))) b xs
  obtain ⟨zs, hafter⟩ := run_lookEach hlook .after e.after (.finish e.found)
    (e.definitions.foldl CodeBase.addDefinition (CodeBase.visit load .before e.before b)) ys
  refine ⟨zs, ?_⟩
  rw [ResolverEntry.script, hbefore, run_register, hafter]
  rfl

/-- The script for a class does what asking the entries for it does. -/
theorem run_scripts {look : ClassName → LoadState → Option (Bool × LoadState)}
    {load : ClassName → BaseM Bool} {loading : Finset QualifiedName} {rows : List ResolverEntry}
    {c : ClassName} (hlook : ∀ e, ResolverEntry.find? rows c = some e → ∀ c b xs, ∃ ys,
      look c ⟨b, loading, xs⟩ = some ((load c b).1, ⟨(load c b).2, loading, ys⟩))
    (b : CodeBase) (xs : List LoadStep) :
    ∃ found ys, (ResolverEntry.scripts rows c).run look ⟨b, loading, xs⟩ =
      some (found, ⟨(CodeBase.askEntries load rows c b).2, loading, ys⟩) ∧
      (CodeBase.askEntries load rows c b).1 =
        (found && (CodeBase.askEntries load rows c b).2.isRegistered c) := by
  unfold CodeBase.askEntries ResolverEntry.scripts
  cases hfind : ResolverEntry.find? rows c with
  | none => exact ⟨false, xs, rfl, rfl⟩
  | some e =>
    obtain ⟨ys, hys⟩ := run_script (hlook e hfind) e (b.log (.resolve c)) xs
    exact ⟨e.found, ys, hys, rfl⟩

/-- Loading, where the classes that are being loaded are handed down, is looking up with a guard. -/
theorem exists_findClass_eq_loadClass {n : Nat} :
    ∀ {loading : List QualifiedName}, (ResolverEntry.idle (entries.getD []) loading).length < n →
      ∀ (c : ClassName) (b : CodeBase) (xs : List LoadStep), ∃ ys,
        findClass (entries.map ResolverEntry.scripts) n c ⟨b, loading.toFinset, xs⟩ =
          some ((CodeBase.loadClass entries loading c b).1,
            ⟨(CodeBase.loadClass entries loading c b).2, loading.toFinset, ys⟩) := by
  induction n with
  | zero => exact fun hn => absurd hn (Nat.not_lt_zero _)
  | succ n ih =>
    intro loading hn c b xs
    rw [findClass_succ, CodeBase.loadClass_apply]
    split
    · exact ⟨xs, rfl⟩
    by_cases hl : c.fold ∈ loading
    · rw [if_pos (List.mem_toFinset.2 hl), if_pos hl]
      exact ⟨xs, rfl⟩
    have hfree : c.fold ∉ loading.toFinset := fun h => hl (List.mem_toFinset.1 h)
    rw [if_neg hfree, if_neg hl]
    cases b.pending[c.fold]? with
    | some p => exact ⟨xs ++ [.load c.fold p], rfl⟩
    | none =>
      cases entries with
      | none => exact ⟨xs, rfl⟩
      | some rows =>
        -- a level further down one entry less is idle
        have hlook := fun e (hfind : ResolverEntry.find? rows c = some e) =>
          ih (Nat.lt_of_lt_of_le (ResolverEntry.idle_cons_lt hfind (by simpa using hl))
            (Nat.le_of_lt_succ hn))
        obtain ⟨found, ys, hrun, hfound⟩ := run_scripts hlook b (xs ++ [.ask c.fold])
        rw [List.toFinset_cons] at hrun
        refine ⟨ys ++ [.answer c.fold], ?_⟩
        show Option.map _ ((ResolverEntry.scripts rows c).run _ _) = some
          ((CodeBase.askEntries _ rows c b).1,
            LoadState.mk (CodeBase.askEntries _ rows c b).2 loading.toFinset _)
        rw [hfound]
        refine (congrArg (Option.map _) hrun).trans ?_
        exact congrArg (fun l => some (_, LoadState.mk _ l _)) (Finset.erase_insert hfree)

/-- Without a class that is being loaded, looking up is what asking the code base for a class does.
-/
theorem exists_findClass_eq_hasClass (b : CodeBase) (c : ClassName) (xs : List LoadStep) :
    ∃ n ys, findClass b.scripts n c ⟨b, ∅, xs⟩ =
      some ((CodeBase.hasClass c b).1, ⟨(CodeBase.hasClass c b).2, ∅, ys⟩) := by
  have hidle : (ResolverEntry.idle (b.resolver.getD []) []).length < _ := Nat.lt_succ_self _
  exact ⟨_, exists_findClass_eq_loadClass hidle c b xs⟩

/-- Loading on demand is safe while classes are being loaded, for every resolver whose scripts look
up classes from a finite set. A look-up ends; it leaves the classes that are being loaded as they
were; its steps can be replayed, so that the resolver is never asked for a class that is being
loaded; no announcement is loaded twice; and a class that is found is registered. For the resolver
of the code base itself, with no class being loaded, this look-up is the one that the code base
does. -/
theorem findClass_reentrant {resolver : Option (ClassName → LoadScript)}
    {names : Finset QualifiedName}
    (hresolver : ∀ scripts ∈ resolver, ∀ c, (scripts c).Within names) (s : LoadState)
    (c : ClassName) :
    ∃ (found : Bool) (s' : LoadState) (steps : List LoadStep),
      (∀ n, names.card + 2 ≤ n → findClass resolver n c s = some (found, s')) ∧
      s'.loading = s.loading ∧
      (s'.steps = s.steps ++ steps ∧ s.ledger.Replays steps s'.ledger) ∧
      (∀ k, steps.countP (LoadStep.isLoad k) ≤
        s.ledger.waits k + steps.countP (LoadStep.isAnnounce k)) ∧
      (found = true → s'.base.isRegistered c = true) ∧
      (resolver = s.base.scripts → s.loading = ∅ →
        CodeBase.hasClass c s.base = (found, s'.base)) := by
  obtain ⟨⟨found, s'⟩, hrun, hloading, ⟨steps, hsteps, hreplays⟩, hregistered⟩ :=
    exists_findClass hresolver (Nat.le_refl _) c s
  refine ⟨found, s', steps, fun n hn => findClass_mono hn hrun, hloading, ⟨hsteps, hreplays⟩,
    fun k => ?_, hregistered, fun hown hidle => ?_⟩
  · exact Nat.le_trans (Nat.le_add_right _ _) (hreplays.waits k)
  · obtain ⟨n, ys, hhas⟩ := exists_findClass_eq_hasClass s.base c s.steps
    rw [← hown, ← hidle] at hhas
    -- both runs end, so they end alike
    have h := findClass_mono (Nat.le_max_left n (names.card + 2)) hhas
    rw [findClass_mono (Nat.le_max_right n (names.card + 2)) hrun] at h
    injection h with h
    injection h with hfound hs'
    exact Prod.ext hfound.symm (congrArg LoadState.base hs').symm

/-- A resolver that looks up the class it is asked for, before and after it registers it, and a
parent whose entry looks the child up. -/
def circularRows : List ResolverEntry :=
  let model : ClassName := ⟨"\\", "Model"⟩
  let base : ClassName := ⟨"\\", "Base"⟩
  [{ name := model
     before := [model, base]
     definitions := [{ decl := { name := model, parent := some base, type := .empty } }]
     after := [model] },
   { name := base
     before := [model]
     definitions := [{ decl := { name := base, type := .empty } }] }]

theorem findClass_reentrant_circularRows :
    (∀ scripts ∈ some (ResolverEntry.scripts circularRows), ∀ c,
      (scripts c).Within (ResolverEntry.mentioned circularRows)) ∧
    ∃ (found : Bool) (s' : LoadState),
      (∀ n, 4 ≤ n → findClass (some (ResolverEntry.scripts circularRows)) n ⟨"\\", "model"⟩
        ⟨.setResolver {} circularRows, ∅, []⟩ = some (found, s')) ∧
      s'.loading = ∅ ∧
      CodeBase.hasClass ⟨"\\", "model"⟩ (.setResolver {} circularRows) = (found, s'.base) := by
  have hwithin : ∀ scripts ∈ some (ResolverEntry.scripts circularRows), ∀ c,
      (scripts c).Within (ResolverEntry.mentioned circularRows) := by
    rintro _ ⟨⟩
    exact ResolverEntry.within_scripts circularRows
  obtain ⟨found, s', -, hends, hloading, -, -, -, hown⟩ :=
    findClass_reentrant hwithin ⟨.setResolver {} circularRows, ∅, []⟩ ⟨"\\", "model"⟩
  have hcard : (ResolverEntry.mentioned circularRows).card = 2 := by decide
  rw [hcard] at hends
  exact ⟨hwithin, found, s', hends, hloading, hown rfl rfl⟩

end LoadState

end UnionInference
