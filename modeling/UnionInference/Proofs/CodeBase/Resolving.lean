import UnionInference.Proofs.CodeBase.Loading

/-!
Loading with a resolver, without the monad: an announced class is registered, and for any other
class the entries of the resolver are followed, which look further classes up. What registering an
announced class, registering a definition of the resolver, marking a class as filled and handing
members down keep is kept by every look-up.
-/

namespace UnionInference

namespace CodeBase

/-- Looks classes up one after the other and notes each answer. -/
def visit (load : ClassName → BaseM Bool) (event : ClassName → Bool → LoadEvent)
    (cs : List ClassName) (b : CodeBase) : CodeBase :=
  cs.foldl (fun b c => (load c b).2.log (event c (load c b).1)) b

/-- What an entry does to the code base when it is asked. -/
def follow (load : ClassName → BaseM Bool) (e : ResolverEntry) (b : CodeBase) : CodeBase :=
  visit load .after e.after (e.definitions.foldl addDefinition (visit load .before e.before b))

/-- Asking entries for a class. -/
def askEntries (load : ClassName → BaseM Bool) (rows : List ResolverEntry) (c : ClassName)
    (b : CodeBase) : Bool × CodeBase :=
  match ResolverEntry.find? rows c with
  | none => (false, b.log (.resolve c))
  | some e =>
    let b := follow load e (b.log (.resolve c))
    (e.found && b.isRegistered c, b)

theorem bind_modify {α : Type} (f : CodeBase → CodeBase) (k : BaseM α) (b : CodeBase) :
    (do
      modify f
      k : BaseM α) b = k (f b) := rfl

theorem bind_visit {α : Type} (load : ClassName → BaseM Bool)
    (event : ClassName → Bool → LoadEvent) (cs : List ClassName) (k : BaseM α) (b : CodeBase) :
    (do
      cs.forM fun c => do
        let found ← load c
        modify fun b => CodeBase.log b (event c found)
      k : BaseM α) b = k (visit load event cs b) := by
  have hloop := forM_eq_foldl (fun c => do
    let found ← load c
    modify fun b => CodeBase.log b (event c found)) cs b
  exact congrArg (fun r : Unit × CodeBase => k r.2) hloop

/-- Loading, without the monad. -/
theorem loadClass_apply (entries : Option (List ResolverEntry)) (loading : List QualifiedName)
    (c : ClassName) (b : CodeBase) :
    loadClass entries loading c b =
      if b.isRegistered c then (true, b)
      else if c.fold ∈ loading then (false, b)
      else
        match b.pending[c.fold]? with
        | some p => ((b.load c p).isRegistered c, b.load c p)
        | none =>
          match entries with
          | none => (false, b)
          | some rows => askEntries (loadClass (some rows) (c.fold :: loading)) rows c b := by
  rw [loadClass.eq_def]
  show (if b.isRegistered c then (pure true : BaseM Bool) else _) b = _
  split
  · rfl
  · by_cases hl : c.fold ∈ loading
    · rw [if_pos hl, dif_pos (by simpa using hl)]
      rfl
    · rw [if_neg hl, dif_neg (by simpa using hl)]
      cases b.pending[c.fold]? with
      | some p => rfl
      | none =>
        cases entries with
        | none => rfl
        | some rows =>
          dsimp only [Option.getD_some]
          unfold askEntries
          split
          · next hf =>
            rw [hf]
            rfl
          · next e hf =>
            rw [hf]
            rw [bind_modify, bind_visit, bind_modify, bind_visit]
            rfl

theorem hasClass_of_pending {b : CodeBase} {c : ClassName} (hc : b.isRegistered c = false)
    {p : PendingClass} (hp : b.pending[c.fold]? = some p) :
    hasClass c b = ((b.load c p).isRegistered c, b.load c p) := by
  show loadClass b.resolver [] c b = _
  rw [loadClass_apply, if_neg (by simp [hc]), if_neg List.not_mem_nil, hp]

/-- A class that exists is registered afterwards. -/
theorem isRegistered_of_hasClass {b : CodeBase} {c : ClassName} (h : (hasClass c b).1 = true) :
    (hasClass c b).2.isRegistered c = true := by
  change (loadClass b.resolver [] c b).1 = true at h
  show (loadClass b.resolver [] c b).2.isRegistered c = true
  rw [loadClass_apply] at h ⊢
  split at h
  · next hc => rwa [if_pos hc]
  next hc =>
  rw [if_neg hc, if_neg List.not_mem_nil]
  rw [if_neg List.not_mem_nil] at h
  cases hp : b.pending[c.fold]? with
  | some p => rwa [hp] at h
  | none =>
    rw [hp] at h
    cases hrows : b.resolver with
    | none =>
      rw [hrows] at h
      cases h
    | some rows =>
      rw [hrows] at h
      change (askEntries _ rows c b).1 = true at h
      show (askEntries _ rows c b).2.isRegistered c = true
      unfold askEntries at h ⊢
      cases hfind : ResolverEntry.find? rows c with
      | none =>
        rw [hfind] at h
        cases h
      | some e =>
        rw [hfind] at h
        exact ((Bool.and_eq_true _ _).mp h).2

/-! ### What look-ups keep -/

variable {P : CodeBase → Prop} {b : CodeBase} {c : ClassName}

/-- A statement about code bases that registering on demand, marking classes as filled and handing
members down keep. -/
structure Lasting (P : CodeBase → Prop) : Prop where
  log : ∀ {b : CodeBase} (e : LoadEvent), P b → P (b.log e)
  load : ∀ {b : CodeBase} {c : ClassName} {p : PendingClass}, P b → b.isRegistered c = false →
    b.pending[c.fold]? = some p → P (b.load c p)
  resolve : ∀ {b : CodeBase} {rows : List ResolverEntry}, P b → b.resolver = some rows →
    ∀ e ∈ rows, ∀ d ∈ e.definitions, P (b.addDefinition d)
  mark : ∀ {b : CodeBase} (c : ClassName), P b → P (b.mark c)
  inherit : ∀ {b : CodeBase} (source target : ClassName), P b → P (b.inherit source target)

namespace Lasting

theorem foldl_addDefinition (h : Lasting P) {rows : List ResolverEntry} {e : ResolverEntry}
    (he : e ∈ rows) {ds : List ClassDefinition} (hds : ∀ d ∈ ds, d ∈ e.definitions) (hb : P b)
    (hrows : b.resolver = some rows) :
    P (ds.foldl addDefinition b) ∧ (ds.foldl addDefinition b).resolver = some rows := by
  induction ds generalizing b with
  | nil => exact ⟨hb, hrows⟩
  | cons d ds ih =>
    obtain ⟨hd, hds⟩ := List.forall_mem_cons.1 hds
    exact ih hds (h.resolve hb hrows e he d hd)
      ((sameClasses_addDefinition b d).resolver.trans hrows)

theorem visit (h : Lasting P) {rows : Option (List ResolverEntry)} {load : ClassName → BaseM Bool}
    (hload : ∀ (c : ClassName) {b : CodeBase}, P b → b.resolver = rows →
      P (load c b).2 ∧ (load c b).2.resolver = rows)
    (event : ClassName → Bool → LoadEvent) (cs : List ClassName) (hb : P b)
    (hrows : b.resolver = rows) :
    P (CodeBase.visit load event cs b) ∧ (CodeBase.visit load event cs b).resolver = rows := by
  induction cs generalizing b with
  | nil => exact ⟨hb, hrows⟩
  | cons c cs ih =>
    obtain ⟨hc, hcrows⟩ := hload c hb hrows
    exact ih (h.log _ hc) hcrows

/-- Loading keeps it, by induction on the entries for classes that are not being loaded. -/
theorem loadClass (h : Lasting P) {entries : Option (List ResolverEntry)} (n : Nat) :
    ∀ {loading : List QualifiedName}, (ResolverEntry.idle (entries.getD []) loading).length < n →
      ∀ (c : ClassName) {b : CodeBase}, P b → b.resolver = entries →
        P (loadClass entries loading c b).2 ∧
          (CodeBase.loadClass entries loading c b).2.resolver = entries := by
  induction n with
  | zero => exact fun hn => absurd hn (Nat.not_lt_zero _)
  | succ n ih =>
    intro loading hn c b hb hrows
    rw [loadClass_apply]
    split
    · exact ⟨hb, hrows⟩
    next hc =>
    split
    · exact ⟨hb, hrows⟩
    next hl =>
    cases hp : b.pending[c.fold]? with
    | some p =>
      exact ⟨h.load hb (by simpa using hc) hp, (sameClasses_addDefinition _ _).resolver.trans hrows⟩
    | none =>
      cases entries with
      | none => exact ⟨hb, hrows⟩
      | some rows =>
        show P (askEntries _ rows c b).2 ∧ (askEntries _ rows c b).2.resolver = _
        unfold askEntries
        cases hfind : ResolverEntry.find? rows c with
        | none => exact ⟨h.log _ hb, hrows⟩
        | some e =>
          -- the look-ups of the entry are made while one class more is being loaded
          have hfewer := ResolverEntry.idle_cons_lt hfind (by simpa using hl)
          have hlook := fun c {b} =>
            ih (Nat.lt_of_lt_of_le hfewer (Nat.le_of_lt_succ hn)) c (b := b)
          obtain ⟨hb₁, hrows₁⟩ := h.visit hlook .before e.before (h.log (.resolve c) hb) hrows
          obtain ⟨hb₂, hrows₂⟩ := h.foldl_addDefinition (List.mem_of_find?_eq_some hfind)
            (fun _ hd => hd) hb₁ hrows₁
          exact h.visit hlook .after e.after hb₂ hrows₂

theorem hasClass (h : Lasting P) (c : ClassName) (hb : P b) : P (hasClass c b).2 :=
  (h.loadClass _ (Nat.lt_succ_self _) c hb rfl).1

theorem hydrateWithin (h : Lasting P) (n : Nat) (c : ClassName) {b : CodeBase} (hb : P b) :
    P (hydrateWithin n c b).2 :=
  hydrateWithin_induction (R := fun _ _ => True) (fun _ s => h.hasClass s) (fun _ c => h.mark c)
    (fun _ _ _ _ _ _ _ _ _ _ => trivial) (fun _ s c _ => h.inherit s c) n c hb

theorem hydrate (h : Lasting P) (c : ClassName) (hb : P b) : P (hydrate c b).2 :=
  h.hydrateWithin _ c hb

theorem prepare (h : Lasting P) (c : ClassName) (hb : P b) : P (prepare c b).2 := by
  have hc := h.hasClass c hb
  show P ((if (CodeBase.hasClass c b).1 then _ else _ : BaseM Unit) (CodeBase.hasClass c b).2).2
  split
  · show P ((if (CodeBase.hasClass c b).2.hydrateLazily then _ else _ : BaseM Unit)
      (CodeBase.hasClass c b).2).2
    split
    · exact h.hydrate c hc
    · exact hc
  · exact hc

theorem declaredType (h : Lasting P) (c : ClassName) (hb : P b) : P (declaredType c b).2 := by
  rw [declaredType_apply]
  exact h.hasClass c hb

end Lasting

end CodeBase

end UnionInference
