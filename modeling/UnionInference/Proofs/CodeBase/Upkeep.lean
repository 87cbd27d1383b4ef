import UnionInference.Proofs.CodeBase.Resolving
import UnionInference.Proofs.CodeBase.Session

/-!
What look-ups keep is kept by whole requests: by questions for classes and members, by expansions,
and by questions for subclasses, which look classes up as they go. Only registering and announcing
have to be looked at one by one.
-/

namespace UnionInference

namespace ExpandM

variable {α β : Type} {P : CodeBase → Prop}

/-- Work that keeps a statement about the code base when it gives a result. -/
def KeepsBase (P : CodeBase → Prop) (p : ExpandM CodeBase α) : Prop :=
  ∀ (s s' : TypeTable × CodeBase) (a : α), P s.2 → p s = .ok (a, s') → P s'.2

theorem keepsBase_pure (a : α) : KeepsBase P (pure a) := by
  rintro s s' r hs ⟨⟩
  exact hs

theorem keepsBase_throw (v : Violation) : KeepsBase P (throw v : ExpandM CodeBase α) := by
  rintro s s' r hs ⟨⟩

theorem keepsBase_types (w : TypeM α) : KeepsBase P (types w) := by
  rintro ⟨t, b⟩ ⟨t', b'⟩ a hs h
  obtain ⟨-, rfl⟩ := types_eq_ok.1 h
  exact hs

theorem keepsBase_get : KeepsBase P (get : ExpandM CodeBase (TypeTable × CodeBase)) := by
  rintro s s' a hs ⟨⟩
  exact hs

theorem keepsBase_modify {f : TypeTable × CodeBase → TypeTable × CodeBase}
    (hf : ∀ s, P s.2 → P (f s).2) : KeepsBase P (modify f : ExpandM CodeBase Unit) := by
  rintro s s' a hs ⟨⟩
  exact hf s hs

theorem KeepsBase.bind {p : ExpandM CodeBase α} {f : α → ExpandM CodeBase β} (hp : KeepsBase P p)
    (hf : ∀ a, KeepsBase P (f a)) : KeepsBase P (p >>= f) := by
  intro s s' r hs h
  obtain ⟨a, s₁, hrun, h⟩ := bind_eq_ok.1 h
  exact hf a s₁ s' r (hp s s₁ a hs hrun) h

theorem keepsBase_declaredType (h : CodeBase.Lasting P) (name : ClassName) :
    KeepsBase P (declaredType name : ExpandM CodeBase (Option UnionType)) := by
  rintro s s' a hs ⟨⟩
  exact h.declaredType name hs

/-- What look-ups keep is kept by all work that is put together of them. -/
theorem composes_keepsBase (h : CodeBase.Lasting P) : Composes fun _ => KeepsBase P where
  pure := keepsBase_pure
  throw := keepsBase_throw
  types := keepsBase_types
  declaredType := keepsBase_declaredType h
  bind := KeepsBase.bind

theorem keepsBase_expandType (h : CodeBase.Lasting P) (id : TypeId) :
    KeepsBase P (expandType id) := by
  unfold expandType
  refine KeepsBase.bind (keepsBase_modify fun _ hs => hs) fun _ => keepsBase_get.bind fun s => ?_
  split
  · exact keepsBase_pure _
  · exact KeepsBase.bind ((composes_keepsBase h).expandWithin _ id) fun u =>
      KeepsBase.bind (keepsBase_modify fun _ hs => hs) fun _ => keepsBase_pure u

theorem keepsBase_hasAncestor (h : CodeBase.Lasting P) (u : UnionType) (owner : ClassName) :
    KeepsBase P (u.hasAncestor owner) :=
  (composes_keepsBase h).hasAncestor (keepsBase_expandType h) u owner

theorem keepsBase_isSubclassOf (h : CodeBase.Lasting P) (child ancestor : ClassName) :
    KeepsBase P (CodeBase.isSubclassOf child ancestor) := by
  unfold CodeBase.isSubclassOf
  split
  · exact keepsBase_pure _
  · rintro ⟨t, b⟩ s' a hs hrun
    have hloaded := h.hasClass child hs
    change (if (CodeBase.hasClass child b).1 then _ else _ : ExpandM CodeBase Bool)
      (t, (CodeBase.hasClass child b).2) = _ at hrun
    split at hrun
    · exact ((keepsBase_types _).bind fun id => keepsBase_hasAncestor h (.of id) ancestor)
        _ _ _ hloaded hrun
    · cases hrun
      exact hloaded

end ExpandM

namespace CodeBase

variable {P : CodeBase → Prop} {b : CodeBase}

theorem Lasting.lookUp (h : Lasting P) (q : LookUp) (hb : P b) : P (b.lookUp q) := by
  cases q with
  | hasClass name => exact h.hasClass name hb
  | hydrate name => exact h.hydrate name hb
  | hydrateAll =>
    show P (b.classNames.forM CodeBase.hydrate b).2
    rw [forM_eq_foldl]
    generalize b.classNames = names
    induction names generalizing b with
    | nil => exact hb
    | cons name names ih => exact ih (h.hydrate name hb)
  | method owner name => exact h.prepare owner hb
  | property owner name => exact h.prepare owner hb
  | constant owner name => exact h.prepare owner hb
  | methodsOf owner => exact h.prepare owner hb
  | propertiesOf owner => exact h.prepare owner hb
  | constantsOf owner => exact h.prepare owner hb

/-- A request keeps what look-ups keep, if it keeps it when it registers or announces something. -/
theorem Lasting.run (h : Lasting P) {r : Request}
    (hregister : ∀ x, r = .register x → ∀ b, P b → P (b.register x))
    (hannounce : ∀ c d, r = .announce c d → ∀ b, P b → P (b.announce c d)) :
    ExpandM.KeepsBase P r.run := by
  cases r with
  | type r => exact (ExpandM.keepsBase_types _).bind fun _ => ExpandM.keepsBase_pure ()
  | register x => exact ExpandM.keepsBase_modify fun s hs => hregister x rfl s.2 hs
  | announce c d => exact ExpandM.keepsBase_modify fun s hs => hannounce c d rfl s.2 hs
  | lookUp q => exact ExpandM.keepsBase_modify fun s hs => h.lookUp q hs
  | isSubclassOf child ancestor =>
    exact (ExpandM.keepsBase_isSubclassOf h child ancestor).bind fun _ => ExpandM.keepsBase_pure ()
  | expand id =>
    exact (ExpandM.keepsBase_expandType h id).bind fun _ => ExpandM.keepsBase_pure ()

end CodeBase

end UnionInference
