import UnionInference.Proofs.Analysis.Steps

/-!
What an analysis does to the log of issues: nothing that was reported is ever taken back.
-/

namespace UnionInference

namespace AnalysisM

variable {α β : Type}

/-! ### Work step by step -/

theorem bind_apply (p : AnalysisM α) (f : α → AnalysisM β) (s : Setup) (w : World) :
    (p >>= f) s w =
      match p s w with
      | .ok (.ok a, w₁) => f a s w₁
      | .ok (.error e, w₁) => .ok (.error e, w₁)
      | .error v => .error v := by
  rw [show (p >>= f) s w = (p s w >>= fun r => ExceptT.bindCont (fun a => f a s) r.1 r.2) from rfl]
  cases p s w with
  | error v => rfl
  | ok r =>
    obtain ⟨_ | a, w₁⟩ := r <;> rfl

theorem bind_of_ok {p : AnalysisM α} {f : α → AnalysisM β} {a : α} {s : Setup} {w w₁ : World}
    (h : p s w = .ok (.ok a, w₁)) : (p >>= f) s w = f a s w₁ := by
  rw [bind_apply, h]

/-- Two steps give a result when both do. -/
theorem bind_eq_ok {p : AnalysisM α} {f : α → AnalysisM β} {b : β} {s : Setup} {w w' : World} :
    (p >>= f) s w = .ok (.ok b, w') ↔
      ∃ a w₁, p s w = .ok (.ok a, w₁) ∧ f a s w₁ = .ok (.ok b, w') := by
  constructor
  · intro h
    rw [bind_apply] at h
    split at h
    · next a w₁ hp => exact ⟨a, w₁, hp, h⟩
    · cases h
    · cases h
  · rintro ⟨a, w₁, hp, hf⟩
    rw [bind_of_ok hp, hf]

theorem recover_apply (p : AnalysisM α) (handle : Failure → AnalysisM α) (s : Setup) (w : World) :
    recover p handle s w =
      match p s w with
      | .ok (.ok a, w₁) => .ok (.ok a, w₁)
      | .ok (.error f, w₁) => handle f s w₁
      | .error v => .error v := by
  rw [recover]
  cases p s w with
  | error v => rfl
  | ok r =>
    obtain ⟨_ | a, w₁⟩ := r <;> rfl

/-! ### Work that keeps the log -/

/-- The work keeps what was reported before. -/
def Grows (p : AnalysisM α) : Prop :=
  ∀ s w r w', p s w = .ok (r, w') → w.issues.toList <+: w'.issues.toList

namespace Grows

@[grind ←]
theorem bind {p : AnalysisM α} {f : α → AnalysisM β} (hp : Grows p) (hf : ∀ a, Grows (f a)) :
    Grows (p >>= f) := by
  intro s w r w' h
  rw [bind_apply] at h
  split at h
  · next a w₁ hw => exact (hp s w _ _ hw).trans (hf a s w₁ _ _ h)
  · next e w₁ hw =>
    cases h
    exact hp s w _ _ hw
  · cases h

@[grind ←]
theorem recover {p : AnalysisM α} {handle : Failure → AnalysisM α} (hp : Grows p)
    (hf : ∀ f, Grows (handle f)) : Grows (recover p handle) := by
  intro s w r w' h
  rw [recover_apply] at h
  split at h
  · next a w₁ hw =>
    cases h
    exact hp s w _ _ hw
  · next f w₁ hw => exact (hp s w _ _ hw).trans (hf f s w₁ _ _ h)
  · cases h

/-- Work that leaves the log alone. -/
theorem of_issues_eq {p : AnalysisM α}
    (h : ∀ s w r w', p s w = .ok (r, w') → w'.issues = w.issues) : Grows p := by
  intro s w r w' hw
  simp [h s w r w' hw]

@[grind ←]
theorem pure (a : α) : Grows (pure a) := of_issues_eq (by rintro s w r w' ⟨⟩; rfl)

@[grind ←]
theorem map (f : α → β) {p : AnalysisM α} (hp : Grows p) : Grows (f <$> p) :=
  hp.bind fun a => pure (f a)

@[grind ←]
theorem foldlM {f : β → α → AnalysisM β} (hf : ∀ b a, Grows (f b a)) (as : List α) (b : β) :
    Grows (as.foldlM f b) := by
  induction as generalizing b with
  | nil => exact pure b
  | cons a as ih => exact (hf b a).bind ih

@[grind ←]
theorem modifyGet {f : World → α × World} (h : ∀ w, (f w).2.issues = w.issues) :
    Grows (modifyGet f) :=
  of_issues_eq fun s w r w' hw => by
    cases hw
    exact h w

end Grows

@[grind ←]
theorem grows_modify {f : World → World} (h : ∀ w, (f w).issues = w.issues) :
    Grows (modify f : AnalysisM Unit) := Grows.modifyGet h

@[grind ←]
theorem grows_get : Grows (get : AnalysisM World) := .of_issues_eq (by rintro s w r w' ⟨⟩; rfl)

@[grind ←]
theorem grows_read : Grows (read : AnalysisM Setup) := .of_issues_eq (by rintro s w r w' ⟨⟩; rfl)

@[grind ←]
theorem grows_fail (f : Failure) : Grows (fail f : AnalysisM α) :=
  .of_issues_eq (by rintro s w r w' ⟨⟩; rfl)

@[grind ←]
theorem grows_base (work : BaseM α) : Grows (base work) :=
  .of_issues_eq (by rintro s w r w' ⟨⟩; rfl)

/-- Work on a part of the world that a violation may end. -/
theorem Grows.of_checked {σ : Type} {p : AnalysisM α} {f : World → Checked σ}
    {g : World → σ → α × World} (hissues : ∀ w x, (g w x).2.issues = w.issues)
    (hp : ∀ s w, p s w = f w >>= fun x => .ok (.ok (g w x).1, (g w x).2)) : Grows p := by
  refine .of_issues_eq fun s w r w' h => ?_
  rw [hp] at h
  cases hf : f w with
  | error v =>
    rw [hf] at h
    cases h
  | ok x =>
    rw [hf] at h
    cases h
    exact hissues w x

@[grind ←]
theorem grows_types (work : TypeM α) : Grows (types work) :=
  .of_checked (f := fun w => work w.types) (g := fun w x => (x.1, { w with types := x.2 }))
    (fun _ _ => rfl) fun _ _ => rfl

@[grind ←]
theorem grows_query (f : TypeTable → Checked α) : Grows (query f) :=
  .of_checked (f := fun w => f w.types) (g := fun w x => (x, w)) (fun _ _ => rfl)
    fun _ _ => rfl

@[grind ←]
theorem grows_hierarchy (work : ExpandM CodeBase α) : Grows (hierarchy work) :=
  .of_checked (f := fun w => work (w.types, w.base))
    (g := fun w x => (x.1, { w with types := x.2.1, base := x.2.2 })) (fun _ _ => rfl)
    fun _ _ => rfl

@[grind ←]
theorem grows_getClass (name : ClassName) : Grows (getClass name) :=
  .of_checked (f := fun w => CodeBase.getClass name w.base)
    (g := fun w x => (x.1, { w with base := x.2 })) (fun _ _ => rfl) fun _ _ => rfl

@[grind ←]
theorem grows_emit (i : Issue) : Grows (emit i) := by
  rintro s w r w' ⟨⟩
  exact ⟨[i], by simp [IssueLog.add, IssueLog.toList]⟩

theorem issues_withVariables (w : World) (c : Context) (vars : List (String × UnionType)) :
    (w.withVariables c vars).2.issues = w.issues := by
  induction vars generalizing w c with
  | nil => rfl
  | cons x vars ih => exact ih _ _

theorem grows_keep (c : Context) (n : Node) (u : UnionType) : Grows (keep c n u) :=
  .bind (grows_modify (f := fun w => w.remember c n.id u) fun _ => rfl) fun _ => .pure u

theorem grows_variableType? (c : Context) (name : String) : Grows (variableType? c name) := by
  unfold variableType? scopeOf; grind

/-- All work of an evaluation keeps the log. -/
@[grind ←]
theorem Built.grows {p : AnalysisM α} (h : Built p) : Grows p := by
  induction h with
  | pure a => exact .pure a
  | bind _ _ hp hf => exact hp.bind hf
  | recover _ _ hp hf => exact hp.recover hf
  | fail f => exact grows_fail f
  | read => exact grows_read
  | get => exact grows_get
  | emit i => exact grows_emit i
  | types _ => exact grows_types _
  | query f => exact grows_query f
  | getClass name => exact grows_getClass name
  | hasClass | method? | property? | constant? => exact grows_base _
  | hasAncestor | isSubclassOf => exact grows_hierarchy _
  | withScope c s => exact .modifyGet fun w => rfl
  | withVariables c vars => exact .modifyGet fun w => issues_withVariables w c vars
  | resolveOrCreateVariable c name line =>
    refine (grows_variableType? c name).bind fun found => ?_
    cases found with
    | some u => exact .pure u
    | none =>
      refine grows_get.bind fun w => grows_read.bind fun setup => ?_
      split
      · exact (grows_modify (f := fun w => w.define c name .empty) fun _ => rfl).bind fun _ => .pure _
      · exact grows_fail _
  | keep c n u => exact grows_keep c n u

end AnalysisM

end UnionInference
