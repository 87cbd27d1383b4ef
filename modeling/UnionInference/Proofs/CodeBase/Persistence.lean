import UnionInference.Proofs.CodeBase.Ascription
import UnionInference.Proofs.CodeBase.Supplements

/-!
What persists in a code base in which nothing is loaded on demand. A class that was asked for a
member has received all that it inherits, and nothing is handed to it later: a class is marked before
anything is handed to it, and marked ones are passed over. So what a class answered once it always
answers, whatever other classes are asked for in the meantime.
-/

namespace UnionInference

namespace CodeBase

variable {b b₁ b₂ : CodeBase} {c : ClassName}

/-- Nothing more is handed to the class: it has received what it inherits, or it is not registered,
or classes are not filled on demand. -/
def Stocked (b : CodeBase) (c : ClassName) : Prop :=
  b.hydrateLazily = false ∨ b.hydrated.contains c.fold = true ∨ b.class? c = none

/-- The class has the same members in both code bases. -/
structure SameStock (b b₁ : CodeBase) (c : ClassName) : Prop where
  methods : b₁.methods.table c = b.methods.table c
  properties : b₁.properties.table c = b.properties.table c
  constants : b₁.constants.table c = b.constants.table c

theorem SameStock.refl (b : CodeBase) (c : ClassName) : b.SameStock b c := ⟨rfl, rfl, rfl⟩

theorem SameStock.trans (h : b.SameStock b₁ c) (h₁ : b₁.SameStock b₂ c) : b.SameStock b₂ c :=
  ⟨h₁.methods.trans h.methods, h₁.properties.trans h.properties, h₁.constants.trans h.constants⟩

theorem SameStock.inherit (b : CodeBase) {source target : ClassName} (h : target.fold ≠ c.fold) :
    b.SameStock (b.inherit source target) c :=
  ⟨MemberTables.table_inherit_of_ne h, MemberTables.table_inherit_of_ne h,
    MemberTables.table_inherit_of_ne h⟩

/-- The second code base has more inherited members and marks, but no members in classes to which
nothing more was to be handed in the first one. -/
structure Endures (b b₁ : CodeBase) : Prop where
  supplements : b.Supplements b₁
  members : ∀ c, b.Stocked c → b.SameStock b₁ c

theorem Stocked.supplements (h : b.Stocked c) (hs : b.Supplements b₁) : b₁.Stocked c := by
  unfold Stocked at h ⊢
  rw [hs.hydrateLazily, class?, hs.classes]
  exact h.imp id (.imp (hs.marks _) id)

theorem Endures.refl (hb : b.Orderly) : b.Endures b := ⟨.refl hb, fun c _ => .refl b c⟩

theorem Endures.trans (h : b.Endures b₁) (h₁ : b₁.Endures b₂) : b.Endures b₂ where
  supplements := h.supplements.trans h₁.supplements
  members c hc := (h.members c hc).trans (h₁.members c (hc.supplements h.supplements))

theorem Endures.orderly (h : b.Endures b₁) (hb : b.Orderly) : b₁.Orderly := h.supplements.orderly hb

/-! ### Filling a class -/

/-- A class is handed the members of one that it names as a source, if that one is registered. -/
theorem Orderly.supplements_handDown (hb : b.Orderly) {decl : ClassDecl} {s : ClassName}
    (hdecl : b.class? c = some decl) (hs : s ∈ decl.sources) (n : Nat) :
    b.Supplements (handDown n c b s) := by
  unfold handDown
  rw [hb.selfContained.hasClass]
  split
  · next hreg =>
    have hfill := hb.supplements_hydrateWithin n s
    have hfeeds : (hydrateWithin n s b).2.Feeds s c := by
      rw [Feeds, isRegistered, class?, hfill.classes]
      exact ⟨hreg, decl, hdecl, hs⟩
    exact hfill.trans (.inherit (hfill.orderly hb) hfeeds)
  · exact .refl hb

/-- Handing members down changes only the class that is open and classes that are filled before. -/
theorem Endures.handDown {x : CodeBase} {n : Nat} (hx : b.Endures x) (hb : b.Orderly)
    (hopen : ¬ b.Stocked c) (hfill : ∀ s, x.Endures (hydrateWithin n s x).2) {decl : ClassDecl}
    {s : ClassName} (hdecl : b.class? c = some decl) (hs : s ∈ decl.sources) :
    b.Endures (handDown n c x s) := by
  have hdeclx : x.class? c = some decl := by rw [class?, hx.supplements.classes, ← class?, hdecl]
  refine ⟨hx.supplements.trans ((hx.orderly hb).supplements_handDown hdeclx hs n), fun d hd => ?_⟩
  have hcd : c.fold ≠ d.fold := fun hsame => hopen <| by
    unfold Stocked class? at hd ⊢
    rwa [hsame]
  unfold CodeBase.handDown
  rw [(hx.orderly hb).selfContained.hasClass]
  split
  · exact ((hx.trans (hfill s)).members d hd).trans (.inherit _ hcd)
  · exact hx.members d hd

/-- Filling a class hands members only to classes that it marks first. -/
theorem Orderly.endures_hydrateWithin (n : Nat) :
    ∀ (c : ClassName) {b : CodeBase}, b.Orderly → b.hydrateLazily = true →
      b.Endures (hydrateWithin n c b).2 := by
  induction n with
  | zero => exact fun _ _ hb _ => .refl hb
  | succ n ih =>
    intro c b hb hlazy
    rw [hydrateWithin_succ]
    split
    · exact .refl hb
    next hunmarked =>
    cases hdecl : b.class? c with
    | none => exact .refl hb
    | some decl =>
      have hopen : ¬ b.Stocked c := by simp [Stocked, hlazy, hunmarked, hdecl]
      have hmark : b.Endures (b.mark c) := ⟨.mark hb c, fun d _ => ⟨rfl, rfl, rfl⟩⟩
      have hrun : ∀ ss ⊆ decl.sources, ∀ x, b.Endures x → b.Endures (ss.foldl (handDown n c) x) := by
        intro ss
        induction ss with
        | nil => exact fun _ _ hx => hx
        | cons s ss ihs =>
          intro hss x hx
          obtain ⟨hs, hss⟩ := List.cons_subset.1 hss
          have hlazyx := hx.supplements.hydrateLazily.trans hlazy
          exact ihs hss _ (hx.handDown hb hopen (fun s => ih s (hx.orderly hb) hlazyx) hdecl hs)
      exact hrun _ (List.Subset.refl _) _ hmark

/-- A class that is to be filled is marked at once, and the mark stays. -/
theorem Orderly.stocked_hydrateWithin_succ (hb : b.Orderly) (n : Nat) (c : ClassName) :
    (hydrateWithin (n + 1) c b).2.Stocked c := by
  rw [hydrateWithin_succ]
  split
  · next hmarked => exact .inr (.inl hmarked)
  cases hdecl : b.class? c with
  | none => exact .inr (.inr hdecl)
  | some decl =>
    refine .inr (.inl ?_)
    have hmark : (b.mark c).hydrated.contains c.fold = true := by simp [mark]
    have hrun : ∀ ss ⊆ decl.sources, ∀ x, b.Supplements x → x.hydrated.contains c.fold = true →
        (ss.foldl (handDown n c) x).hydrated.contains c.fold = true := by
      intro ss
      induction ss with
      | nil => exact fun _ _ _ hx => hx
      | cons s ss ihs =>
        intro hss x hx hmarked
        obtain ⟨hs, hss⟩ := List.cons_subset.1 hss
        have hdeclx : x.class? c = some decl := by rw [class?, hx.classes, ← class?, hdecl]
        have hstep := (hx.orderly hb).supplements_handDown hdeclx hs n
        exact ihs hss _ (hx.trans hstep) (hstep.marks _ hmarked)
    exact hrun _ (List.Subset.refl _) _ (.mark hb c) hmark

/-! ### Asking for a class -/

/-- A class to which nothing more is handed is not filled again. -/
theorem Stocked.hydrate_eq (h : b.Stocked c) (hlazy : b.hydrateLazily = true) :
    (CodeBase.hydrate c b).2 = b := by
  show (hydrateWithin b.hydrationBound c b).2 = b
  rw [hydrationBound, hydrateWithin_succ]
  rcases h with hnever | hmarked | hnone
  · rw [hlazy] at hnever
    cases hnever
  · rw [if_pos hmarked]
  · rw [hnone]
    split <;> rfl

/-- The code base in which a class is filled where classes are filled on demand. -/
def filled (c : ClassName) (b : CodeBase) : CodeBase :=
  if b.hydrateLazily then (hydrate c b).2 else b

theorem Orderly.endures_filled (hb : b.Orderly) (c : ClassName) : b.Endures (b.filled c) := by
  unfold filled
  split
  · next hlazy => exact endures_hydrateWithin b.hydrationBound c hb hlazy
  · exact .refl hb

theorem Orderly.stocked_filled (hb : b.Orderly) (c : ClassName) : (b.filled c).Stocked c := by
  unfold filled
  split
  · exact hb.stocked_hydrateWithin_succ _ c
  · next hlazy => exact .inl (by simpa using hlazy)

theorem Stocked.filled_eq (h : b.Stocked c) : b.filled c = b := by
  unfold filled
  split
  · next hlazy => exact h.hydrate_eq hlazy
  · rfl

theorem Orderly.prepare_eq_filled (hb : b.Orderly) (c : ClassName) :
    (CodeBase.prepare c b).2 = b.filled c := by
  rw [hb.selfContained.prepare_eq]
  cases hreg : b.isRegistered c with
  | true => rfl
  | false =>
    rw [isRegistered, hb.selfContained.loadable.classes.contains_eq_isSome] at hreg
    have hnone : b.class? c = none := by
      rw [class?, Option.isNone_iff_eq_none.1 (Option.isSome_eq_false_iff.1 hreg), Option.map_none]
    exact (Stocked.filled_eq (.inr (.inr hnone))).symm

/-- The second code base is the first one after classes were filled in it. -/
def FillsTo (b b₁ : CodeBase) : Prop :=
  ∃ cs : List ClassName, b₁ = cs.foldl (fun b c => b.filled c) b

theorem FillsTo.refl (b : CodeBase) : b.FillsTo b := ⟨[], rfl⟩

theorem fillsTo_filled (b : CodeBase) (c : ClassName) : b.FillsTo (b.filled c) := ⟨[c], rfl⟩

theorem FillsTo.trans (h : b.FillsTo b₁) (h₁ : b₁.FillsTo b₂) : b.FillsTo b₂ := by
  obtain ⟨cs, rfl⟩ := h
  obtain ⟨ds, rfl⟩ := h₁
  exact ⟨cs ++ ds, (List.foldl_append ..).symm⟩

/-- What filling a class keeps holds after classes were filled. -/
theorem FillsTo.induction {P : CodeBase → Prop} (hstep : ∀ b c, P b → P (b.filled c)) (hb : P b)
    (h : b.FillsTo b₁) : P b₁ := by
  obtain ⟨cs, rfl⟩ := h
  induction cs generalizing b with
  | nil => exact hb
  | cons c cs ih => exact ih (hstep b c hb)

/-! ### Answers that stay -/

/-- A question about a class that the class answers once it is filled, and then always in the same
way. -/
structure Stays {α : Type} (c : ClassName) (p : CodeBase → α × CodeBase) : Prop where
  fills : ∀ {b : CodeBase}, b.Orderly → (p b).2 = b.filled c
  same : ∀ {b b₁ : CodeBase}, b.Orderly → (b.filled c).Endures b₁ → (p b₁).1 = (p b).1

theorem Stays.again {α : Type} {p : CodeBase → α × CodeBase} (hp : Stays c p) (hb : b.Orderly)
    (h : (p b).2.Endures b₁) : p b₁ = ((p b).1, b₁) := by
  rw [hp.fills hb] at h
  have hstocked := (hb.stocked_filled c).supplements h.supplements
  exact Prod.ext (hp.same hb h) ((hp.fills (h.orderly ((hb.endures_filled c).orderly hb))).trans
    hstocked.filled_eq)

/-- A question about the members of a class: the class is prepared, and then it has them. -/
theorem stays_prepare {α : Type} (c : ClassName) {f : CodeBase → α}
    (hf : ∀ {b b₁ : CodeBase}, b.SameStock b₁ c → f b₁ = f b) :
    Stays c fun b => (f (CodeBase.prepare c b).2, (CodeBase.prepare c b).2) where
  fills hb := hb.prepare_eq_filled c
  same {b b₁} hb h := by
    have hstocked := hb.stocked_filled c
    have hb₁ := h.orderly ((hb.endures_filled c).orderly hb)
    dsimp only
    rw [hb.prepare_eq_filled, hb₁.prepare_eq_filled, (hstocked.supplements h.supplements).filled_eq]
    exact hf (h.members c hstocked)

theorem stays_method? (c : ClassName) (name : String) : Stays c (method? c name) :=
  stays_prepare c (f := fun b => b.methods.get? c name) fun h => by
    rw [MemberTables.get?, MemberTables.get?, h.methods]

theorem stays_property? (c : ClassName) (name : String) : Stays c (property? c name) :=
  stays_prepare c (f := fun b => b.properties.get? c name) fun h => by
    rw [MemberTables.get?, MemberTables.get?, h.properties]

theorem stays_constant? (c : ClassName) (name : String) : Stays c (constant? c name) :=
  stays_prepare c (f := fun b => b.constants.get? c name) fun h => by
    rw [MemberTables.get?, MemberTables.get?, h.constants]

theorem getClass_eq_ok_iff {d : ClassDecl} :
    CodeBase.getClass c b = .ok (d, b₁) ↔ (b.filled c).class? c = some d ∧ b₁ = b.filled c := by
  rw [getClass_apply, filled]
  generalize (if b.hydrateLazily then (hydrate c b).2 else b) = x
  cases hdecl : x.class? c with
  | none => simp [hdecl]
  | some d' => simp [hdecl, eq_comm]

/-- A class that was found is found again, and then nothing is filled. -/
theorem Orderly.getClass_again (hb : b.Orderly) {d : ClassDecl}
    (h : CodeBase.getClass c b = .ok (d, b₁)) (he : b₁.Endures b₂) :
    b.Endures b₁ ∧ CodeBase.getClass c b₂ = .ok (d, b₂) := by
  obtain ⟨hdecl, rfl⟩ := getClass_eq_ok_iff.1 h
  have hfilled : b₂.filled c = b₂ := ((hb.stocked_filled c).supplements he.supplements).filled_eq
  have hsame : b₂.class? c = (b.filled c).class? c := by
    rw [class?, class?, he.supplements.classes]
  refine ⟨hb.endures_filled c, getClass_eq_ok_iff.2 ⟨?_, hfilled.symm⟩⟩
  rw [hfilled, hsame, hdecl]

/-! ### Sessions -/

/-- Registrations keep a code base orderly. -/
theorem Orderly.register (hb : b.Orderly) (r : Registration) : (b.register r).Orderly := by
  refine ⟨hb.selfContained.register r, ?_⟩
  cases r with
  | definition d =>
    show (b.addDefinition d).Tabled
    rw [addDefinition_eq]
    exact hb.tabled.foldl_put _
  | takeBack file => exact hb.tabled.undoFile file
  | follow | file => exact { hb.tabled with }
  | classDecl c => exact hb.tabled.put (.classDecl c)
  | method m => exact hb.tabled.put (.method m)
  | property p => exact hb.tabled.put (.property p)
  | classConstant c => exact hb.tabled.put (.classConstant c)
  | function f => exact hb.tabled.put (.function f)
  | globalConstant c => exact hb.tabled.put (.globalConstant c)

/-- Questions only supplement an orderly code base. -/
theorem Orderly.lookUp (hb : b.Orderly) (q : LookUp) : b.Supplements (b.lookUp q) :=
  SelfContained.lookUp_induction (P := fun b₁ => b.Supplements b₁)
    (fun _ h => (h.orderly hb).selfContained)
    (fun _ c h => h.trans (.mark (h.orderly hb) c))
    (fun _ _ _ hfeeds h => h.trans (.inherit (h.orderly hb) hfeeds)) (.refl hb) q

/-- Registrations of members where they are declared keep all members traceable. -/
theorem Traceable.register (ht : b.Traceable) (hb : b.Tabled) {r : Registration} (hr : r.Adds) :
    (b.register r).Traceable := by
  rcases register_cases hr with ⟨heq, -⟩ | rfl | ⟨name, rfl⟩
  · rw [heq]
    have hdeclared : ∀ x ∈ r.elements, x.isInherited = false := fun _ => hr.isInherited
    clear heq
    generalize r.elements = xs at hdeclared
    induction xs generalizing b with
    | nil => exact ht
    | cons x xs ih =>
      exact ih (ht.put hb (hdeclared x List.mem_cons_self)) (hb.put x) fun y hy =>
        hdeclared y (List.mem_cons_of_mem x hy)
  · exact { ht with }
  · exact { ht with }

/-- A session leaves an orderly code base. -/
theorem Orderly.foldl_effect (hb : b.Orderly) (requests : List Request) :
    (requests.foldl (fun b r => r.effect b) b).Orderly := by
  induction requests generalizing b with
  | nil => exact hb
  | cons r requests ih =>
    cases r with
    | register r => exact ih (hb.register r)
    | lookUp q => exact ih ((hb.lookUp q).orderly hb)
    | _ => exact ih hb

/-- In a session in which members are registered where they are declared and nothing is taken back,
every member can be traced, so each class owns its members. -/
theorem traceable_foldl_effect {requests : List Request}
    (hadds : ∀ r ∈ Request.registrations requests, r.Adds) (hb : b.Orderly) (ht : b.Traceable) :
    (requests.foldl (fun b r => r.effect b) b).Traceable := by
  induction requests generalizing b with
  | nil => exact ht
  | cons r requests ih =>
    cases r with
    | register r =>
      obtain ⟨hr, hrest⟩ := List.forall_mem_cons.1 hadds
      exact ih hrest (hb.register r) (ht.register hb.tabled hr)
    | lookUp q => exact ih hadds ((hb.lookUp q).orderly hb) ((hb.lookUp q).traceable ht)
    | _ => exact ih hadds hb ht

end CodeBase

end UnionInference
