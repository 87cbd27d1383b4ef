import UnionInference.Proofs.Types.Recurrence

/-!
Types of two tables. Two registries that were filled in different ways hold the same types in
different places. Which place of the one corresponds to which place of the other is told by the types
alone: they are of the same kind, both admit null or neither does, and what they are made of
corresponds in turn. In canonical tables no place corresponds to two, and the types that both tables
have from a common beginning correspond to themselves.
-/

namespace UnionInference

/-! ### Lists that match -/

/-- Each element of either list is related to an element of the other one. -/
structure Matched {α β : Type} (R : α → β → Prop) (as : List α) (bs : List β) : Prop where
  forth : ∀ a ∈ as, ∃ b ∈ bs, R a b
  back : ∀ b ∈ bs, ∃ a ∈ as, R a b

namespace Matched

variable {α β γ δ : Type} {R : α → β → Prop} {S : γ → δ → Prop} {as : List α} {bs : List β}

theorem nil : Matched R [] [] := ⟨nofun, nofun⟩

theorem refl {R : α → α → Prop} (h : ∀ a ∈ as, R a a) : Matched R as as :=
  ⟨fun a ha => ⟨a, ha, h a ha⟩, fun a ha => ⟨a, ha, h a ha⟩⟩

theorem singleton {a : α} {b : β} (h : R a b) : Matched R [a] [b] := by
  constructor <;> simpa using h

theorem of_forall₂ (h : List.Forall₂ R as bs) : Matched R as bs := by
  induction h with
  | nil => exact nil
  | cons hab _ ih =>
    constructor
    · rintro a (_ | ⟨_, ha⟩)
      · exact ⟨_, List.mem_cons_self, hab⟩
      · obtain ⟨b, hb, hR⟩ := ih.forth a ha
        exact ⟨b, List.mem_cons_of_mem _ hb, hR⟩
    · rintro b (_ | ⟨_, hb⟩)
      · exact ⟨_, List.mem_cons_self, hab⟩
      · obtain ⟨a, ha, hR⟩ := ih.back b hb
        exact ⟨a, List.mem_cons_of_mem _ ha, hR⟩

theorem imp {R' : α → β → Prop} (h : Matched R as bs)
    (hR : ∀ a ∈ as, ∀ b ∈ bs, R a b → R' a b) : Matched R' as bs := by
  constructor
  · intro a ha
    obtain ⟨b, hb, hab⟩ := h.forth a ha
    exact ⟨b, hb, hR a ha b hb hab⟩
  · intro b hb
    obtain ⟨a, ha, hab⟩ := h.back b hb
    exact ⟨a, ha, hR a ha b hb hab⟩

theorem flip (h : Matched R as bs) : Matched (fun b a => R a b) bs as := ⟨h.back, h.forth⟩

theorem comp {R' : β → γ → Prop} {cs : List γ} {T : α → γ → Prop} (h : Matched R as bs)
    (h' : Matched R' bs cs) (hT : ∀ a b c, R a b → R' b c → T a c) : Matched T as cs := by
  constructor
  · intro a ha
    obtain ⟨b, hb, hab⟩ := h.forth a ha
    obtain ⟨c, hc, hbc⟩ := h'.forth b hb
    exact ⟨c, hc, hT a b c hab hbc⟩
  · intro c hc
    obtain ⟨b, hb, hbc⟩ := h'.back c hc
    obtain ⟨a, ha, hab⟩ := h.back b hb
    exact ⟨a, ha, hT a b c hab hbc⟩

theorem append {as' : List α} {bs' : List β} (h : Matched R as bs) (h' : Matched R as' bs') :
    Matched R (as ++ as') (bs ++ bs') := by
  constructor
  · intro a ha
    rcases List.mem_append.1 ha with ha | ha
    · obtain ⟨b, hb, hab⟩ := h.forth a ha
      exact ⟨b, List.mem_append_left _ hb, hab⟩
    · obtain ⟨b, hb, hab⟩ := h'.forth a ha
      exact ⟨b, List.mem_append_right _ hb, hab⟩
  · intro b hb
    rcases List.mem_append.1 hb with hb | hb
    · obtain ⟨a, ha, hab⟩ := h.back b hb
      exact ⟨a, List.mem_append_left _ ha, hab⟩
    · obtain ⟨a, ha, hab⟩ := h'.back b hb
      exact ⟨a, List.mem_append_right _ ha, hab⟩

theorem flatMap {f : α → List γ} {g : β → List δ} (h : Matched R as bs)
    (hfg : ∀ a ∈ as, ∀ b ∈ bs, R a b → Matched S (f a) (g b)) :
    Matched S (as.flatMap f) (bs.flatMap g) := by
  constructor
  · intro x hx
    obtain ⟨a, ha, hx⟩ := List.mem_flatMap.1 hx
    obtain ⟨b, hb, hab⟩ := h.forth a ha
    obtain ⟨y, hy, hxy⟩ := (hfg a ha b hb hab).forth x hx
    exact ⟨y, List.mem_flatMap.2 ⟨b, hb, hy⟩, hxy⟩
  · intro y hy
    obtain ⟨b, hb, hy⟩ := List.mem_flatMap.1 hy
    obtain ⟨a, ha, hab⟩ := h.back b hb
    obtain ⟨x, hx, hxy⟩ := (hfg a ha b hb hab).back y hy
    exact ⟨x, List.mem_flatMap.2 ⟨a, ha, hx⟩, hxy⟩

theorem map {f : α → γ} {g : β → δ} (h : Matched R as bs)
    (hfg : ∀ a ∈ as, ∀ b ∈ bs, R a b → S (f a) (g b)) : Matched S (as.map f) (bs.map g) := by
  rw [List.map_eq_flatMap, List.map_eq_flatMap]
  exact h.flatMap fun a ha b hb hab => singleton (hfg a ha b hb hab)

theorem filter {p : α → Bool} {q : β → Bool} (h : Matched R as bs)
    (hpq : ∀ a ∈ as, ∀ b ∈ bs, R a b → p a = q b) : Matched R (as.filter p) (bs.filter q) := by
  constructor
  · intro a ha
    obtain ⟨ha, hp⟩ := List.mem_filter.1 ha
    obtain ⟨b, hb, hab⟩ := h.forth a ha
    exact ⟨b, List.mem_filter.2 ⟨hb, (hpq a ha b hb hab).symm.trans hp⟩, hab⟩
  · intro b hb
    obtain ⟨hb, hq⟩ := List.mem_filter.1 hb
    obtain ⟨a, ha, hab⟩ := h.back b hb
    exact ⟨a, List.mem_filter.2 ⟨ha, (hpq a ha b hb hab).trans hq⟩, hab⟩

/-- What stands in rows beside the elements of lists that match is related where the elements are. -/
theorem rows {P : α → γ → Prop} {Q : β → δ → Prop} {cs : List γ} {ds : List δ} (h : Matched R as bs)
    (hc : List.Forall₂ P as cs) (hd : List.Forall₂ Q bs ds)
    (hS : ∀ a ∈ as, ∀ b ∈ bs, R a b → ∀ c d, P a c → Q b d → S c d) : Matched S cs ds := by
  constructor
  · intro c hmem
    obtain ⟨a, ha, hac⟩ := (of_forall₂ hc).back c hmem
    obtain ⟨b, hb, hab⟩ := h.forth a ha
    obtain ⟨d, hd, hbd⟩ := (of_forall₂ hd).forth b hb
    exact ⟨d, hd, hS a ha b hb hab c d hac hbd⟩
  · intro d hmem
    obtain ⟨b, hb, hbd⟩ := (of_forall₂ hd).back d hmem
    obtain ⟨a, ha, hab⟩ := h.back b hb
    obtain ⟨c, hc, hac⟩ := (of_forall₂ hc).forth a ha
    exact ⟨c, hc, hS a ha b hb hab c d hac hbd⟩

theorem filterMap {f : α → Option γ} {g : β → Option δ} (h : Matched R as bs)
    (hfg : ∀ a ∈ as, ∀ b ∈ bs, R a b → Option.Rel S (f a) (g b)) :
    Matched S (as.filterMap f) (bs.filterMap g) := by
  constructor
  · intro x hx
    obtain ⟨a, ha, hx⟩ := List.mem_filterMap.1 hx
    obtain ⟨b, hb, hab⟩ := h.forth a ha
    have hrel := hfg a ha b hb hab
    rw [hx] at hrel
    generalize hy : g b = y? at hrel
    obtain ⟨hxy⟩ | _ := hrel
    exact ⟨_, List.mem_filterMap.2 ⟨b, hb, hy⟩, hxy⟩
  · intro y hy
    obtain ⟨b, hb, hy⟩ := List.mem_filterMap.1 hy
    obtain ⟨a, ha, hab⟩ := h.back b hb
    have hrel := hfg a ha b hb hab
    rw [hy] at hrel
    generalize hx : f a = x? at hrel
    obtain ⟨hxy⟩ | _ := hrel
    exact ⟨_, List.mem_filterMap.2 ⟨a, ha, hx⟩, hxy⟩

theorem isEmpty_eq (h : Matched R as bs) : as.isEmpty = bs.isEmpty := by
  cases as with
  | nil =>
    cases bs with
    | nil => rfl
    | cons b bs =>
      obtain ⟨a, ha, -⟩ := h.back b List.mem_cons_self
      cases ha
  | cons a as =>
    obtain ⟨b, hb, -⟩ := h.forth a List.mem_cons_self
    cases bs with
    | nil => cases hb
    | cons b bs => rfl

theorem any_eq {p : α → Bool} {q : β → Bool} (h : Matched R as bs)
    (hpq : ∀ a ∈ as, ∀ b ∈ bs, R a b → p a = q b) : as.any p = bs.any q := by
  rw [Bool.eq_iff_iff, List.any_eq_true, List.any_eq_true]
  constructor
  · rintro ⟨a, ha, hp⟩
    obtain ⟨b, hb, hab⟩ := h.forth a ha
    exact ⟨b, hb, (hpq a ha b hb hab).symm.trans hp⟩
  · rintro ⟨b, hb, hq⟩
    obtain ⟨a, ha, hab⟩ := h.back b hb
    exact ⟨a, ha, (hpq a ha b hb hab).trans hq⟩

theorem all_eq {p : α → Bool} {q : β → Bool} (h : Matched R as bs)
    (hpq : ∀ a ∈ as, ∀ b ∈ bs, R a b → p a = q b) : as.all p = bs.all q := by
  rw [List.all_eq_not_any_not, List.all_eq_not_any_not]
  exact congrArg _ (h.any_eq fun a ha b hb hab => congrArg _ (hpq a ha b hb hab))

end Matched

theorem optionRel_map {α β γ δ : Type} {R : α → β → Prop} {S : γ → δ → Prop} {f : α → γ}
    {g : β → δ} {x : Option α} {y : Option β} (h : Option.Rel R x y)
    (hfg : ∀ a b, R a b → S (f a) (g b)) : Option.Rel S (x.map f) (y.map g) := by
  obtain ⟨hab⟩ | _ := h
  · exact .some (hfg _ _ hab)
  · exact .none

/-- Related row by row, where the elements of the rows are known. -/
theorem forall₂_imp_mem {α β : Type} {R S : α → β → Prop} {as : List α} {bs : List β}
    (h : List.Forall₂ R as bs) (hRS : ∀ a ∈ as, ∀ b ∈ bs, R a b → S a b) :
    List.Forall₂ S as bs := by
  induction h with
  | nil => exact .nil
  | cons hab _ ih =>
    refine .cons (hRS _ List.mem_cons_self _ List.mem_cons_self hab) (ih fun a ha b hb => ?_)
    exact hRS a (List.mem_cons_of_mem _ ha) b (List.mem_cons_of_mem _ hb)

theorem forall₂_comp {α β γ : Type} {R : α → β → Prop} {S : β → γ → Prop} {T : α → γ → Prop}
    {as : List α} {bs : List β} {cs : List γ} (h : List.Forall₂ R as bs)
    (h' : List.Forall₂ S bs cs) (hT : ∀ a b c, R a b → S b c → T a c) : List.Forall₂ T as cs := by
  induction h generalizing cs with
  | nil =>
    cases h'
    exact .nil
  | cons hab _ ih =>
    obtain _ | ⟨hbc, hrest⟩ := h'
    exact .cons (hT _ _ _ hab hbc) (ih hrest)

/-! ### Kinds that match -/

/-- The unions have related members. -/
def UnionType.Matches (R : TypeId → TypeId → Prop) (u v : UnionType) : Prop :=
  Matched R u.members v.members

/-- The parameters are passed alike and take related types; no types stand for all values. -/
def CallableParam.Matches (R : TypeId → TypeId → Prop) (p q : CallableParam) : Prop :=
  p.type.orMixed.Matches R q.type.orMixed ∧ p.byRef = q.byRef ∧ p.variadic = q.variadic ∧
    p.optional = q.optional

/-- The fields have the same key and hold related types, and both may be missing or none. -/
def ShapeField.Matches (R : TypeId → TypeId → Prop) (f g : ShapeKey × ShapeField) : Prop :=
  f.1 = g.1 ∧ f.2.optional = g.2.optional ∧ f.2.type.Matches R g.2.type

/-- The kinds are the same, with class names compared as given, and are made of related types. -/
def TypeKind.Matches (sameName : ClassName → ClassName → Prop) (R : TypeId → TypeId → Prop) :
    TypeKind → TypeKind → Prop
  | .native j, .native k => j = k
  | .object a as, .object b bs => sameName a b ∧ List.Forall₂ (UnionType.Matches R) as bs
  | .array j a, .array k b => j = k ∧ R a b
  | .shape fs, .shape gs => List.Forall₂ (ShapeField.Matches R) fs gs
  | .intLiteral m, .intLiteral n => m = n
  | .stringLiteral r, .stringLiteral s => r = s
  | .callable r, .callable s =>
    r.isClosure = s.isClosure ∧ List.Forall₂ (CallableParam.Matches R) r.params s.params ∧
      r.result.Matches R s.result
  | .template r, .template s => r = s
  | _, _ => False

namespace TypeKind

variable {N N' : ClassName → ClassName → Prop} {R R' : TypeId → TypeId → Prop}

/-- The kind is made of the type; a parameter that takes nothing takes all values. -/
def IsPart (kind : TypeKind) (x : TypeId) : Prop := x ∈ kind.embedded ∨ x = NativeKind.mixed.id

theorem isPart_orMixed {sig : CallableSignature} {p : CallableParam} (hp : p ∈ sig.params)
    {x : TypeId} (hx : x ∈ p.type.orMixed.members) : (TypeKind.callable sig).IsPart x := by
  rw [UnionType.orMixed] at hx
  split at hx
  · exact .inr (UnionType.mem_of.1 hx)
  · exact .inl (List.mem_append_left _ (List.mem_flatMap.2 ⟨p, hp, hx⟩))

theorem Matches.imp (hN : ∀ p q, N p q → N' p q) : ∀ {a b : TypeKind}, a.Matches N R b →
    (∀ x y, a.IsPart x → b.IsPart y → R x y → R' x y) → a.Matches N' R' b
  | .native _, .native _, h, _ => h
  | .object _ _, .object _ _, h, hR =>
    ⟨hN _ _ h.1, forall₂_imp_mem h.2 fun u hu v hv huv => huv.imp fun x hx y hy =>
      hR x y (.inl (List.mem_flatMap.2 ⟨u, hu, hx⟩)) (.inl (List.mem_flatMap.2 ⟨v, hv, hy⟩))⟩
  | .array .., .array .., h, hR =>
    ⟨h.1, hR _ _ (.inl (List.mem_singleton.2 rfl)) (.inl (List.mem_singleton.2 rfl)) h.2⟩
  | .shape _, .shape _, h, hR =>
    forall₂_imp_mem h fun f hf g hg hfg => ⟨hfg.1, hfg.2.1, hfg.2.2.imp fun x hx y hy =>
      hR x y (.inl (List.mem_flatMap.2 ⟨f, hf, hx⟩)) (.inl (List.mem_flatMap.2 ⟨g, hg, hy⟩))⟩
  | .intLiteral _, .intLiteral _, h, _ => h
  | .stringLiteral _, .stringLiteral _, h, _ => h
  | .callable _, .callable _, h, hR =>
    ⟨h.1, forall₂_imp_mem h.2.1 fun _ hp _ hq hpq => ⟨hpq.1.imp fun x hx y hy =>
      hR x y (isPart_orMixed hp hx) (isPart_orMixed hq hy), hpq.2⟩, h.2.2.imp fun x hx y hy =>
        hR x y (.inl (List.mem_append_right _ hx)) (.inl (List.mem_append_right _ hy))⟩
  | .template _, .template _, h, _ => h

theorem Matches.flip (hN : ∀ p q, N p q → N' q p) :
    ∀ {a b : TypeKind}, a.Matches N R b → b.Matches N' (fun y x => R x y) a
  | .native _, .native _, h => Eq.symm h
  | .object _ _, .object _ _, h => ⟨hN _ _ h.1, h.2.flip.imp fun _ _ => Matched.flip⟩
  | .array .., .array .., h => ⟨h.1.symm, h.2⟩
  | .shape _, .shape _, h =>
    List.Forall₂.flip h |>.imp fun _ _ hfg => ⟨hfg.1.symm, hfg.2.1.symm, hfg.2.2.flip⟩
  | .intLiteral _, .intLiteral _, h => Eq.symm h
  | .stringLiteral _, .stringLiteral _, h => Eq.symm h
  | .callable _, .callable _, h =>
    ⟨h.1.symm, h.2.1.flip.imp fun _ _ hpq =>
      ⟨hpq.1.flip, hpq.2.1.symm, hpq.2.2.1.symm, hpq.2.2.2.symm⟩, h.2.2.flip⟩
  | .template _, .template _, h => Eq.symm h

theorem Matches.comp {N'' : ClassName → ClassName → Prop} {R'' : TypeId → TypeId → Prop}
    (hN : ∀ p q r, N p q → N' q r → N'' p r) (hR : ∀ x y z, R x y → R' y z → R'' x z)
    {a b c : TypeKind} (h : a.Matches N R b) (h' : b.Matches N' R' c) : a.Matches N'' R'' c := by
  -- the two outer kinds are of the form of the one between them
  cases b with
  | native | intLiteral | stringLiteral | template =>
    cases a <;> try exact h.elim
    cases c <;> try exact h'.elim
    exact Eq.trans h h'
  | object =>
    cases a <;> try exact h.elim
    cases c <;> try exact h'.elim
    exact ⟨hN _ _ _ h.1 h'.1, forall₂_comp h.2 h'.2 fun _ _ _ huv hvw => huv.comp hvw hR⟩
  | array =>
    cases a <;> try exact h.elim
    cases c <;> try exact h'.elim
    exact ⟨h.1.trans h'.1, hR _ _ _ h.2 h'.2⟩
  | shape =>
    cases a <;> try exact h.elim
    cases c <;> try exact h'.elim
    exact forall₂_comp h h' fun _ _ _ hfg hgk =>
      ⟨hfg.1.trans hgk.1, hfg.2.1.trans hgk.2.1, hfg.2.2.comp hgk.2.2 hR⟩
  | callable =>
    cases a <;> try exact h.elim
    cases c <;> try exact h'.elim
    exact ⟨h.1.trans h'.1, forall₂_comp h.2.1 h'.2.1 fun _ _ _ hpq hqr =>
      ⟨hpq.1.comp hqr.1 hR, hpq.2.1.trans hqr.2.1, hpq.2.2.1.trans hqr.2.2.1,
        hpq.2.2.2.trans hqr.2.2.2⟩, h.2.2.comp h'.2.2 hR⟩

theorem matched_eq_iff {u v : UnionType} : u.Matches Eq v ↔ u.SameMembers v := by
  constructor
  · intro h x
    constructor
    · intro hx
      obtain ⟨y, hy, rfl⟩ := h.forth x hx
      exact hy
    · intro hx
      obtain ⟨y, hy, rfl⟩ := h.back x hx
      exact hy
  · exact fun h => ⟨fun x hx => ⟨x, (h x).1 hx, rfl⟩, fun x hx => ⟨x, (h x).2 hx, rfl⟩⟩

/-- Kinds that are alike are made of the same types. -/
theorem matches_eq_iff : ∀ {a b : TypeKind}, a.Matches N Eq b ↔ a.Alike N b := by
  have hunion : UnionType.Matches Eq = UnionType.SameMembers :=
    funext fun u => funext fun v => propext matched_eq_iff
  have hparam : CallableParam.Matches Eq = CallableParam.Alike := by
    funext p q
    rw [CallableParam.Matches, CallableParam.Alike, hunion]
  have hfield : ShapeField.Matches Eq = ShapeField.Alike := by
    funext f g
    rw [ShapeField.Matches, ShapeField.Alike, hunion]
  intro a b
  cases a <;> cases b <;> simp only [Matches, Alike, hunion, hparam, hfield]

theorem Matches.acceptsNull_eq : ∀ {a b : TypeKind}, a.Matches N R b → a.acceptsNull = b.acceptsNull
  | .native _, .native _, h => by rw [show _ = _ from h]
  | .object _ _, .object _ _, _ => rfl
  | .array .., .array .., _ => rfl
  | .shape _, .shape _, _ => rfl
  | .intLiteral _, .intLiteral _, _ => rfl
  | .stringLiteral _, .stringLiteral _, _ => rfl
  | .callable _, .callable _, _ => rfl
  | .template _, .template _, _ => rfl

end TypeKind

/-- The types admit null alike, and they are of the same kind, up to the letter case of class names,
and made of related types. -/
def Ty.Matches (R : TypeId → TypeId → Prop) (a b : Ty) : Prop :=
  a.nullable = b.nullable ∧ a.kind.Matches (fun p q => p.fold = q.fold) R b.kind

namespace TypeTable

variable {t t' : TypeTable} {R : TypeId → TypeId → Prop} {i i' j j' : TypeId} {ty ty' : Ty}

/-- Where places are related stand types that match: what they are made of is related again. -/
def Links (t t' : TypeTable) (R : TypeId → TypeId → Prop) : Prop :=
  ∀ i j, R i j → ∃ ty ty', t.get? i = some ty ∧ t'.get? j = some ty' ∧ ty.Matches R ty'

/-- The same type stands at both places: it is so where each is made of what the other is made of,
down to types that are made of none. -/
def Corresponds (t t' : TypeTable) (i j : TypeId) : Prop := ∃ R, t.Links t' R ∧ R i j

/-- The unions have the same types, each in its own table. -/
abbrev SameTypes (t t' : TypeTable) (u v : UnionType) : Prop := u.Matches (t.Corresponds t') v

theorem Links.flip (h : t.Links t' R) : t'.Links t fun j i => R i j := by
  intro j i hij
  obtain ⟨ty, ty', hty, hty', hnull, hkind⟩ := h i j hij
  exact ⟨ty', ty, hty', hty, hnull.symm, hkind.flip fun _ _ => Eq.symm⟩

theorem Corresponds.flip (h : t.Corresponds t' i j) : t'.Corresponds t j i := by
  obtain ⟨R, hR, hij⟩ := h
  exact ⟨_, hR.flip, hij⟩

/-- What corresponds is related by the correspondence itself. -/
theorem links_corresponds (t t' : TypeTable) : t.Links t' (t.Corresponds t') := by
  rintro i j ⟨R, hR, hij⟩
  obtain ⟨ty, ty', hty, hty', hnull, hkind⟩ := hR i j hij
  exact ⟨ty, ty', hty, hty', hnull, hkind.imp (fun _ _ => id) fun x y _ _ hxy => ⟨R, hR, hxy⟩⟩

/-- Types that match correspond, wherever they stand. -/
theorem Corresponds.intro (hty : t.get? i = some ty) (hty' : t'.get? j = some ty')
    (h : ty.Matches (t.Corresponds t') ty') : t.Corresponds t' i j := by
  refine ⟨fun x y => t.Corresponds t' x y ∨ x = i ∧ y = j, ?_, .inr ⟨rfl, rfl⟩⟩
  rintro x y (hxy | ⟨rfl, rfl⟩)
  · obtain ⟨a, b, ha, hb, hnull, hkind⟩ := links_corresponds t t' x y hxy
    exact ⟨a, b, ha, hb, hnull, hkind.imp (fun _ _ => id) fun _ _ _ _ => .inl⟩
  · exact ⟨ty, ty', hty, hty', h.1, h.2.imp (fun _ _ => id) fun _ _ _ _ => .inl⟩

theorem Corresponds.types (h : t.Corresponds t' i j) :
    ∃ ty ty', t.get? i = some ty ∧ t'.get? j = some ty' ∧ ty.Matches (t.Corresponds t') ty' :=
  links_corresponds t t' i j h

/-- What corresponds is made of what corresponds. -/
theorem Corresponds.matches_of_get? (h : t.Corresponds t' i j) (hty : t.get? i = some ty)
    (hty' : t'.get? j = some ty') : ty.Matches (t.Corresponds t') ty' := by
  obtain ⟨a, b, ha, hb, hab⟩ := h.types
  cases hty.symm.trans ha
  cases hty'.symm.trans hb
  exact hab

/-- Larger tables show no other correspondence of what stands in the smaller ones. -/
theorem Corresponds.of_keeps {u u' : TypeTable} (ht : t.Keeps u) (ht' : t'.Keeps u')
    (h : u.Corresponds u' i j) (hi : i < t.size) (hj : j < t'.size)
    (hmixed : NativeKind.mixed.id < t.size) (hmixed' : NativeKind.mixed.id < t'.size) :
    t.Corresponds t' i j := by
  refine ⟨fun x y => u.Corresponds u' x y ∧ x < t.size ∧ y < t'.size, ?_, h, hi, hj⟩
  rintro x y ⟨hxy, hx, hy⟩
  obtain ⟨a, ha⟩ := exists_get? hx
  obtain ⟨b, hb⟩ := exists_get? hy
  obtain ⟨hnull, hkind⟩ := hxy.matches_of_get? (ht.get? ha) (ht'.get? hb)
  refine ⟨a, b, ha, hb, hnull, hkind.imp (fun _ _ => id) fun p q hp hq hpq => ⟨hpq, ?_, ?_⟩⟩
  · rcases hp with hp | rfl
    · exact (embedded_lt_of_get? ha hp).trans hx
    · exact hmixed
  · rcases hq with hq | rfl
    · exact (embedded_lt_of_get? hb hq).trans hy
    · exact hmixed'

/-! ### Canonical tables -/

theorem Canonical.get?_native (hc : t.Canonical) (k : NativeKind) :
    t.get? k.id = some ⟨.native k, false⟩ := get?_eq (hc.natives k)

/-- In a canonical table types that are alike stand in one place. -/
theorem Canonical.eq_of_alike (hc : t.Canonical) (hty : t.get? i = some ty)
    (hty' : t.get? i' = some ty') (h : ty.Alike SameName ty') : i = i' :=
  ((hc.finds_congr h).1 (hc.finds_get? hty)).unique (hc.finds_get? hty')

/-- Only a built-in type corresponds to a built-in type. -/
theorem Canonical.eq_of_corresponds_native (hc : t.Canonical) (hc' : t'.Canonical) {k : NativeKind}
    (h : t.Corresponds t' i k.id) : i = k.id := by
  obtain ⟨⟨kind, nullable⟩, ty', hty, hty', hnull, hkind⟩ := h.types
  cases (hc'.get?_native k).symm.trans hty'
  refine hc.eq_of_alike hty (hc.get?_native k) ⟨hnull, ?_⟩
  cases kind with
  | native j =>
    obtain rfl : j = k := hkind
    exact rfl
  | _ => exact hkind.elim

/-- To a place of a canonical table one place at most corresponds. -/
theorem Canonical.left_unique (hc : t.Canonical) (hc' : t'.Canonical)
    (h : t.Corresponds t' i j) (h' : t.Corresponds t' i' j) : i = i' := by
  induction j using Nat.strong_induction_on generalizing i i' with
  | _ j ih =>
    obtain ⟨a, b, ha, hb, hnull, hkind⟩ := h.types
    obtain ⟨a', b', ha', hb', hnull', hkind'⟩ := h'.types
    cases hb.symm.trans hb'
    -- the two types are made of the same, as all that the third one is made of stands before it
    have hparts : ∀ x y z, t.Corresponds t' x y ∧ b.kind.IsPart y → t.Corresponds t' z y →
        x = z := by
      rintro x y z ⟨hxy, hy | rfl⟩ hzy
      · exact ih y (embedded_lt_of_get? hb hy) hxy hzy
      · exact (hc.eq_of_corresponds_native hc' hxy).trans (hc.eq_of_corresponds_native hc' hzy).symm
    have hdown : a.kind.Matches (fun p q => p.fold = q.fold)
        (fun x y => t.Corresponds t' x y ∧ b.kind.IsPart y) b.kind :=
      hkind.imp (fun _ _ => id) fun x y _ hy hxy => ⟨hxy, hy⟩
    have hup : b.kind.Matches (fun p q => p.fold = q.fold)
        (fun y z => t.Corresponds t' z y) a'.kind := hkind'.flip fun _ _ => Eq.symm
    have hsame : a.kind.Matches (fun p q => p.fold = q.fold) Eq a'.kind :=
      hdown.comp (fun p q r (hpq : p.fold = q.fold) (hqr : q.fold = r.fold) => hpq.trans hqr)
        hparts hup
    refine hc.eq_of_alike ha ha' ⟨hnull.trans hnull'.symm, TypeKind.matches_eq_iff.1 ?_⟩
    exact hsame.imp (fun _ _ => QualifiedName.foldedText_eq_of_fold_eq) fun _ _ _ _ => id

theorem Canonical.right_unique (hc : t.Canonical) (hc' : t'.Canonical)
    (h : t.Corresponds t' i j) (h' : t.Corresponds t' i j') : j = j' :=
  hc'.left_unique hc h.flip h'.flip

end TypeTable

/-! ### Unions that match -/

namespace UnionType.Matches

variable {R : TypeId → TypeId → Prop} {u u' v v' : UnionType} {i j : TypeId}

theorem empty : UnionType.empty.Matches R .empty := .nil

theorem of (h : R i j) : (UnionType.of i).Matches R (.of j) := by
  rw [UnionType.Matches, members_of, members_of]
  exact .singleton h

theorem ofList {is js : List TypeId} (h : Matched R is js) :
    (UnionType.ofList is).Matches R (.ofList js) := by
  constructor
  · simpa using h.forth
  · simpa using h.back

theorem union (h : u.Matches R v) (h' : u'.Matches R v') :
    (u.union u').Matches R (v.union v') := by
  have happend := h.append h'
  constructor
  · simpa using happend.forth
  · simpa using happend.back

theorem insert (h : u.Matches R v) (hij : R i j) : (u.insert i).Matches R (v.insert j) := by
  have happend := h.append (.singleton hij)
  constructor
  · simpa using happend.forth
  · simpa using happend.back

theorem filter {p q : TypeId → Bool} (h : u.Matches R v)
    (hpq : ∀ i ∈ u.members, ∀ j ∈ v.members, R i j → p i = q j) :
    (u.filter p).Matches R (v.filter q) := Matched.filter h hpq

theorem isEmpty_eq (h : u.Matches R v) : u.isEmpty = v.isEmpty := Matched.isEmpty_eq h

theorem orMixed (h : u.Matches R v) (hmixed : R NativeKind.mixed.id NativeKind.mixed.id) :
    u.orMixed.Matches R v.orMixed := by
  rw [UnionType.orMixed, UnionType.orMixed, h.isEmpty_eq]
  split
  · exact of hmixed
  · exact h

/-- Unions that are collected from matching ones match. -/
theorem foldl_union {us vs : List UnionType} (h : Matched (UnionType.Matches R) us vs)
    (huv : u.Matches R v) :
    (us.foldl UnionType.union u).Matches R (vs.foldl UnionType.union v) := by
  have hmem : ∀ (ws : List UnionType) (w : UnionType) (x : TypeId),
      x ∈ (ws.foldl UnionType.union w).members ↔
        x ∈ w.members ++ ws.flatMap UnionType.members := by
    intro ws
    induction ws with
    | nil => simp
    | cons w' ws ih =>
      intro w x
      rw [List.foldl_cons, ih]
      simp [or_assoc]
  have hall := huv.append (h.flatMap fun _ _ _ _ h => h)
  constructor
  · simpa only [hmem] using hall.forth
  · simpa only [hmem] using hall.back

end UnionType.Matches

/-! ### Tables with a common beginning -/

namespace TypeTable

/-- Two tables of a regime in which names tell types apart, which hold what a third one holds in the
same places. -/
structure Siblings (r : Regime) (t₀ t t' : TypeTable) : Prop where
  strict : r.strict
  start : t₀.Canonical
  keeps : t₀.Keeps t
  keeps' : t₀.Keeps t'
  sound : t.Sound r
  sound' : t'.Sound r

variable {r : Regime} {t₀ t t' : TypeTable} {i j : TypeId} {ty ty' : Ty} {u v : UnionType}
  {kind kind' : TypeKind} {nullable : Bool}

theorem Siblings.flip (h : Siblings r t₀ t t') : Siblings r t₀ t' t :=
  ⟨h.strict, h.start, h.keeps', h.keeps, h.sound', h.sound⟩

section

variable (h : Siblings r t₀ t t')
include h

theorem Siblings.canonical : t.Canonical := h.sound.canonical h.strict

theorem Siblings.canonical' : t'.Canonical := h.sound'.canonical h.strict

/-- What stood there in the beginning corresponds to itself. -/
theorem Siblings.self (hi : i < t₀.size) : t.Corresponds t' i i := by
  refine ⟨fun x y => x = y ∧ x < t₀.size, ?_, rfl, hi⟩
  rintro x _ ⟨rfl, hx⟩
  obtain ⟨ty, hty⟩ := exists_get? hx
  refine ⟨ty, ty, h.keeps.get? hty, h.keeps'.get? hty, rfl, ?_⟩
  have hsame : ty.kind.Matches SameName Eq ty.kind := TypeKind.matches_eq_iff.2 (.refl ty.kind)
  have hparts : ∀ y, ty.kind.IsPart y → y < t₀.size := by
    rintro y (hy | rfl)
    · exact (embedded_lt_of_get? hty hy).trans hx
    · exact lt_size_of_get? (h.start.get?_native .mixed)
  have hfold : ty.kind.Matches (fun p q => p.fold = q.fold) Eq ty.kind := by
    cases hkind : ty.kind with
    | object name args =>
      rw [hkind] at hsame
      exact ⟨rfl, hsame.2⟩
    | _ =>
      rw [hkind] at hsame
      exact hsame
  exact hfold.imp (fun _ _ => id) fun y z hy _ hyz => ⟨hyz, hparts y hy⟩

theorem Siblings.native (k : NativeKind) : t.Corresponds t' k.id k.id :=
  h.self (lt_size_of_get? (h.start.get?_native k))

theorem Siblings.sameTypes_self (hu : ∀ i ∈ u.members, i < t₀.size) : t.SameTypes t' u u :=
  ⟨fun i hi => ⟨i, hi, h.self (hu i hi)⟩, fun i hi => ⟨i, hi, h.self (hu i hi)⟩⟩

theorem Siblings.sameTypes_native (k : NativeKind) : t.SameTypes t' (.native k) (.native k) :=
  .of (h.native k)

theorem Siblings.right_unique {j' : TypeId} (hij : t.Corresponds t' i j)
    (hij' : t.Corresponds t' i j') : j = j' :=
  h.canonical.right_unique h.canonical' hij hij'

theorem Siblings.left_unique {i' : TypeId} (hij : t.Corresponds t' i j)
    (hij' : t.Corresponds t' i' j) : i = i' :=
  h.canonical.left_unique h.canonical' hij hij'

/-! ### Questions about the members -/

theorem Siblings.eq_native_iff (hij : t.Corresponds t' i j) (k : NativeKind) :
    i = k.id ↔ j = k.id := by
  constructor
  · rintro rfl
    exact h.right_unique hij (h.native k)
  · rintro rfl
    exact h.left_unique hij (h.native k)

theorem Siblings.contains_native_eq (huv : t.SameTypes t' u v) (k : NativeKind) :
    u.contains k.id = v.contains k.id := by
  have hany := huv.any_eq (p := fun i => decide (i = k.id)) (q := fun j => decide (j = k.id))
    fun i _ j _ hij => by rw [decide_eq_decide, h.eq_native_iff hij]
  rw [UnionType.contains, UnionType.contains, Bool.eq_iff_iff]
  simpa using Bool.eq_iff_iff.1 hany

theorem Siblings.hasMixed_eq (huv : t.SameTypes t' u v) : u.hasMixed = v.hasMixed :=
  h.contains_native_eq huv .mixed

/-- A union of one type has the same types as a union of one type only. -/
theorem Siblings.exists_eq_of (huv : t.SameTypes t' (.of i) v) :
    ∃ j, v = .of j ∧ t.Corresponds t' i j := by
  obtain ⟨j, hj, hij⟩ := huv.forth i (UnionType.mem_of.2 rfl)
  have honly : ∀ k ∈ v.members, k = j := by
    intro k hk
    obtain ⟨i', hi', hik⟩ := huv.back k hk
    obtain rfl := UnionType.mem_of.1 hi'
    exact h.right_unique hik hij
  refine ⟨j, UnionType.eq_of_sameMembers_of fun k => ?_, hij⟩
  rw [UnionType.mem_of]
  exact ⟨honly k, fun hk => hk ▸ hj⟩

theorem Siblings.single?_rel (huv : t.SameTypes t' u v) :
    Option.Rel (t.Corresponds t') u.single? v.single? := by
  have hone : ∀ {w : UnionType} {k : TypeId}, w.single? = some k → w = .of k := by
    intro w k hw
    refine UnionType.ext ?_
    rw [UnionType.members_of]
    unfold UnionType.single? at hw
    split at hw
    · next id hm => rw [hm, Option.some.inj hw]
    · cases hw
  have hof : ∀ k : TypeId, (UnionType.of k).single? = some k := by
    intro k
    rw [UnionType.single?, UnionType.members_of]
  cases hu : u.single? with
  | some i =>
    rw [hone hu] at huv
    obtain ⟨j, rfl, hij⟩ := h.exists_eq_of huv
    rw [hof]
    exact .some hij
  | none =>
    cases hv : v.single? with
    | none => exact .none
    | some j =>
      rw [hone hv] at huv
      obtain ⟨i, rfl, -⟩ := h.flip.exists_eq_of
        (huv.flip.imp fun _ _ _ _ hij => hij.flip)
      rw [hof] at hu
      cases hu

theorem Siblings.isOnly_native_eq (huv : t.SameTypes t' u v) (k : NativeKind) :
    u.isOnly k.id = v.isOnly k.id := by
  have hiff : ∀ w : UnionType, w.isOnly k.id = true ↔ w = .of k.id := by
    intro w
    rw [UnionType.isOnly, beq_iff_eq]
    constructor
    · intro hw
      exact UnionType.ext (hw.trans (UnionType.members_of _).symm)
    · rintro rfl
      exact UnionType.members_of _
  rw [Bool.eq_iff_iff, hiff, hiff]
  constructor
  · rintro rfl
    obtain ⟨j, rfl, hij⟩ := h.exists_eq_of huv
    rw [(h.eq_native_iff hij k).1 rfl]
  · rintro rfl
    obtain ⟨i, rfl, hij⟩ := h.flip.exists_eq_of (huv.flip.imp fun _ _ _ _ hij => hij.flip)
    rw [(h.flip.eq_native_iff hij k).1 rfl]

theorem Siblings.erase_native (huv : t.SameTypes t' u v) (k : NativeKind) :
    t.SameTypes t' (u.erase k.id) (v.erase k.id) := by
  refine UnionType.Matches.filter huv fun i _ j _ hij => ?_
  rw [Bool.eq_iff_iff, bne_iff_ne, bne_iff_ne, ne_eq, ne_eq, h.eq_native_iff hij]

theorem Siblings.insert_native (huv : t.SameTypes t' u v) (k : NativeKind) :
    t.SameTypes t' (u.insert k.id) (v.insert k.id) := huv.insert (h.native k)

theorem Siblings.orMixed (huv : t.SameTypes t' u v) : t.SameTypes t' u.orMixed v.orMixed :=
  UnionType.Matches.orMixed huv (h.native .mixed)

/-! ### Types that are found -/

/-- What is like types that match corresponds. -/
theorem Siblings.of_alike {a b c d : Ty} (hi : t.get? i = some a) (hj : t'.get? j = some d)
    (hab : a.Alike SameName b) (hbc : b.Matches (t.Corresponds t') c) (hcd : c.Alike SameName d) :
    t.Corresponds t' i j := by
  have hsame : a.kind.Matches SameName (t.Corresponds t') d.kind := by
    have hleft : a.kind.Matches SameName Eq b.kind := TypeKind.matches_eq_iff.2 hab.2
    have hright : c.kind.Matches SameName Eq d.kind := TypeKind.matches_eq_iff.2 hcd.2
    have hmiddle : b.kind.Matches SameName (t.Corresponds t') c.kind :=
      hbc.2.imp (fun _ _ => QualifiedName.foldedText_eq_of_fold_eq) fun _ _ _ _ => id
    have htrans : ∀ p q r : ClassName, SameName p q → SameName q r → SameName p r :=
      fun _ _ _ => Eq.trans
    have hfirst : a.kind.Matches SameName (t.Corresponds t') c.kind :=
      hleft.comp htrans (fun _ _ _ (hxy : _ = _) hyz => hxy ▸ hyz) hmiddle
    exact hfirst.comp htrans (fun _ _ _ hxy (hyz : _ = _) => hyz ▸ hxy) hright
  refine .intro hi hj ⟨hab.1.trans (hbc.1.trans hcd.1), ?_⟩
  -- the names that the tables hold are divided, so their texts tell them apart
  have hfit := h.sound.fit i a hi
  have hfit' := h.sound'.fit j d hj
  obtain ⟨kind, nullable⟩ := a
  obtain ⟨kind', nullable'⟩ := d
  cases kind with
  | object name args =>
    cases kind' with
    | object name' args' =>
      exact ⟨QualifiedName.fold_eq_of_foldedText_eq (hfit.2 (.inl h.strict)).divided
        (hfit'.2 (.inl h.strict)).divided hsame.1, hsame.2⟩
    | _ => exact hsame.elim
  | _ => cases kind' <;> exact hsame

end

end TypeTable

end UnionInference
