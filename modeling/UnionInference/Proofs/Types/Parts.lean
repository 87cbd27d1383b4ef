import UnionInference.Proofs.Types.Nesting
import UnionInference.Proofs.Types.Sound

/-!
What types are made of. A kind is rebuilt by putting unions in the places of its parts, and kinds
that are alike stay alike when the same is put in. A property of kinds holds throughout a type when
it holds of the type and of everything inside it; what is found for a kind has such a property
exactly when the kind and its parts have it, in whatever order and letter case it was asked for.
-/

namespace UnionInference

/-! ### Unions of unions -/

namespace UnionType

variable {u v w : UnionType} {f g : TypeId → UnionType} {a : TypeId}

/-- All members of what a function makes of the members. -/
def flatMap (u : UnionType) (f : TypeId → UnionType) : UnionType :=
  ofList (u.members.flatMap fun a => (f a).members)

@[simp] theorem mem_flatMap : a ∈ (u.flatMap f).members ↔ ∃ x ∈ u.members, a ∈ (f x).members := by
  rw [flatMap, mem_ofList, List.mem_flatMap]

theorem SameMembers.flatMap (h : u.SameMembers v)
    (hf : ∀ x ∈ u.members, x ∈ v.members → (f x).SameMembers (g x)) :
    (u.flatMap f).SameMembers (v.flatMap g) := by
  intro a
  rw [mem_flatMap, mem_flatMap]
  constructor
  · rintro ⟨x, hx, ha⟩
    have hxv := (h x).1 hx
    exact ⟨x, hxv, (hf x hx hxv a).1 ha⟩
  · rintro ⟨x, hx, ha⟩
    have hxu := (h x).2 hx
    exact ⟨x, hxu, (hf x hxu hx a).2 ha⟩

theorem sameMembers_flatMap_of (u : UnionType) : (u.flatMap of).SameMembers u := fun a => by
  simp

theorem sameMembers_flatMap_flatMap (u : UnionType) (f g : TypeId → UnionType) :
    ((u.flatMap f).flatMap g).SameMembers (u.flatMap fun x => (f x).flatMap g) := by
  intro a
  simp only [mem_flatMap]
  constructor
  · rintro ⟨y, ⟨x, hx, hy⟩, ha⟩
    exact ⟨x, hx, y, hy, ha⟩
  · rintro ⟨x, hx, y, hy, ha⟩
    exact ⟨y, ⟨x, hx, hy⟩, ha⟩

/-- A union whose only member is known is known. -/
theorem eq_of_sameMembers_of {i : TypeId} (h : u.SameMembers (of i)) : u = of i := by
  refine ext (List.perm_singleton.1 ?_ |>.trans (members_of i).symm)
  rw [← members_of i]
  exact h.perm

theorem SameMembers.orMixed (h : u.SameMembers v) : u.orMixed.SameMembers v.orMixed := by
  rw [UnionType.orMixed, UnionType.orMixed, h.isEmpty_eq]
  split
  · exact .refl _
  · exact h

/-- No members and the type of all values are told apart neither before nor after something is put
in their places, if all values stay all values. -/
theorem orMixed_flatMap (h : u.orMixed.SameMembers v.orMixed)
    (hf : ∀ x ∈ u.members, x ∈ v.members → (f x).SameMembers (g x))
    (hu : NativeKind.mixed.id ∈ u.members → f NativeKind.mixed.id = mixed)
    (hv : NativeKind.mixed.id ∈ v.members → g NativeKind.mixed.id = mixed) :
    (u.flatMap f).orMixed.SameMembers (v.flatMap g).orMixed := by
  -- a union that is as good as none has all values as its only member
  have hone : ∀ {u v : UnionType} {f : TypeId → UnionType}, u.isEmpty = true →
      v.isEmpty = false → u.orMixed.SameMembers v.orMixed →
      (NativeKind.mixed.id ∈ v.members → f NativeKind.mixed.id = mixed) →
      (v.flatMap f).orMixed.SameMembers mixed := by
    intro u v f hu hv h hf
    rw [orMixed_of_isEmpty hu, orMixed_of_not_isEmpty hv] at h
    obtain rfl : v = of NativeKind.mixed.id := eq_of_sameMembers_of h.symm
    have hflat : ((of NativeKind.mixed.id).flatMap f).SameMembers mixed := by
      intro a
      simp [hf (mem_of.2 rfl)]
    refine hflat.orMixed.trans ?_
    rw [orMixed_of_not_isEmpty (by decide)]
    exact .refl _
  have hnone : ∀ {u : UnionType} (f : TypeId → UnionType), u.isEmpty = true →
      (u.flatMap f).orMixed = mixed := by
    intro u f hu
    refine orMixed_of_isEmpty (isEmpty_iff.2 (List.eq_nil_iff_forall_not_mem.2 fun a ha => ?_))
    obtain ⟨x, hx, -⟩ := mem_flatMap.1 ha
    rw [isEmpty_iff.1 hu] at hx
    cases hx
  cases hue : u.isEmpty with
  | true =>
    rw [hnone f hue]
    cases hve : v.isEmpty with
    | true => rw [hnone g hve]; exact .refl _
    | false => exact (hone hue hve h hv).symm
  | false =>
    cases hve : v.isEmpty with
    | true => rw [hnone g hve]; exact hone hve hue h.symm hu
    | false =>
      rw [orMixed_of_not_isEmpty hue, orMixed_of_not_isEmpty hve] at h
      exact (h.flatMap hf).orMixed

end UnionType

/-! ### Rebuilt kinds -/

/-- Class names with the same full text up to letter case. -/
abbrev SameName (x y : ClassName) : Prop := x.foldedText = y.foldedText

theorem forall₂_map_map {α β : Type} {R : α → α → Prop} {S : β → β → Prop} {f g : α → β}
    {as bs : List α} (h : List.Forall₂ R as bs)
    (hfg : ∀ a ∈ as, ∀ b ∈ bs, R a b → S (f a) (g b)) :
    List.Forall₂ S (as.map f) (bs.map g) := by
  induction h with
  | nil => exact .nil
  | cons hab _ ih =>
    refine .cons (hfg _ List.mem_cons_self _ List.mem_cons_self hab) (ih fun a ha b hb => ?_)
    exact hfg a (List.mem_cons_of_mem _ ha) b (List.mem_cons_of_mem _ hb)

namespace TypeKind

variable {R : ClassName → ClassName → Prop} {f g : TypeId → UnionType}

/-- The kind with other unions in the places of its parts. The element of an array is no union and
stays. -/
def mapParts (f : TypeId → UnionType) : TypeKind → TypeKind
  | .object name args => .object name (args.map fun u => u.flatMap f)
  | .shape fields => .shape (fields.map fun x => (x.1, { x.2 with type := x.2.type.flatMap f }))
  | .callable sig =>
    .callable { sig with
      params := sig.params.map fun p => { p with type := p.type.flatMap f }
      result := sig.result.flatMap f }
  | kind => kind

/-- The kind is that of an array of elements of one type. -/
def IsArray : TypeKind → Prop
  | .array .. => True
  | _ => False

theorem mem_embedded_mapParts {kind : TypeKind} (h : ¬ kind.IsArray) {e : TypeId} :
    e ∈ (kind.mapParts f).embedded ↔ ∃ x ∈ kind.embedded, e ∈ (f x).members := by
  -- unions in a row, each with something put in the places of its members
  have hrow : ∀ {α : Type} (as : List α) (part : α → UnionType),
      (e ∈ as.flatMap fun a => ((part a).flatMap f).members) ↔
        ∃ x ∈ as.flatMap (fun a => (part a).members), e ∈ (f x).members := by
    intro α as part
    simp only [List.mem_flatMap, UnionType.mem_flatMap]
    constructor
    · rintro ⟨a, ha, x, hx, he⟩
      exact ⟨x, ⟨a, ha, hx⟩, he⟩
    · rintro ⟨x, ⟨a, ha, hx⟩, he⟩
      exact ⟨a, ha, x, hx, he⟩
  cases kind with
  | array key element => exact absurd trivial h
  | native | intLiteral | stringLiteral | template => simp [mapParts, embedded]
  | object name args =>
    rw [mapParts, embedded, List.flatMap_map]
    exact hrow args fun u => u
  | shape fields =>
    rw [mapParts, embedded, List.flatMap_map]
    exact hrow fields fun x => x.2.type
  | callable sig =>
    have hparams := hrow sig.params fun p => p.type
    simp only [mapParts, embedded, List.flatMap_map, List.mem_append, hparams,
      UnionType.mem_flatMap, or_and_right, exists_or]

theorem acceptsNull_mapParts (kind : TypeKind) : (kind.mapParts f).acceptsNull = kind.acceptsNull := by
  cases kind <;> rfl

theorem Alike.refl (kind : TypeKind) : kind.Alike SameName kind := by
  cases kind with
  | object name args => exact ⟨rfl, List.forall₂_same.2 fun u _ => .refl u⟩
  | array key element => exact ⟨rfl, rfl⟩
  | shape fields => exact List.forall₂_same.2 fun x _ => ⟨rfl, rfl, .refl _⟩
  | callable sig =>
    exact ⟨rfl, List.forall₂_same.2 fun p _ => ⟨.refl _, rfl, rfl, rfl⟩, .refl _⟩
  | native | intLiteral | stringLiteral | template => exact rfl

theorem Alike.symm (hR : ∀ x y, R x y → R y x) : ∀ {a b : TypeKind}, a.Alike R b → b.Alike R a
  | .native _, .native _, h => Eq.symm h
  | .object _ _, .object _ _, h => ⟨hR _ _ h.1, h.2.flip.imp fun _ _ => .symm⟩
  | .array .., .array .., h => ⟨h.1.symm, h.2.symm⟩
  | .shape _, .shape _, h =>
    List.Forall₂.flip h |>.imp fun _ _ hxy => ⟨hxy.1.symm, hxy.2.1.symm, hxy.2.2.symm⟩
  | .intLiteral _, .intLiteral _, h => Eq.symm h
  | .stringLiteral _, .stringLiteral _, h => Eq.symm h
  | .callable _, .callable _, h =>
    ⟨h.1.symm, h.2.1.flip.imp fun _ _ hpq =>
      ⟨hpq.1.symm, hpq.2.1.symm, hpq.2.2.1.symm, hpq.2.2.2.symm⟩, h.2.2.symm⟩
  | .template _, .template _, h => Eq.symm h

/-- Kinds that are alike stay alike when the same is put in the places of their parts. -/
theorem Alike.mapParts {a b : TypeKind} (h : a.Alike R b)
    (hfg : ∀ e ∈ a.embedded, e ∈ b.embedded → (f e).SameMembers (g e))
    (hf : NativeKind.mixed.id ∈ a.embedded → f NativeKind.mixed.id = .mixed)
    (hg : NativeKind.mixed.id ∈ b.embedded → g NativeKind.mixed.id = .mixed) :
    (a.mapParts f).Alike R (b.mapParts g) := by
  match a, b, h with
  | .object x as, .object y bs, h =>
    refine ⟨h.1, forall₂_map_map h.2 fun u hu v hv huv => huv.flatMap fun e he he' => ?_⟩
    exact hfg e (List.mem_flatMap.2 ⟨u, hu, he⟩) (List.mem_flatMap.2 ⟨v, hv, he'⟩)
  | .shape fs, .shape gs, h =>
    refine forall₂_map_map h fun x hx y hy hxy =>
      ⟨hxy.1, hxy.2.1, hxy.2.2.flatMap fun e he he' => ?_⟩
    exact hfg e (List.mem_flatMap.2 ⟨x, hx, he⟩) (List.mem_flatMap.2 ⟨y, hy, he'⟩)
  | .callable r, .callable s, h =>
    obtain ⟨hclosure, hparams, hresult⟩ := h
    refine ⟨hclosure, forall₂_map_map hparams fun p hp q hq hpq => ⟨?_, hpq.2⟩,
      hresult.flatMap fun e he he' => ?_⟩
    · -- a parameter without a type stands for one of all values
      have hin : ∀ {s : CallableSignature} {p : CallableParam} {e : TypeId}, p ∈ s.params →
          e ∈ p.type.members → e ∈ (TypeKind.callable s).embedded := fun hp he =>
        List.mem_append_left _ (List.mem_flatMap.2 ⟨_, hp, he⟩)
      exact UnionType.orMixed_flatMap hpq.1 (fun e he he' => hfg e (hin hp he) (hin hq he'))
        (fun he => hf (hin hp he)) fun he => hg (hin hq he)
    · exact hfg e (List.mem_append_right _ he) (List.mem_append_right _ he')
  | .native _, .native _, h | .array .., .array .., h | .intLiteral _, .intLiteral _, h
  | .stringLiteral _, .stringLiteral _, h | .template _, .template _, h => exact h

/-- What is put in the places of parts decides what a kind becomes. -/
theorem mapParts_alike {kind : TypeKind}
    (hfg : ∀ e ∈ kind.embedded, (f e).SameMembers (g e)) :
    (kind.mapParts f).Alike SameName (kind.mapParts g) := by
  cases kind with
  | object name args =>
    refine ⟨rfl, forall₂_map_map (List.forall₂_same.2 fun u _ => rfl) ?_⟩
    rintro u hu _ - rfl
    exact (UnionType.SameMembers.refl u).flatMap fun e he _ =>
      hfg e (List.mem_flatMap.2 ⟨u, hu, he⟩)
  | shape fields =>
    refine forall₂_map_map (List.forall₂_same.2 fun x _ => rfl) ?_
    rintro x hx _ - rfl
    exact ⟨rfl, rfl, (UnionType.SameMembers.refl _).flatMap fun e he _ =>
      hfg e (List.mem_flatMap.2 ⟨x, hx, he⟩)⟩
  | callable sig =>
    refine ⟨rfl, forall₂_map_map (List.forall₂_same.2 fun p _ => rfl) ?_, ?_⟩
    · rintro p hp _ - rfl
      exact ⟨((UnionType.SameMembers.refl _).flatMap fun e he _ => hfg e
        (List.mem_append_left _ (List.mem_flatMap.2 ⟨p, hp, he⟩))).orMixed, rfl, rfl, rfl⟩
    · exact (UnionType.SameMembers.refl _).flatMap fun e he _ =>
        hfg e (List.mem_append_right _ he)
  | native | array | intLiteral | stringLiteral | template => exact .refl _

/-- Two things put in one after the other are one thing put in. -/
theorem mapParts_mapParts (kind : TypeKind) :
    ((kind.mapParts f).mapParts g).Alike SameName (kind.mapParts fun x => (f x).flatMap g) := by
  have hflat := fun u : UnionType => UnionType.sameMembers_flatMap_flatMap u f g
  cases kind with
  | object name args =>
    simp only [mapParts, List.map_map]
    refine ⟨rfl, forall₂_map_map (List.forall₂_same.2 fun u _ => rfl) ?_⟩
    rintro u - _ - rfl
    exact hflat u
  | shape fields =>
    simp only [mapParts, List.map_map]
    refine forall₂_map_map (List.forall₂_same.2 fun x _ => rfl) ?_
    rintro x - _ - rfl
    exact ⟨rfl, rfl, hflat x.2.type⟩
  | callable sig =>
    simp only [mapParts, List.map_map]
    refine ⟨rfl, forall₂_map_map (List.forall₂_same.2 fun p _ => rfl) ?_, hflat sig.result⟩
    rintro p - _ - rfl
    exact ⟨(hflat p.type).orMixed, rfl, rfl, rfl⟩
  | native | array | intLiteral | stringLiteral | template => exact .refl _

/-- Putting each part in its own place changes nothing. -/
theorem mapParts_of (kind : TypeKind) : (kind.mapParts .of).Alike SameName kind := by
  have hself := UnionType.sameMembers_flatMap_of
  have hmap : ∀ {α : Type} {S : α → α → Prop} {f : α → α} (as : List α), (∀ a, S (f a) a) →
      List.Forall₂ S (as.map f) as := by
    intro α S f as h
    induction as with
    | nil => exact .nil
    | cons a as ih => exact .cons (h a) ih
  cases kind with
  | object name args => exact ⟨rfl, hmap args hself⟩
  | shape fields => exact hmap fields fun x => ⟨rfl, rfl, hself x.2.type⟩
  | callable sig =>
    exact ⟨rfl, hmap sig.params fun p => ⟨(hself p.type).orMixed, rfl, rfl, rfl⟩, hself sig.result⟩
  | native | array | intLiteral | stringLiteral | template => exact .refl _

theorem Alike.isArray_iff : ∀ {a b : TypeKind}, a.Alike R b → (a.IsArray ↔ b.IsArray)
  | .native _, .native _, _ | .object .., .object .., _ | .array .., .array .., _
  | .shape _, .shape _, _ | .intLiteral _, .intLiteral _, _ | .stringLiteral _, .stringLiteral _, _
  | .callable _, .callable _, _ | .template _, .template _, _ => Iff.rfl

/-- Kinds that are alike up to the letter case of class names are alike once names are folded. -/
theorem Alike.fold {a b : TypeKind} (h : a.Alike SameName b) : a.fold.Alike SameText b.fold := by
  match a, b, h with
  | .object x _, .object y _, h =>
    have hname : x.fold.text = y.fold.text := by
      rw [QualifiedName.text_fold, QualifiedName.text_fold]
      exact h.1
    exact ⟨hname, h.2⟩
  | .native _, .native _, h | .array .., .array .., h | .shape _, .shape _, h
  | .intLiteral _, .intLiteral _, h | .stringLiteral _, .stringLiteral _, h
  | .callable _, .callable _, h | .template _, .template _, h =>
    simp only [TypeKind.fold, TypeKind.Alike] at h ⊢
    exact h

/-- Placeholders that are alike have the same name. -/
theorem Alike.template_iff {s : String} :
    ∀ {a b : TypeKind}, a.Alike R b → (a = .template s ↔ b = .template s)
  | .template _, .template _, h => by rw [show _ = _ from h]
  | .native _, .native _, _ | .object .., .object .., _ | .array .., .array .., _
  | .shape _, .shape _, _ | .intLiteral _, .intLiteral _, _ | .stringLiteral _, .stringLiteral _, _
  | .callable _, .callable _, _ => by simp

end TypeKind

/-! ### What is found -/

namespace TypeTable

variable {t t₁ : TypeTable} {ty : Ty} {i j : TypeId}

/-- The type is that of arrays with elements of one type. -/
def IsArrayAt (t : TypeTable) (i : TypeId) : Prop := ∃ ty, t.get? i = some ty ∧ ty.kind.IsArray

theorem Extends.keeps (h : t.Extends t₁) : t.Keeps t₁ := h.entries

theorem Canonical.finds_get? (hc : t.Canonical) (h : t.get? i = some ty) : t.Finds ty i := by
  obtain ⟨e, he, rfl⟩ := Option.map_eq_some_iff.1 h
  exact hc.finds_entry he

theorem Canonical.writable_get? (hc : t.Canonical) (h : t.get? i = some ty) : t.Writable ty := by
  obtain ⟨e, he, rfl⟩ := Option.map_eq_some_iff.1 h
  exact hc.writable he

/-- A type that the table holds is marked for null only where that says something. -/
theorem Canonical.normalize_get? (hc : t.Canonical) (h : t.get? i = some ty) :
    normalize ty.kind ty.nullable = ty := by
  have hnormal := (hc.writable_get? h).normal
  obtain ⟨kind, nullable⟩ := ty
  cases nullable with
  | false => rfl
  | true => rw [normalize, show kind.acceptsNull = true from hnormal rfl]; rfl

/-- What is alike is looked for under the same text. -/
theorem Canonical.identity_eq_of_alike (hc : t.Canonical) {a b : Ty} (h : a.Alike SameName b) :
    t.identity a = t.identity b := by
  obtain ⟨hnull, halike⟩ := h
  rw [identity_eq_render_fold, identity_eq_render_fold, render, render]
  refine congrArg₂ (fun n s => nullMark n ++ s) hnull (hc.renderKind_eq_of_alike halike.fold)

theorem Canonical.finds_congr (hc : t.Canonical) {a b : Ty} (h : a.Alike SameName b) :
    t.Finds a i ↔ t.Finds b i := by
  rw [Finds, Finds, hc.identity_eq_of_alike h]

/-- Where a type is found stands one that is alike. -/
theorem Canonical.alike_of_finds (hc : t.Canonical) (hw : t.Writable ty) (h : t.Finds ty i) :
    ∃ found, t.get? i = some found ∧ found.Alike SameName ty ∧ ty.Alike SameName found := by
  obtain ⟨e, he, hid⟩ := hc.identity_of_finds hw h
  have hwe := hc.writable he
  exact ⟨e.type, get?_eq he, (hc.identity_eq_iff hwe hw).1 hid, (hc.identity_eq_iff hw hwe).1 hid.symm⟩

/-- A kind that is asked for is found, and one that is like it stands there. -/
theorem Canonical.exists_intern (hc : t.Canonical) {kind : TypeKind} (hnamed : kind.WellNamed)
    (hin : ∀ e ∈ kind.embedded, e < t.size) :
    ∃ i t₁ found, TypeM.intern kind false t = .ok (i, t₁) ∧ t.Grows TypeKind.WellNamed t₁ ∧
      t₁.get? i = some ⟨found, false⟩ ∧ found.Alike SameName kind := by
  obtain ⟨i, t₁, hrun, hgrows, hfinds⟩ := TypeM.intern_spec hc false hnamed hnamed hin
  obtain ⟨⟨found, nullable⟩, hi, ⟨hnull, halike⟩, -⟩ := hgrows.canonical.alike_of_finds
    (writable_normalize false (fun e he => hgrows.keeps.lt_size (hin e he)) hnamed) hfinds
  obtain rfl : nullable = false := hnull
  exact ⟨i, t₁, found, hrun, hgrows, hi, halike⟩

/-! ### Properties throughout a type -/

/-- The property holds of the kind at the place and of the kinds of everything inside it. -/
inductive Everywhere (P : TypeKind → Prop) (t : TypeTable) : TypeId → Prop
  | intro {i : TypeId} {ty : Ty} (hty : t.get? i = some ty) (hkind : P ty.kind)
      (hparts : ∀ e ∈ ty.kind.embedded, Everywhere P t e) : Everywhere P t i

/-- A property of kinds that looks neither at the order of members nor at the letter case of class
names, and that the kind of all values has. -/
structure KindProperty (P : TypeKind → Prop) : Prop where
  alike : ∀ {a b : TypeKind}, a.Alike SameName b → P b → P a
  mixed : P (.native .mixed)

variable {P Q : TypeKind → Prop}

theorem everywhere_iff (hty : t.get? i = some ty) :
    t.Everywhere P i ↔ P ty.kind ∧ ∀ e ∈ ty.kind.embedded, t.Everywhere P e := by
  constructor
  · rintro ⟨hty', hkind, hparts⟩
    rw [hty] at hty'
    cases hty'
    exact ⟨hkind, hparts⟩
  · exact fun h => .intro hty h.1 h.2

theorem Everywhere.lt_size (h : t.Everywhere P i) : i < t.size := by
  cases h with
  | intro hty _ _ => exact lt_size_of_get? hty

/-- Only the kinds that the table holds matter. -/
theorem Everywhere.imp_of_get? (h : t.Everywhere P i)
    (hPQ : ∀ (j : TypeId) (ty : Ty), t.get? j = some ty → P ty.kind → Q ty.kind) :
    t.Everywhere Q i := by
  induction h with
  | intro hty hkind _ ih => exact .intro hty (hPQ _ _ hty hkind) ih

theorem Everywhere.imp (h : t.Everywhere P i) (hPQ : ∀ kind, P kind → Q kind) :
    t.Everywhere Q i := h.imp_of_get? fun _ ty _ => hPQ ty.kind

theorem everywhere_congr
    (hPQ : ∀ (j : TypeId) (ty : Ty), t.get? j = some ty → (P ty.kind ↔ Q ty.kind)) :
    t.Everywhere P i ↔ t.Everywhere Q i :=
  ⟨fun h => h.imp_of_get? fun j ty hty => (hPQ j ty hty).1,
    fun h => h.imp_of_get? fun j ty hty => (hPQ j ty hty).2⟩

/-- A property that all kinds of the table have holds throughout every type. -/
theorem everywhere_of_forall (h : ∀ (i : TypeId) (ty : Ty), t.get? i = some ty → P ty.kind)
    (hi : i < t.size) : t.Everywhere P i := by
  induction i using Nat.strong_induction_on with
  | _ i ih =>
    obtain ⟨ty, hty⟩ := exists_get? hi
    have hlt : ∀ e ∈ ty.kind.embedded, e < i := fun e he => embedded_lt_of_get? hty he
    exact .intro hty (h i ty hty) fun e he => ih e (hlt e he) ((hlt e he).trans hi)

/-- More types make no difference to what is inside a type. -/
theorem Keeps.within (hk : t.Keeps t₁) (hi : i < t.size) (h : t₁.Within i j) :
    t.Within i j ∧ j < t.size := by
  induction h with
  | self i => exact ⟨.self i, hi⟩
  | part he hmem _ ih =>
    obtain ⟨e, he'⟩ := exists_entry hi
    cases he.symm.trans (hk _ e he')
    obtain ⟨hwithin, hlt⟩ := ih ((embedded_lt he' hmem).trans hi)
    exact ⟨.part he' hmem hwithin, hlt⟩

/-- What holds throughout a type holds of all its parts. -/
theorem Everywhere.within {e : TypeEntry} (h : t.Everywhere P i) (hj : t.Within i j)
    (he : t.entries[j]? = some e) : P e.type.kind := by
  induction hj with
  | self => exact ((everywhere_iff (get?_eq he)).1 h).1
  | part he' hmem _ ih => exact ih (((everywhere_iff (get?_eq he')).1 h).2 _ hmem) he

/-- What a type is made of stands before it, so more types make no difference. -/
theorem Keeps.everywhere_iff (h : t.Keeps t₁) (hi : i < t.size) :
    t₁.Everywhere P i ↔ t.Everywhere P i := by
  induction i using Nat.strong_induction_on with
  | _ i ih =>
    obtain ⟨ty, hty⟩ := exists_get? hi
    rw [TypeTable.everywhere_iff hty, TypeTable.everywhere_iff (h.get? hty)]
    refine and_congr_right' (forall₂_congr fun e he => ?_)
    have hlt := embedded_lt_of_get? hty he
    exact ih e hlt (hlt.trans hi)

theorem everywhere_mixed (hc : t.Canonical) (hP : KindProperty P) :
    t.Everywhere P NativeKind.mixed.id :=
  .intro (get?_eq (hc.natives .mixed)) hP.mixed (by simp [TypeKind.embedded])

theorem everywhere_orMixed (hc : t.Canonical) (hP : KindProperty P) {u : UnionType} :
    (∀ i ∈ u.orMixed.members, t.Everywhere P i) ↔ ∀ i ∈ u.members, t.Everywhere P i := by
  cases hu : u.isEmpty with
  | true =>
    rw [UnionType.orMixed_of_isEmpty hu, UnionType.isEmpty_iff.1 hu]
    simp [UnionType.mixed, UnionType.members_native, everywhere_mixed hc hP]
  | false => rw [UnionType.orMixed_of_not_isEmpty hu]

/-- What is found for a type has a property throughout when the type has it. -/
theorem Canonical.everywhere_finds (hc : t.Canonical) (hP : KindProperty P) (hw : t.Writable ty)
    (h : t.Finds ty i) :
    t.Everywhere P i ↔ P ty.kind ∧ ∀ e ∈ ty.kind.embedded, t.Everywhere P e := by
  obtain ⟨found, hfound, hto, hfrom⟩ := hc.alike_of_finds hw h
  rw [everywhere_iff hfound]
  have hparts : ∀ {a b : TypeKind}, a.Alike SameName b →
      (∀ e ∈ b.embedded, t.Everywhere P e) → ∀ e ∈ a.embedded, t.Everywhere P e := by
    intro a b hab hb e he
    rcases hab.mem_embedded he with he | rfl
    · exact hb e he
    · exact everywhere_mixed hc hP
  exact ⟨fun h => ⟨hP.alike hfrom.2 h.1, hparts hfrom.2 h.2⟩,
    fun h => ⟨hP.alike hto.2 h.1, hparts hto.2 h.2⟩⟩

/-- The placeholders inside a type are those of the kinds inside it. -/
theorem holds_iff_everywhere {p : String → Prop} :
    t.Holds p i ↔ t.Everywhere (fun kind => ∀ s, kind = .template s → p s) i := by
  constructor
  · intro h
    induction h with
    | intro hty _ htemplate ih => exact .intro hty htemplate ih
  · intro h
    induction h with
    | intro hty hkind _ ih => exact .intro hty ih hkind

theorem Keeps.holds_iff {p : String → Prop} (h : t.Keeps t₁) (hi : i < t.size) :
    t₁.Holds p i ↔ t.Holds p i := by
  rw [holds_iff_everywhere, holds_iff_everywhere, h.everywhere_iff hi]

theorem kindProperty_template (p : String → Prop) :
    KindProperty fun kind => ∀ s, kind = .template s → p s where
  alike h hb s hs := hb s (h.template_iff.1 hs)
  mixed := by simp

end TypeTable

end UnionInference
