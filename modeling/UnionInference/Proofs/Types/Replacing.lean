import UnionInference.Proofs.Types.Proper

/-!
What types turn into when marks in them are replaced, said as a relation beside the functions that do
it. A mark is a template placeholder or a type of the class that the code belongs to. A mark turns
into what it stands for, an array into the arrays of what its element turns into, and every other type
into the one that is made of what its parts turn into. In a canonical table the relation is a function
up to the order of members, and later types do not change it. Replacing twice is replacing once by
what the replacements turn into, and marks that stand for themselves change nothing.
-/

namespace UnionInference

/-! ### Marks -/

/-- The kind stands for another type: it is a template placeholder, or the type of the class that the
code belongs to. -/
def TypeKind.IsMark : TypeKind → Prop
  | .template _ | .native .static | .native .self => True
  | _ => False

/-- What marks stand for; those for which it says nothing stay. -/
structure Replacement where
  get? : TypeKind → Option UnionType
  isMark : ∀ {kind : TypeKind} {u : UnionType}, get? kind = some u → kind.IsMark

/-- Every mark that stands for something stands for some type. -/
def Replacement.Full (ρ : Replacement) : Prop := ∀ kind b, ρ.get? kind = some b → b.members ≠ []

namespace TypeKind

variable {R : ClassName → ClassName → Prop} {f : TypeId → UnionType} {kind : TypeKind}

theorem IsMark.acceptsNull (h : kind.IsMark) : kind.acceptsNull = true := by
  match kind, h with
  | .template _, _ | .native .static, _ | .native .self, _ => rfl

theorem IsMark.embedded (h : kind.IsMark) : kind.embedded = [] := by
  match kind, h with
  | .template _, _ | .native .static, _ | .native .self, _ => rfl

theorem IsMark.not_isArray (h : kind.IsMark) : ¬ kind.IsArray := by
  match kind, h with
  | .template _, _ | .native .static, _ | .native .self, _ => exact id

/-- A mark is alike only to itself. -/
theorem Alike.eq_of_isMark {a b : TypeKind} (h : a.Alike R b) (hmark : a.IsMark ∨ b.IsMark) :
    a = b := by
  match a, b, h with
  | .native _, .native _, h => rw [show _ = _ from h]
  | .template _, .template _, h => rw [show _ = _ from h]
  | .object .., .object .., _ | .array .., .array .., _ | .shape _, .shape _, _
  | .intLiteral _, .intLiteral _, _ | .stringLiteral _, .stringLiteral _, _
  | .callable _, .callable _, _ => exact hmark.elim False.elim False.elim

/-- A mark has no parts to be rebuilt from. -/
theorem mapParts_isMark_iff : (kind.mapParts f).IsMark ↔ kind.IsMark := by
  cases kind <;> exact Iff.rfl

theorem IsMark.mapParts (h : kind.IsMark) : kind.mapParts f = kind := by
  match kind, h with
  | .template _, _ | .native .static, _ | .native .self, _ => rfl

/-- The kind is rebuilt from what its parts turn into: it is no array and stays otherwise. -/
structure Rebuilds (ρ : Replacement) (kind : TypeKind) : Prop where
  notArray : ¬ kind.IsArray
  stays : ρ.get? kind = none

variable {ρ : Replacement}

theorem Rebuilds.mapParts (h : kind.Rebuilds ρ) : (kind.mapParts f).Rebuilds ρ where
  notArray := by
    have hnot := h.notArray
    cases kind with
    | array => exact absurd trivial hnot
    | _ => exact id
  stays := by
    rw [Option.eq_none_iff_forall_ne_some]
    intro b hb
    rw [(mapParts_isMark_iff.1 (ρ.isMark hb)).mapParts, h.stays] at hb
    cases hb

theorem Rebuilds.of_alike {a b : TypeKind} (h : a.Alike R b) (hb : b.Rebuilds ρ) :
    a.Rebuilds ρ where
  notArray := fun ha => hb.notArray (h.isArray_iff.1 ha)
  stays := by
    rw [Option.eq_none_iff_forall_ne_some]
    intro u hu
    rw [h.eq_of_isMark (.inl (ρ.isMark hu)), hb.stays] at hu
    cases hu

end TypeKind

namespace UnionType

variable {R S : TypeId → TypeId → Prop} {u v w : UnionType} {f g : TypeId → UnionType}

theorem Image.members_ne_nil (h : Image R u v) (hu : u.members ≠ []) : v.members ≠ [] := by
  obtain ⟨i, hi⟩ := List.exists_mem_of_ne_nil _ hu
  obtain ⟨j, hij⟩ := h.total i hi
  exact List.ne_nil_of_mem ((h.mem j).2 ⟨i, hi, hij⟩)

/-- Images of images are images of unions of unions. -/
theorem Image.flatMap (h : Image R u v)
    (hfg : ∀ i ∈ u.members, ∀ j, R i j → Image S (f i) (g j)) :
    Image S (u.flatMap f) (v.flatMap g) := by
  refine ⟨fun a ha => ?_, fun b => ?_⟩
  · obtain ⟨i, hi, ha⟩ := mem_flatMap.1 ha
    obtain ⟨j, hij⟩ := h.total i hi
    exact (hfg i hi j hij).total a ha
  · simp only [mem_flatMap]
    constructor
    · rintro ⟨j, hj, hb⟩
      obtain ⟨i, hi, hij⟩ := (h.mem j).1 hj
      obtain ⟨a, ha, hab⟩ := ((hfg i hi j hij).mem b).1 hb
      exact ⟨a, ⟨i, hi, ha⟩, hab⟩
    · rintro ⟨a, ⟨i, hi, ha⟩, hab⟩
      obtain ⟨j, hij⟩ := h.total i hi
      exact ⟨j, (h.mem j).2 ⟨i, hi, hij⟩, ((hfg i hi j hij).mem b).2 ⟨a, ha, hab⟩⟩

/-- A relation that leads from one image to another leads from the one union to the other. -/
theorem Image.factor {T : TypeId → TypeId → Prop} (hv : Image R u v) (hw : Image T u w)
    (hS : ∀ i ∈ u.members, ∀ j, R i j → ∀ k, S j k ↔ T i k) : Image S v w := by
  refine ⟨fun j hj => ?_, fun k => ?_⟩
  · obtain ⟨i, hi, hij⟩ := (hv.mem j).1 hj
    obtain ⟨k, hik⟩ := hw.total i hi
    exact ⟨k, (hS i hi j hij k).2 hik⟩
  · rw [hw.mem]
    constructor
    · rintro ⟨i, hi, hik⟩
      obtain ⟨j, hij⟩ := hv.total i hi
      exact ⟨j, (hv.mem j).2 ⟨i, hi, hij⟩, (hS i hi j hij k).2 hik⟩
    · rintro ⟨j, hj, hjk⟩
      obtain ⟨i, hi, hij⟩ := (hv.mem j).1 hj
      exact ⟨i, hi, (hS i hi j hij k).1 hjk⟩

theorem sameMembers_of_flatMap (i : TypeId) (f : TypeId → UnionType) :
    ((of i).flatMap f).SameMembers (f i) := fun a => by simp

theorem orMixed_of_members_ne_nil (h : u.members ≠ []) : u.orMixed = u :=
  orMixed_of_not_isEmpty (by rwa [← Bool.not_eq_true, isEmpty_iff])

theorem orMixed_of (i : TypeId) : (of i).orMixed = of i :=
  orMixed_of_members_ne_nil (by simp [members_of])

theorem flatMap_members_ne_nil (hu : u.members ≠ []) (hf : ∀ i ∈ u.members, (f i).members ≠ []) :
    (u.flatMap f).members ≠ [] := by
  obtain ⟨i, hi⟩ := List.exists_mem_of_ne_nil _ hu
  obtain ⟨a, ha⟩ := List.exists_mem_of_ne_nil _ (hf i hi)
  exact List.ne_nil_of_mem (mem_flatMap.2 ⟨i, hi, ha⟩)

end UnionType

namespace TypeTable

open UnionType (Image)

variable {t t₁ : TypeTable} {ty : Ty} {i j k : TypeId} {n : Bool} {u v w b : UnionType}
  {ρ ρ₁ ρ₂ : Replacement} {f : TypeId → UnionType}

/-! ### Null -/

/-- The second type is the first one, with null if that is asked for. -/
def WithNull (t : TypeTable) (nullable : Bool) (i j : TypeId) : Prop :=
  ∃ ty, t.get? i = some ty ∧ t.Finds (normalize ty.kind (ty.nullable || nullable)) j

theorem withNull_iff (hty : t.get? i = some ty) :
    t.WithNull n i j ↔ t.Finds (normalize ty.kind (ty.nullable || n)) j := by
  constructor
  · rintro ⟨ty', hty', hj⟩
    rw [hty] at hty'
    cases hty'
    exact hj
  · exact fun hj => ⟨ty, hty, hj⟩

theorem WithNull.unique (hj : t.WithNull n i j) (hk : t.WithNull n i k) : j = k := by
  obtain ⟨ty, hty, hj⟩ := hj
  exact hj.unique ((withNull_iff hty).1 hk)

theorem WithNull.lt_size (hc : t.Canonical) (h : t.WithNull n i j) : j < t.size := by
  obtain ⟨ty, -, hj⟩ := h
  exact hc.lt_size_of_finds hj

theorem WithNull.extends (hc : t.Canonical) (h : t.WithNull n i j) (hext : t.Extends t₁) :
    t₁.WithNull n i j := by
  obtain ⟨ty, hty, hj⟩ := h
  exact ⟨ty, hext.keeps.get? hty, hj.extends (hc.writable_get? hty).inside hext⟩

/-- Null is added to what is found as to what was asked for. -/
theorem Canonical.withNull_of_finds (hc : t.Canonical) (hw : t.Writable ty) (h : t.Finds ty i) :
    t.WithNull n i j ↔ t.Finds (normalize ty.kind (ty.nullable || n)) j := by
  obtain ⟨found, hfound, hto, -⟩ := hc.alike_of_finds hw h
  rw [withNull_iff hfound]
  refine hc.finds_congr ⟨?_, hto.2⟩
  rw [normalize, normalize, hto.1, hto.2.acceptsNull]

theorem normalize_normalize (kind : TypeKind) (a b : Bool) :
    normalize kind ((normalize kind a).nullable || b) = normalize kind (a || b) := by
  simp only [normalize, Ty.mk.injEq, true_and]
  cases kind.acceptsNull <;> simp

theorem normalize_of_acceptsNull {kind : TypeKind} (h : kind.acceptsNull = true) (n : Bool) :
    normalize kind n = ⟨kind, n⟩ := by
  rw [normalize, h, Bool.and_true]

/-- A type is its own variant where null is as asked for or says nothing. -/
theorem Canonical.normalize_of_same (hc : t.Canonical) (hty : t.get? i = some ty)
    (hsame : (ty.nullable == n || !ty.kind.acceptsNull) = true) : normalize ty.kind n = ty := by
  have hself := hc.normalize_get? hty
  rw [Bool.or_eq_true, beq_iff_eq, Bool.not_eq_true'] at hsame
  rcases hsame with rfl | hsame
  · exact hself
  · rw [normalize, hsame, Bool.and_false] at hself ⊢
    exact hself

theorem normalize_mapParts (kind : TypeKind) (n : Bool) :
    normalize (kind.mapParts f) n = ⟨kind.mapParts f, (normalize kind n).nullable⟩ := by
  rw [normalize, normalize, TypeKind.acceptsNull_mapParts]

/-- Null is added once. -/
theorem Canonical.withNull_trans (hc : t.Canonical) {n' : Bool} (h : t.WithNull n i j) :
    t.WithNull n' j k ↔ t.WithNull (n || n') i k := by
  obtain ⟨ty, hty, hj⟩ := h
  have hw := hc.writable_get? hty
  rw [hc.withNull_of_finds (writable_normalize _ hw.inside hw.named) hj, withNull_iff hty,
    ← Bool.or_assoc]
  exact Iff.of_eq (congrArg (t.Finds · k) (normalize_normalize ty.kind (ty.nullable || n) n'))

theorem Canonical.withNull_false (hc : t.Canonical) (hi : i < t.size) :
    t.WithNull false i j ↔ j = i := by
  obtain ⟨ty, hty⟩ := exists_get? hi
  rw [withNull_iff hty, Bool.or_false, hc.normalize_get? hty]
  exact ⟨fun hj => hj.unique (hc.finds_get? hty), fun hj => hj ▸ hc.finds_get? hty⟩

/-! ### What is found for marks and arrays -/

theorem Canonical.finds_of_alike (hc : t.Canonical) {a b : TypeKind} {n n' : Bool}
    (h : t.Finds ⟨a, n⟩ i) (hnull : n = n') (halike : a.Alike SameName b) : t.Finds ⟨b, n'⟩ i :=
  (hc.finds_congr (b := ⟨b, n'⟩) ⟨hnull, halike⟩).1 h

theorem Canonical.get?_of_finds_mark (hc : t.Canonical) (hw : t.Writable ty) (hk : ty.kind.IsMark)
    (h : t.Finds ty i) : t.get? i = some ty := by
  obtain ⟨⟨kind, nullable⟩, hfound, ⟨hnull, hkind⟩, -⟩ := hc.alike_of_finds hw h
  rw [hfound, show kind = ty.kind from hkind.eq_of_isMark (.inr hk), show nullable = ty.nullable from hnull]

theorem writable_array {key : KeyKind} {e : TypeId} (he : e < t.size) (n : Bool) :
    t.Writable ⟨.array key e, n⟩ :=
  ⟨fun _ hx => List.mem_singleton.1 hx ▸ he, fun _ => rfl, trivial⟩

theorem Canonical.get?_of_finds_array (hc : t.Canonical) {key : KeyKind} {e : TypeId}
    (he : e < t.size) (h : t.Finds ⟨.array key e, n⟩ i) : t.get? i = some ⟨.array key e, n⟩ := by
  obtain ⟨⟨kind, nullable⟩, hfound, ⟨rfl, hkind⟩, -⟩ := hc.alike_of_finds (writable_array he n) h
  match kind, hkind with
  | .array _ _, ⟨rfl, rfl⟩ => exact hfound

/-! ### What types turn into -/

/-- The type at the place turns into the union when marks inside it are replaced. -/
inductive Turns (t : TypeTable) (ρ : Replacement) : TypeId → UnionType → Prop
  | bound {i : TypeId} {ty : Ty} {b v : UnionType} (hty : t.get? i = some ty)
      (hb : ρ.get? ty.kind = some b) (hv : Image (t.WithNull ty.nullable) b v) : Turns t ρ i v
  | array {i e : TypeId} {key : KeyKind} {n : Bool} {u v : UnionType}
      (hty : t.get? i = some ⟨.array key e, n⟩) (he : Turns t ρ e u)
      (hv : Image (fun x j => t.Finds ⟨.array key x, n⟩ j) u.orMixed v) : Turns t ρ i v
  | rebuilt {i j : TypeId} {ty : Ty} {f : TypeId → UnionType} (hty : t.get? i = some ty)
      (hkind : ty.kind.Rebuilds ρ) (hparts : ∀ e ∈ ty.kind.embedded, Turns t ρ e (f e))
      (hj : t.Finds ⟨ty.kind.mapParts f, ty.nullable⟩ j) : Turns t ρ i (.of j)

/-- The members of the second union are what the members of the first one turn into. -/
def Becomes (t : TypeTable) (ρ : Replacement) (u v : UnionType) : Prop :=
  ∃ f, (∀ i ∈ u.members, t.Turns ρ i (f i)) ∧ v.SameMembers (u.flatMap f)

theorem Turns.lt_size (hc : t.Canonical) (h : t.Turns ρ i v) : ∀ j ∈ v.members, j < t.size := by
  intro j hj
  cases h with
  | bound _ _ hv =>
    obtain ⟨_, -, hwith⟩ := (hv.mem j).1 hj
    exact hwith.lt_size hc
  | array _ _ hv =>
    obtain ⟨_, -, hfinds⟩ := (hv.mem j).1 hj
    exact hc.lt_size_of_finds hfinds
  | rebuilt _ _ _ hfinds => exact UnionType.mem_of.1 hj ▸ hc.lt_size_of_finds hfinds

theorem Canonical.orMixed_lt_size (hc : t.Canonical) (hu : ∀ i ∈ u.members, i < t.size) :
    ∀ i ∈ u.orMixed.members, i < t.size := by
  intro i hi
  rw [UnionType.orMixed] at hi
  split at hi
  · exact UnionType.mem_of.1 hi ▸ lt_size_of_entry (hc.natives .mixed)
  · exact hu i hi

theorem Turns.of_bound (h : t.Turns ρ i v) (hty : t.get? i = some ty)
    (hb : ρ.get? ty.kind = some b) : Image (t.WithNull ty.nullable) b v := by
  cases h with
  | bound hty' hb' hv =>
    rw [hty] at hty'
    cases hty'
    rw [hb] at hb'
    cases hb'
    exact hv
  | array hty' _ _ =>
    rw [hty] at hty'
    cases hty'
    exact absurd trivial (ρ.isMark hb).not_isArray
  | rebuilt hty' hkind _ _ =>
    rw [hty] at hty'
    cases hty'
    rw [hkind.stays] at hb
    cases hb

theorem Turns.of_array {key : KeyKind} {e : TypeId} (h : t.Turns ρ i v)
    (hty : t.get? i = some ⟨.array key e, n⟩) :
    ∃ u, t.Turns ρ e u ∧ Image (fun x j => t.Finds ⟨.array key x, n⟩ j) u.orMixed v := by
  cases h with
  | bound hty' hb _ =>
    rw [hty] at hty'
    cases hty'
    exact absurd trivial (ρ.isMark hb).not_isArray
  | array hty' he hv =>
    rw [hty] at hty'
    cases hty'
    exact ⟨_, he, hv⟩
  | rebuilt hty' hkind _ _ =>
    rw [hty] at hty'
    cases hty'
    exact absurd trivial hkind.notArray

theorem Turns.of_rebuilds (h : t.Turns ρ i v) (hty : t.get? i = some ty)
    (hkind : ty.kind.Rebuilds ρ) :
    ∃ f j, (∀ e ∈ ty.kind.embedded, t.Turns ρ e (f e)) ∧
      t.Finds ⟨ty.kind.mapParts f, ty.nullable⟩ j ∧ v = .of j := by
  cases h with
  | bound hty' hb _ =>
    rw [hty] at hty'
    cases hty'
    rw [hkind.stays] at hb
    cases hb
  | array hty' _ _ =>
    rw [hty] at hty'
    cases hty'
    exact absurd trivial hkind.notArray
  | rebuilt hty' _ hparts hj =>
    rw [hty] at hty'
    cases hty'
    exact ⟨_, _, hparts, hj, rfl⟩

/-- All values turn into themselves. -/
theorem Canonical.turns_mixed (hc : t.Canonical) :
    t.Turns ρ NativeKind.mixed.id v ↔ v = .mixed := by
  have hty := get?_eq (hc.natives .mixed)
  have hkind : (TypeKind.native .mixed).Rebuilds ρ := by
    refine ⟨id, Option.eq_none_iff_forall_ne_some.2 fun b hb => ?_⟩
    exact ρ.isMark hb
  constructor
  · intro h
    obtain ⟨f, j, -, hj, rfl⟩ := h.of_rebuilds hty hkind
    rw [hj.unique (hc.finds_get? hty)]
    rfl
  · rintro rfl
    exact .rebuilt (f := .of) hty hkind (by simp [TypeKind.embedded]) (hc.finds_get? hty)

/-- What parts turn into goes over to what is alike. -/
theorem Canonical.turns_parts_of_alike (hc : t.Canonical) {a b : TypeKind} (h : a.Alike SameName b)
    (h' : b.Alike SameName a) (hf : ∀ e ∈ a.embedded, t.Turns ρ e (f e)) :
    ∃ g, (∀ e ∈ b.embedded, t.Turns ρ e (g e)) ∧
      (a.mapParts f).Alike SameName (b.mapParts g) := by
  -- only all values may be a part of one of them alone
  refine ⟨fun e => if e = NativeKind.mixed.id then .mixed else f e, fun e he => ?_, ?_⟩
  · dsimp only
    split
    · next heq => exact heq ▸ hc.turns_mixed.2 rfl
    · next hne => exact hf e ((h'.mem_embedded he).resolve_right hne)
  · refine h.mapParts (fun e he _ => ?_) (fun he => hc.turns_mixed.1 (hf _ he)) fun _ => if_pos rfl
    split
    · next heq =>
      subst heq
      rw [hc.turns_mixed.1 (hf _ he)]
      exact .refl _
    · exact .refl _

/-- What is found turns into what is made of what the parts turn into. -/
theorem Canonical.turns_finds_iff (hc : t.Canonical) (hw : t.Writable ty) (hi : t.Finds ty i)
    (hkind : ty.kind.Rebuilds ρ) :
    t.Turns ρ i v ↔ ∃ f j, (∀ e ∈ ty.kind.embedded, t.Turns ρ e (f e)) ∧
      t.Finds ⟨ty.kind.mapParts f, ty.nullable⟩ j ∧ v = .of j := by
  obtain ⟨found, hfound, hto, hfrom⟩ := hc.alike_of_finds hw hi
  have hrebuilds := TypeKind.Rebuilds.of_alike hto.2 hkind
  constructor
  · intro h
    obtain ⟨f, j, hf, hj, rfl⟩ := h.of_rebuilds hfound hrebuilds
    obtain ⟨g, hg, halike⟩ := hc.turns_parts_of_alike hto.2 hfrom.2 hf
    exact ⟨g, j, hg, hc.finds_of_alike hj hto.1 halike, rfl⟩
  · rintro ⟨f, j, hf, hj, rfl⟩
    obtain ⟨g, hg, halike⟩ := hc.turns_parts_of_alike hfrom.2 hto.2 hf
    exact .rebuilt hfound hrebuilds hg (hc.finds_of_alike hj hfrom.1 halike)

/-- A type turns into one union, up to the order of members. -/
theorem Turns.unique (hc : t.Canonical) (hv : t.Turns ρ i v) (hw : t.Turns ρ i w) :
    v.SameMembers w := by
  induction hv generalizing w with
  | bound hty hb hv => exact hv.sameMembers (hw.of_bound hty hb)
  | array hty _ hv ih =>
    obtain ⟨u, he, hu⟩ := hw.of_array hty
    exact hv.sameMembers (hu.congr_left (ih he).symm.orMixed)
  | rebuilt hty hkind _ hj ih =>
    obtain ⟨g, k, hg, hk, rfl⟩ := hw.of_rebuilds hty hkind
    have halike := TypeKind.mapParts_alike
      fun e he => ih e he (hg e he)
    rw [(hc.finds_of_alike hj rfl halike).unique hk]
    exact .refl _

/-- What a rebuilt kind must fulfil to be written. -/
theorem Writable.mapParts (hw : t.Writable ty)
    (hnot : ¬ ty.kind.IsArray) (hf : ∀ e ∈ ty.kind.embedded, ∀ j ∈ (f e).members, j < t.size) :
    t.Writable ⟨ty.kind.mapParts f, ty.nullable⟩ where
  inside e he := by
    obtain ⟨x, hx, hex⟩ := (TypeKind.mem_embedded_mapParts hnot).1 he
    exact hf x hx e hex
  normal h := (TypeKind.acceptsNull_mapParts ty.kind).trans (hw.normal h)
  named := by
    have hnamed := hw.named
    cases hk : ty.kind with
    | shape fields =>
      rw [hk] at hnamed
      intro x hx n hn
      obtain ⟨y, hy, rfl⟩ := List.mem_map.1 hx
      exact hnamed y hy n hn
    | _ => rw [hk] at hnamed; exact hnamed

theorem Canonical.writable_turned (hc : t.Canonical) (hty : t.get? i = some ty)
    (hkind : ty.kind.Rebuilds ρ) (hf : ∀ e ∈ ty.kind.embedded, t.Turns ρ e (f e)) :
    t.Writable ⟨ty.kind.mapParts f, ty.nullable⟩ :=
  (hc.writable_get? hty).mapParts hkind.notArray fun e he => (hf e he).lt_size hc

/-- Later types do not change what a type turns into. -/
theorem Turns.extends (hc : t.Canonical) (h : t.Turns ρ i v) (hext : t.Extends t₁) :
    t₁.Turns ρ i v := by
  induction h with
  | bound hty hb hv =>
    refine .bound (hext.keeps.get? hty) hb (hv.mono (fun i _ j hij => hij.extends hc hext) ?_)
    exact fun _ _ _ hj hk => hj.unique hk
  | array hty he hv ih =>
    refine .array (hext.keeps.get? hty) ih (hv.mono (fun x hx j hj => hj.extends ?_ hext) ?_)
    · exact (writable_array (hc.orMixed_lt_size (he.lt_size hc) x hx) _).inside
    · exact fun _ _ _ hj hk => hj.unique hk
  | rebuilt hty hkind hparts hj ih =>
    exact .rebuilt (hext.keeps.get? hty) hkind ih
      (hj.extends (hc.writable_turned hty hkind hparts).inside hext)

/-! ### Unions -/

theorem Becomes.exists_turns (h : t.Becomes ρ u v) : ∀ i ∈ u.members, ∃ w, t.Turns ρ i w := by
  obtain ⟨f, hf, -⟩ := h
  exact fun i hi => ⟨f i, hf i hi⟩

theorem Becomes.sameMembers_flatMap (hc : t.Canonical) (h : t.Becomes ρ u v)
    (hf : ∀ i ∈ u.members, t.Turns ρ i (f i)) : v.SameMembers (u.flatMap f) := by
  obtain ⟨g, hg, hv⟩ := h
  exact hv.trans ((UnionType.SameMembers.refl u).flatMap fun i hi _ => (hg i hi).unique hc (hf i hi))

theorem Becomes.unique (hc : t.Canonical) (hv : t.Becomes ρ u v) (hw : t.Becomes ρ u w) :
    v.SameMembers w := by
  obtain ⟨f, hf, hsame⟩ := hw
  exact (hv.sameMembers_flatMap hc hf).trans hsame.symm

theorem Becomes.exists_of_mem (h : t.Becomes ρ u v) (hj : j ∈ v.members) :
    ∃ i ∈ u.members, ∃ w, t.Turns ρ i w ∧ j ∈ w.members := by
  obtain ⟨f, hf, hv⟩ := h
  obtain ⟨i, hi, hij⟩ := UnionType.mem_flatMap.1 ((hv j).1 hj)
  exact ⟨i, hi, f i, hf i hi, hij⟩

theorem Becomes.lt_size (hc : t.Canonical) (h : t.Becomes ρ u v) : ∀ j ∈ v.members, j < t.size := by
  intro j hj
  obtain ⟨i, -, w, hw, hjw⟩ := h.exists_of_mem hj
  exact hw.lt_size hc j hjw

/-- What is true of all that the members turn into is true of what the union becomes. -/
theorem Becomes.forall_iff (h : t.Becomes ρ u v) {p q : TypeId → Prop}
    (hpq : ∀ i ∈ u.members, ∀ w, t.Turns ρ i w → ((∀ j ∈ w.members, p j) ↔ q i)) :
    (∀ j ∈ v.members, p j) ↔ ∀ i ∈ u.members, q i := by
  obtain ⟨f, hf, hv⟩ := h
  constructor
  · intro hp i hi
    exact (hpq i hi _ (hf i hi)).1 fun j hj => hp j ((hv j).2 (UnionType.mem_flatMap.2 ⟨i, hi, hj⟩))
  · intro hq j hj
    obtain ⟨i, hi, hij⟩ := UnionType.mem_flatMap.1 ((hv j).1 hj)
    exact (hpq i hi _ (hf i hi)).2 (hq i hi) j hij

theorem Becomes.extends (hc : t.Canonical) (h : t.Becomes ρ u v) (hext : t.Extends t₁) :
    t₁.Becomes ρ u v := by
  obtain ⟨f, hf, hv⟩ := h
  exact ⟨f, fun i hi => (hf i hi).extends hc hext, hv⟩

/-- What one member after the other turns into, put together. -/
theorem Canonical.becomes_of_forall₂ (hc : t.Canonical) {ws : List UnionType}
    (h : List.Forall₂ (t.Turns ρ) u.members ws) :
    t.Becomes ρ u (ws.foldl UnionType.union .empty) := by
  have hexists : ∀ i ∈ u.members, ∃ w ∈ ws, t.Turns ρ i w := fun i hi => exists_of_forall₂ h hi
  choose! f hmem hf using hexists
  refine ⟨f, hf, fun a => ?_⟩
  rw [UnionType.mem_foldl_union, UnionType.mem_flatMap]
  simp only [UnionType.members_empty, List.not_mem_nil, false_or]
  constructor
  · rintro ⟨w, hw, ha⟩
    obtain ⟨i, hi, hiw⟩ := exists_of_forall₂ h.flip hw
    exact ⟨i, hi, (hiw.unique hc (hf i hi) a).1 ha⟩
  · rintro ⟨i, hi, ha⟩
    exact ⟨f i, hmem i hi, ha⟩

/-! ### Null in what types turn into -/

/-- A type with null turns into what the type turns into, with null. -/
theorem Turns.withNull (hc : t.Canonical) (hij : t.WithNull n i j) (hv : t.Turns ρ i v)
    (hw : t.Turns ρ j w) : Image (t.WithNull n) v w := by
  cases hv with
  | @bound _ ty b _ hty hb hv =>
    have hmark := ρ.isMark hb
    have hj := (withNull_iff hty).1 hij
    rw [normalize_of_acceptsNull hmark.acceptsNull] at hj
    have hw' := hc.writable_get? hty
    have hj : t.get? j = some ⟨ty.kind, ty.nullable || n⟩ :=
      hc.get?_of_finds_mark ⟨hw'.inside, fun _ => hmark.acceptsNull, hw'.named⟩ hmark hj
    exact hv.factor (hw.of_bound hj hb) fun _ _ _ hx _ => hc.withNull_trans hx
  | array hty he hv =>
    have hlt := (hc.writable_get? hty).inside _ (List.mem_singleton_self _)
    have hj := (withNull_iff hty).1 hij
    rw [normalize_of_acceptsNull rfl] at hj
    obtain ⟨u, hu, hw⟩ := hw.of_array (hc.get?_of_finds_array hlt hj)
    refine hv.factor (hw.congr_left (hu.unique hc he).orMixed) fun x hx y hy z => ?_
    have hlt := hc.orMixed_lt_size (he.lt_size hc) x hx
    rw [hc.withNull_of_finds (writable_array hlt _) hy, normalize_of_acceptsNull rfl]
  | @rebuilt _ x ty f hty hkind hparts hx =>
    have hwritable := hc.writable_get? hty
    obtain ⟨g, k, hg, hk, rfl⟩ := (hc.turns_finds_iff (writable_normalize _ hwritable.inside
      hwritable.named) ((withNull_iff hty).1 hij) hkind).1 hw
    have halike := TypeKind.mapParts_alike fun e he =>
      (hg e he).unique hc (hparts e he)
    have hwith : t.WithNull n x k := by
      rw [hc.withNull_of_finds (hc.writable_turned hty hkind hparts) hx, normalize_mapParts]
      exact hc.finds_of_alike hk rfl halike
    exact UnionType.image_of hwith fun _ hy => hy.unique hwith

/-! ### Replacing twice -/

/-- The third replacement is the first one followed by the second one. -/
structure Chains (t : TypeTable) (ρ₁ ρ₂ ρ : Replacement) : Prop where
  bound : ∀ kind b, ρ₁.get? kind = some b → ∃ b', ρ.get? kind = some b' ∧ t.Becomes ρ₂ b b'
  free : ∀ kind, ρ₁.get? kind = none → ρ.get? kind = ρ₂.get? kind

theorem Turns.members_ne_nil (hρ : ρ.Full) (h : t.Turns ρ i v) : v.members ≠ [] := by
  cases h with
  | bound hty hb hv => exact hv.members_ne_nil (hρ _ _ hb)
  | array hty he hv => exact hv.members_ne_nil (UnionType.orMixed_members_ne_nil _)
  | rebuilt => simp [UnionType.members_of]

/-- What a type turns into turns on, if nothing is lost on the way, as the type does under both
replacements at once. -/
theorem Turns.comp (hc : t.Canonical) (hρ₁ : ρ₁.Full) (hρ₂ : ρ₂.Full) (hchains : t.Chains ρ₁ ρ₂ ρ)
    (hv : t.Turns ρ₁ i v) (hw : t.Becomes ρ₂ v w) : t.Turns ρ i w := by
  induction hv generalizing w with
  | bound hty hb hv =>
    obtain ⟨b', hb', f, hf, hsame⟩ := hchains.bound _ _ hb
    obtain ⟨g, hg, hw⟩ := hw
    refine .bound hty hb' (((hv.flatMap fun x hx y hxy => ?_).congr_left hsame.symm).congr_right
      hw.symm)
    exact (hf x hx).withNull hc hxy (hg y ((hv.mem y).2 ⟨x, hx, hxy⟩))
  | @array _ e key n u v hty he hv ih =>
    obtain ⟨g, hg, hw⟩ := hw
    have hne := he.members_ne_nil hρ₁
    rw [UnionType.orMixed_of_members_ne_nil hne] at hv
    -- every element turns on because the array of it does
    have harray : ∀ x ∈ u.members, ∀ y, t.Finds ⟨.array key x, n⟩ y →
        ∃ u, t.Turns ρ₂ x u ∧ Image (fun x j => t.Finds ⟨.array key x, n⟩ j) u (g y) := by
      intro x hx y hxy
      obtain ⟨u, hu, himage⟩ := (hg y ((hv.mem y).2 ⟨x, hx, hxy⟩)).of_array
        (hc.get?_of_finds_array (he.lt_size hc x hx) hxy)
      rw [UnionType.orMixed_of_members_ne_nil (hu.members_ne_nil hρ₂)] at himage
      exact ⟨u, hu, himage⟩
    have hexists : ∀ x ∈ u.members, ∃ u, t.Turns ρ₂ x u := by
      intro x hx
      obtain ⟨y, hxy⟩ := hv.total x hx
      obtain ⟨u, hu, -⟩ := harray x hx y hxy
      exact ⟨u, hu⟩
    choose! f hf using hexists
    refine .array hty (ih ⟨f, hf, .refl _⟩) ?_
    rw [UnionType.orMixed_of_members_ne_nil (UnionType.flatMap_members_ne_nil hne fun x hx =>
      (hf x hx).members_ne_nil hρ₂)]
    refine (hv.flatMap fun x hx y hxy => ?_).congr_right hw.symm
    obtain ⟨u, hu, himage⟩ := harray x hx y hxy
    exact himage.congr_left (hu.unique hc (hf x hx))
  | @rebuilt i j ty f hty hkind hparts hj ih =>
    obtain ⟨g, hg, hw⟩ := hw
    have hw := hw.trans (UnionType.sameMembers_of_flatMap j g)
    have hg := hg j (UnionType.mem_of.2 rfl)
    have hfree := hchains.free ty.kind hkind.stays
    cases hb : ρ₂.get? ty.kind with
    | some b =>
      -- a mark that only the second replacement replaces stayed where it was
      rw [(ρ₂.isMark hb).mapParts] at hj
      obtain rfl : j = i := hj.unique (hc.finds_get? hty)
      exact .bound hty (hfree.trans hb) ((hg.of_bound hty hb).congr_right hw.symm)
    | none =>
      obtain ⟨f₂, k, hf₂, hk, hgj⟩ := (hc.turns_finds_iff (hc.writable_turned hty hkind hparts) hj
        (TypeKind.Rebuilds.mapParts ⟨hkind.notArray, hb⟩)).1 hg
      rw [hgj] at hw
      rw [UnionType.eq_of_sameMembers_of hw]
      refine .rebuilt hty ⟨hkind.notArray, hfree.trans hb⟩ (fun e he => ?_)
        (hc.finds_of_alike hk rfl (TypeKind.mapParts_mapParts ty.kind))
      refine ih e he ⟨f₂, fun x hx => hf₂ x ?_, .refl _⟩
      exact (TypeKind.mem_embedded_mapParts hkind.notArray).2 ⟨e, he, hx⟩

theorem Becomes.comp (hc : t.Canonical) (hρ₁ : ρ₁.Full) (hρ₂ : ρ₂.Full)
    (hchains : t.Chains ρ₁ ρ₂ ρ) (hv : t.Becomes ρ₁ u v) (hw : t.Becomes ρ₂ v w) :
    t.Becomes ρ u w := by
  obtain ⟨f, hf, hv⟩ := hv
  obtain ⟨g, hg, hw⟩ := hw
  refine ⟨fun i => (f i).flatMap g, fun i hi => ?_, ?_⟩
  · refine (hf i hi).comp hc hρ₁ hρ₂ hchains ⟨g, fun j hj => hg j ?_, .refl _⟩
    exact (hv j).2 (UnionType.mem_flatMap.2 ⟨i, hi, hj⟩)
  · exact hw.trans ((hv.flatMap fun _ _ _ => .refl _).trans
      (UnionType.sameMembers_flatMap_flatMap u f g))

theorem Chains.extends (hc : t.Canonical) (h : t.Chains ρ₁ ρ₂ ρ) (hext : t.Extends t₁) :
    t₁.Chains ρ₁ ρ₂ ρ where
  bound kind b hb := by
    obtain ⟨b', hb', hbecomes⟩ := h.bound kind b hb
    exact ⟨b', hb', hbecomes.extends hc hext⟩
  free := h.free

/-! ### What stays -/

/-- A type whose marks stay or stand for themselves turns into itself. -/
theorem Canonical.turns_self (hc : t.Canonical)
    (h : t.Everywhere (fun kind => ∀ b, ρ.get? kind = some b →
      ∃ k, b = .of k ∧ t.Finds ⟨kind, false⟩ k) i) : t.Turns ρ i (.of i) := by
  induction h with
  | @intro i ty hty hself _ ih =>
    have hw := hc.writable_get? hty
    cases hb : ρ.get? ty.kind with
    | some b =>
      obtain ⟨k, rfl, hk⟩ := hself b hb
      have hplain : t.Writable ⟨ty.kind, false⟩ := ⟨hw.inside, by simp, hw.named⟩
      have hnull : t.WithNull ty.nullable k i := by
        rw [hc.withNull_of_finds hplain hk, Bool.false_or, hc.normalize_get? hty]
        exact hc.finds_get? hty
      exact .bound hty hb (UnionType.image_of hnull fun _ hj => hj.unique hnull)
    | none =>
      by_cases harray : ty.kind.IsArray
      · obtain ⟨kind, n⟩ := ty
        cases kind with
        | array key e =>
          refine .array hty (ih e (List.mem_singleton_self e)) ?_
          rw [UnionType.orMixed_of]
          have hfinds := hc.finds_get? hty
          exact UnionType.image_of hfinds fun _ hj => Finds.unique hj hfinds
        | _ => exact harray.elim
      · refine .rebuilt hty ⟨harray, hb⟩ ih ?_
        have halike : Ty.Alike SameName ⟨ty.kind.mapParts .of, ty.nullable⟩ ty :=
          ⟨rfl, TypeKind.mapParts_of ty.kind⟩
        exact (hc.finds_congr halike).2 (hc.finds_get? hty)

/-! ### Properties of what types turn into -/

variable {P Q : TypeKind → Prop}

/-- Null makes no difference to what is inside. -/
theorem Canonical.everywhere_withNull (hc : t.Canonical) (hP : KindProperty P)
    (h : t.WithNull n i j) : t.Everywhere P j ↔ t.Everywhere P i := by
  obtain ⟨ty, hty, hj⟩ := h
  have hw := hc.writable_get? hty
  rw [hc.everywhere_finds hP (writable_normalize _ hw.inside hw.named) hj, everywhere_iff hty]
  rfl

/-- A property holds throughout the members of an image if it holds throughout those of the union. -/
theorem everywhere_image {R : TypeId → TypeId → Prop} {p q : TypeId → Prop} (h : Image R u v)
    (hpq : ∀ i ∈ u.members, ∀ j, R i j → (p j ↔ q i)) :
    (∀ j ∈ v.members, p j) ↔ ∀ i ∈ u.members, q i := by
  constructor
  · intro hv i hi
    obtain ⟨j, hij⟩ := h.total i hi
    exact (hpq i hi j hij).1 (hv j ((h.mem j).2 ⟨i, hi, hij⟩))
  · intro hu j hj
    obtain ⟨i, hi, hij⟩ := (h.mem j).1 hj
    exact (hpq i hi j hij).2 (hu i hi)

/-- What a type turns into has a property throughout exactly when the type has the one that says so
of each kind inside it. -/
theorem Turns.everywhere_iff (hc : t.Canonical) (hP : KindProperty P)
    (harray : ∀ key e, P (.array key e) ∧ Q (.array key e))
    (hbound : ∀ kind b, ρ.get? kind = some b →
      ((∀ j ∈ b.members, t.Everywhere P j) ↔ Q kind))
    (hrebuilt : ∀ kind f, kind.Rebuilds ρ → (∀ e ∈ kind.embedded, t.Turns ρ e (f e)) →
      (P (kind.mapParts f) ↔ Q kind)) (h : t.Turns ρ i v) :
    (∀ j ∈ v.members, t.Everywhere P j) ↔ t.Everywhere Q i := by
  induction h with
  | @bound i ty b v hty hb hv =>
    rw [TypeTable.everywhere_iff hty, everywhere_image hv fun _ _ _ hij =>
      hc.everywhere_withNull hP hij, hbound _ _ hb, (ρ.isMark hb).embedded]
    simp
  | @array i e key n u v hty he hv ih =>
    have hmembers : (∀ j ∈ v.members, t.Everywhere P j) ↔
        ∀ x ∈ u.orMixed.members, t.Everywhere P x := by
      refine everywhere_image hv fun x hx j hj => ?_
      have hlt := hc.orMixed_lt_size (he.lt_size hc) x hx
      rw [hc.everywhere_finds hP (writable_array hlt n) hj]
      simp [TypeKind.embedded, (harray key x).1]
    rw [hmembers, everywhere_orMixed hc hP, ih, TypeTable.everywhere_iff hty]
    simp [TypeKind.embedded, (harray key e).2]
  | @rebuilt i j ty f hty hkind hparts hj ih =>
    have hfound := hc.everywhere_finds hP (hc.writable_turned hty hkind hparts) hj
    simp only [UnionType.mem_of, forall_eq]
    rw [hfound, TypeTable.everywhere_iff hty, hrebuilt _ _ hkind hparts]
    refine and_congr_right' ?_
    simp only [TypeKind.mem_embedded_mapParts hkind.notArray]
    constructor
    · exact fun h e he => (ih e he).1 fun x hx => h x ⟨e, he, hx⟩
    · rintro h x ⟨e, he, hx⟩
      exact (ih e he).2 (h e he) x hx

end TypeTable

/-! ### Kinds made anew -/

/-- The fields have the same key, both may be missing or none, and what they hold is related. -/
structure ShapeField.Remade (R : UnionType → UnionType → Prop) (f g : ShapeKey × ShapeField) :
    Prop where
  key : f.1 = g.1
  optional : f.2.optional = g.2.optional
  type : R f.2.type g.2.type

/-- The parameters are passed alike, and what they take is related. -/
structure CallableParam.Remade (R : UnionType → UnionType → Prop) (p q : CallableParam) :
    Prop where
  type : R p.type q.type
  byRef : p.byRef = q.byRef
  variadic : p.variadic = q.variadic
  optional : p.optional = q.optional

section

variable {R S : UnionType → UnionType → Prop} {f g : ShapeKey × ShapeField} {p q : CallableParam}

theorem ShapeField.Remade.mono (h : Remade R f g) (hRS : R f.2.type g.2.type → S f.2.type g.2.type) :
    Remade S f g := ⟨h.key, h.optional, hRS h.type⟩

theorem CallableParam.Remade.mono (h : p.Remade R q) (hRS : R p.type q.type → S p.type q.type) :
    p.Remade S q := ⟨hRS h.type, h.byRef, h.variadic, h.optional⟩

theorem forall₂_mem {α β : Type} {R : α → β → Prop} {as : List α} {bs : List β}
    (h : List.Forall₂ R as bs) : List.Forall₂ (fun a b => a ∈ as ∧ R a b) as bs :=
  (List.forall₂_and_left as bs).2 ⟨fun _ ha => ha, h⟩

end

namespace TypeKind

/-- The second kind is the first one with related unions in the places of its parts. -/
inductive Remade (R : UnionType → UnionType → Prop) : TypeKind → TypeKind → Prop
  | object {name : ClassName} {as bs : List UnionType} (hargs : List.Forall₂ R as bs) :
      Remade R (.object name as) (.object name bs)
  | shape {fs gs : ShapeFields} (hfields : List.Forall₂ (ShapeField.Remade R) fs gs) :
      Remade R (.shape fs) (.shape gs)
  | callable {closure : Bool} {ps qs : List CallableParam} {u v : UnionType}
      (hparams : List.Forall₂ (CallableParam.Remade R) ps qs) (hresult : R u v) :
      Remade R (.callable ⟨closure, ps, u⟩) (.callable ⟨closure, qs, v⟩)

variable {R S : UnionType → UnionType → Prop} {a b : TypeKind} {f : TypeId → UnionType} {e : TypeId}

/-- Parts may be related otherwise if what they are parts of allows it. -/
theorem Remade.mono (h : a.Remade R b)
    (hRS : ∀ u v, (∀ e ∈ u.members, e ∈ a.embedded) → R u v → S u v) : a.Remade S b := by
  cases h with
  | object hargs =>
    refine .object ((forall₂_mem hargs).imp fun u v huv => hRS u v (fun e he => ?_) huv.2)
    exact List.mem_flatMap.2 ⟨u, huv.1, he⟩
  | shape hfields =>
    refine .shape ((forall₂_mem hfields).imp fun f g hfg =>
      hfg.2.mono fun huv => hRS _ _ (fun e he => ?_) huv)
    exact List.mem_flatMap.2 ⟨f, hfg.1, he⟩
  | callable hparams hresult =>
    refine .callable ((forall₂_mem hparams).imp fun p q hpq =>
      hpq.2.mono fun huv => hRS _ _ (fun e he => ?_) huv) (hRS _ _ (fun e he => ?_) hresult)
    · exact List.mem_append_right _ he
    · exact List.mem_append_left _ (List.mem_flatMap.2 ⟨p, hpq.1, he⟩)

theorem Remade.rebuilds (ρ : Replacement) (h : a.Remade R b) : a.Rebuilds ρ := by
  cases h <;> exact ⟨id, Option.eq_none_iff_forall_ne_some.2 fun _ hb => ρ.isMark hb⟩

theorem Remade.acceptsNull (h : a.Remade R b) : b.acceptsNull = true := by
  cases h <;> rfl

theorem Remade.proper (h : a.Remade R b) (ha : a.Proper) : b.Proper := by
  cases h with
  | object => exact ha
  | @shape fs gs hfields =>
    have hkeys : fs.map Prod.fst = gs.map Prod.fst := by
      rw [← List.forall₂_eq_eq_eq, List.forall₂_map_left_iff, List.forall₂_map_right_iff]
      exact hfields.imp fun _ _ hfg => hfg.key
    refine ⟨fun g hg n hn => ?_, hkeys ▸ ha.2⟩
    obtain ⟨f, hf, hfg⟩ := exists_of_forall₂ hfields.flip hg
    exact ha.1 f hf n (hfg.key.trans hn)
  | callable => trivial

/-- What is inside the new kind is inside a new part, which is related to an old one. -/
theorem Remade.exists_right (h : a.Remade R b) (he : e ∈ b.embedded) :
    ∃ u v, R u v ∧ e ∈ v.members ∧ ∀ x ∈ u.members, x ∈ a.embedded := by
  cases h with
  | object hargs =>
    obtain ⟨v, hv, he⟩ := List.mem_flatMap.1 he
    obtain ⟨u, hu, huv⟩ := exists_of_forall₂ hargs.flip hv
    exact ⟨u, v, huv, he, fun x hx => List.mem_flatMap.2 ⟨u, hu, hx⟩⟩
  | shape hfields =>
    obtain ⟨g, hg, he⟩ := List.mem_flatMap.1 he
    obtain ⟨f, hf, hfg⟩ := exists_of_forall₂ hfields.flip hg
    exact ⟨_, _, hfg.type, he, fun x hx => List.mem_flatMap.2 ⟨f, hf, hx⟩⟩
  | callable hparams hresult =>
    rcases List.mem_append.1 he with he | he
    · obtain ⟨q, hq, he⟩ := List.mem_flatMap.1 he
      obtain ⟨p, hp, hpq⟩ := exists_of_forall₂ hparams.flip hq
      exact ⟨_, _, hpq.type, he, fun x hx =>
        List.mem_append_left _ (List.mem_flatMap.2 ⟨p, hp, hx⟩)⟩
    · exact ⟨_, _, hresult, he, fun x hx => List.mem_append_right _ hx⟩

theorem Remade.flip (h : a.Remade R b) : b.Remade (fun u v => R v u) a := by
  cases h with
  | object hargs => exact .object hargs.flip
  | shape hfields =>
    exact .shape (hfields.flip.imp fun _ _ h => ⟨h.key.symm, h.optional.symm, h.type⟩)
  | callable hparams hresult =>
    refine .callable (hparams.flip.imp fun _ _ h => ?_) hresult
    exact ⟨h.type, h.byRef.symm, h.variadic.symm, h.optional.symm⟩

/-- What is inside the old kind is inside an old part, which is related to a new one. -/
theorem Remade.exists_left (h : a.Remade R b) (he : e ∈ a.embedded) :
    ∃ u v, R u v ∧ e ∈ u.members ∧ ∀ x ∈ v.members, x ∈ b.embedded := by
  obtain ⟨v, u, huv, he, hv⟩ := h.flip.exists_right he
  exact ⟨u, v, huv, he, hv⟩

/-- A kind made anew from what is put in the places of its parts is the one with these in place. -/
theorem Remade.alike (h : a.Remade R b)
    (hR : ∀ u v, (∀ e ∈ u.members, e ∈ a.embedded) → R u v → v.SameMembers (u.flatMap f)) :
    b.Alike SameName (a.mapParts f) := by
  cases h.mono hR with
  | object hargs => exact ⟨rfl, List.forall₂_map_right_iff.2 hargs.flip⟩
  | shape hfields =>
    refine List.forall₂_map_right_iff.2 (hfields.flip.imp fun g f hfg => ?_)
    exact ⟨hfg.key.symm, hfg.optional.symm, hfg.type⟩
  | callable hparams hresult =>
    refine ⟨rfl, List.forall₂_map_right_iff.2 (hparams.flip.imp fun q p hpq => ?_), hresult⟩
    exact ⟨hpq.type.orMixed, hpq.byRef.symm, hpq.variadic.symm, hpq.optional.symm⟩

end TypeKind

namespace TypeTable

variable {t : TypeTable} {ty : Ty} {i j : TypeId} {ρ : Replacement} {kind : TypeKind}

/-- A type turns into the one that is found for its kind made anew. -/
theorem Canonical.turns_remade (hc : t.Canonical) (hty : t.get? i = some ty)
    (h : ty.kind.Remade (t.Becomes ρ) kind) (hj : t.Finds ⟨kind, ty.nullable⟩ j) :
    t.Turns ρ i (.of j) := by
  have hexists : ∀ e ∈ ty.kind.embedded, ∃ w, t.Turns ρ e w := by
    intro e he
    obtain ⟨u, v, huv, heu, -⟩ := h.exists_left he
    exact huv.exists_turns e heu
  choose! f hf using hexists
  refine .rebuilt hty (h.rebuilds ρ) hf (hc.finds_of_alike hj rfl (h.alike fun u v hu huv => ?_))
  exact huv.sameMembers_flatMap hc fun e he => hf e (hu e he)

end TypeTable

namespace TypeM

variable {t : TypeTable} {ty : Ty} {i : TypeId} {ρ : Replacement} {kind : TypeKind}

/-- The variant of a type with null or without it is found where work on it ends. -/
theorem delivers_variant (ht : t.Proper) (hty : t.get? i = some ty) (nullable : Bool) :
    Delivers t (withNull i nullable) fun t j =>
      t.Finds (TypeTable.normalize ty.kind nullable) j := by
  refine delivers_fetch_bind hty ?_
  split
  · next hsame =>
    refine delivers_pure ht ?_
    rw [ht.canonical.normalize_of_same hty hsame]
    exact ht.canonical.finds_get? hty
  · exact delivers_intern ht nullable (ht.kinds i ty hty) (ht.canonical.writable_get? hty).inside

/-- A type with null is delivered if that is asked for; null is never taken away here. -/
theorem delivers_withNull (ht : t.Proper) (hty : t.get? i = some ty) {nullable : Bool}
    (hkeep : ty.nullable = true → nullable = true) :
    Delivers t (withNull i nullable) fun t j => t.WithNull nullable i j := by
  have hor : (ty.nullable || nullable) = nullable := by
    cases hn : ty.nullable with
    | false => rfl
    | true => rw [hkeep hn]; rfl
  refine (delivers_variant ht hty nullable).imp fun j t₁ hext _ hj => ?_
  rw [TypeTable.withNull_iff (hext.keeps.get? hty), hor]
  exact hj

theorem delivers_array (ht : t.Proper) (key : KeyKind) (hi : i < t.size) (nullable : Bool) :
    Delivers t (array key i nullable) fun t j => t.Finds ⟨.array key i, nullable⟩ j := by
  have hkind : (TypeKind.array key i).Proper := trivial
  refine (delivers_intern ht nullable hkind (TypeTable.writable_array hi nullable).inside).imp
    fun j t₁ _ _ hj => ?_
  rwa [TypeTable.normalize_of_acceptsNull rfl] at hj

/-- A request for a kind made anew delivers what the type turns into. -/
theorem delivers_remade (ht : t.Proper) (hty : t.get? i = some ty)
    (h : ty.kind.Remade (t.Becomes ρ) kind) :
    Delivers t (intern kind ty.nullable) fun t j => t.Turns ρ i (.of j) := by
  have hin : ∀ e ∈ kind.embedded, e < t.size := by
    intro e he
    obtain ⟨u, v, huv, hev, -⟩ := h.exists_right he
    exact huv.lt_size ht.canonical e hev
  refine (delivers_intern ht ty.nullable (h.proper (ht.kinds i ty hty)) hin).imp
    fun j t₁ hext ht₁ hj => ?_
  rw [TypeTable.normalize_of_acceptsNull h.acceptsNull] at hj
  exact ht₁.canonical.turns_remade (hext.keeps.get? hty)
    (h.mono fun u v _ huv => huv.extends ht.canonical hext) hj

end TypeM

end UnionInference
