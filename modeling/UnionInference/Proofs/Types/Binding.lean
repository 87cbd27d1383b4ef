import Mathlib.Data.List.Zip
import UnionInference.Proofs.Types.Learning
import UnionInference.Proofs.Types.Placeholders

/-!
What is learned of placeholders fits the argument it was learned from. When an argument casts to a type
that is built from placeholders, it casts to that type with what was learned in the places of the
placeholders. The elements of all arrays in a union are looked at together, so a plain array among them
hides the others; that does no harm as long as no class stands behind it, or keys of all kinds are
accepted where that matters.
-/

namespace UnionInference

open TypeTable UnionType

/-- The kind says nothing about elements. -/
def TypeKind.IsOpen (kind : TypeKind) : Prop := kind = .native .array ∨ kind = .native .mixed

/-- The kind is that of objects. -/
def TypeKind.IsObject : TypeKind → Prop
  | .object .. => True
  | _ => False

theorem TypeKind.Standard.withArguments {name : ClassName} {args : List UnionType}
    (h : (TypeKind.object name args).Standard) (args' : List UnionType) :
    (TypeKind.object name args').Standard :=
  ⟨h.1, fun _ _ heq => by cases heq; exact h.2 name args rfl⟩

namespace TypeTable

variable {t t₁ : TypeTable} {m : TemplateMap} {d e i j x y z : TypeId} {k k₁ : KeyKind} {n n₁ : Bool}
  {u v w : UnionType} {s ty : Ty} {P : TypeKind → Prop} {Q : TypeId → Prop} {S : TypeId → Prop}

/-! ### Patterns and rows of arrays -/

/-- The type is built from placeholders by arrays and by classes with one such type for each
argument. -/
inductive IsPattern (t : TypeTable) : TypeId → Prop
  | template {d : TypeId} {s : String} {n : Bool} (hd : t.get? d = some ⟨.template s, n⟩) :
      IsPattern t d
  | array {d e : TypeId} {k : KeyKind} {n : Bool} (hd : t.get? d = some ⟨.array k e, n⟩)
      (he : IsPattern t e) : IsPattern t d
  | object {d : TypeId} {name : ClassName} {params : List UnionType} {n : Bool}
      (hd : t.get? d = some ⟨.object name params, n⟩)
      (hsingle : ∀ p ∈ params, ∃ e, p = .of e) (hparams : ∀ e, .of e ∈ params → IsPattern t e) :
      IsPattern t d

/-- Going from arrays to their elements one ends at a type of a kind with the property. -/
inductive EndsIn (t : TypeTable) (P : TypeKind → Prop) : TypeId → Prop
  | here {i : TypeId} {ty : Ty} (hi : t.get? i = some ty) (hP : P ty.kind) : EndsIn t P i
  | element {i e : TypeId} {k : KeyKind} {n : Bool} (hi : t.get? i = some ⟨.array k e, n⟩)
      (he : EndsIn t P e) : EndsIn t P i

/-- The arrays inside the type whose elements have the property have keys of all kinds. -/
def MixedRows (t : TypeTable) (Q : TypeId → Prop) (i : TypeId) : Prop :=
  ∀ j k e n, t.Within i j → t.get? j = some ⟨.array k e, n⟩ → Q e → k = .mixed

theorem mixedRows_intro (hi : t.get? i = some ty)
    (hself : ∀ k e, ty.kind = .array k e → Q e → k = .mixed)
    (hparts : ∀ e ∈ ty.kind.embedded, t.MixedRows Q e) : t.MixedRows Q i := by
  intro j k e n hj hget
  cases hj with
  | self =>
    cases hi.symm.trans hget
    exact hself k e rfl
  | part he hmem hj =>
    cases hi.symm.trans (get?_eq he)
    exact hparts _ hmem j k e n hj hget

theorem MixedRows.part (h : t.MixedRows Q i) (hty : t.get? i = some ty) (hj : j ∈ ty.kind.embedded) :
    t.MixedRows Q j := by
  obtain ⟨entry, hentry, rfl⟩ := Option.map_eq_some_iff.1 hty
  exact fun x k e n hx => h x k e n (.part hentry hj hx)

theorem MixedRows.self (h : t.MixedRows Q i) (hi : t.get? i = some ⟨.array k e, n⟩) (he : Q e) :
    k = .mixed := h i k e n (.self i) hi he

theorem MixedRows.widens (h : t.MixedRows Q i) (hij : t.Widens i j) : t.MixedRows Q j := by
  obtain ⟨⟨kind, nullable⟩, hi, hj, hother⟩ := hij
  by_cases hliteral : kind.IsLiteral
  · obtain ⟨b, hb⟩ := hliteral.exists_widened
    rw [Ty.widened, hb] at hj
    intro x k e n hx hget
    obtain rfl := hx.eq_of_embedded hj rfl
    cases hj.symm.trans hget
  · exact hother hliteral ▸ h

/-- The type is that of arrays with elements of one type, or says nothing about elements. -/
def IsRow (t : TypeTable) (i : TypeId) : Prop :=
  ∃ ty, t.get? i = some ty ∧ (ty.kind.IsArray ∨ ty.kind.IsOpen)

/-! ### Casts to arrays -/

/-- A plain type casts as its kind does. -/
theorem Plain.casts_iff (ht : t.Rooted) (hz : t.Plain z) (hs : t.get? z = some s)
    (hd : t.get? y = some ty) :
    t.Casts z y ↔ z = y ∨ ty.kind = .native .mixed ∨ s.kind = .native .mixed ∨
      s.kind.Casts t.Casts ty.kind := by
  have hnull := hz.admitsNull hs
  have hnot : s.isNative .null = false := by
    rw [Ty.admitsNull, Bool.or_eq_false_iff] at hnull
    exact hnull.2
  rw [ht.casts_iff hs hd, Permits, hnull, hnot, Ty.isNative_iff, Ty.isNative_iff]
  simp

/-- The kind casts to every array: it says nothing about elements, or it is a placeholder. -/
def IsLoose (kind : TypeKind) : Prop := kind.IsOpen ∨ ∃ a, kind = .template a

theorem Plain.casts_of_loose (ht : t.Rooted) (hz : t.Plain z) (hs : t.get? z = some s)
    (hloose : IsLoose s.kind) (hy : t.get? y = some ⟨.array k e, n⟩) : t.Casts z y := by
  rw [hz.casts_iff ht hs hy]
  rcases hloose with (h | h) | ⟨a, h⟩
  · rw [h]
    exact .inr (.inr (.inr rfl))
  · exact .inr (.inr (.inl h))
  · rw [h]
    exact .inr (.inr (.inr rfl))

theorem Plain.casts_array (ht : t.Rooted) (hz : t.Plain z) (hs : t.get? z = some ⟨.array k₁ x, n₁⟩)
    (hk : k₁.casts k = true) (hx : t.Casts x e) (hy : t.get? y = some ⟨.array k e, n⟩) :
    t.Casts z y :=
  (hz.casts_iff ht hs hy).2 (.inr (.inr (.inr ⟨hk, hx⟩)))

/-- What casts to an array is an array with elements and keys that cast, or it casts to every array. -/
theorem Plain.casts_array_cases (ht : t.Rooted) (hz : t.Plain z) (hs : t.get? z = some s)
    (hd : t.get? d = some ⟨.array k e, n⟩) (h : t.Casts z d) :
    (∃ k₁ e₁ n₁, t.get? z = some ⟨.array k₁ e₁, n₁⟩ ∧ k₁.casts k = true ∧ t.Casts e₁ e) ∨
      IsLoose s.kind := by
  obtain ⟨kind, nullable⟩ := s
  rcases (hz.casts_iff ht hs hd).1 h with rfl | h | h | h
  · exact .inl ⟨k, e, n, hd, by simp [KeyKind.casts], t.casts_refl e⟩
  · cases h
  · exact .inr (.inl (.inr h))
  · cases kind with
    | array k₁ e₁ => exact .inl ⟨k₁, e₁, nullable, hs, h.1, h.2⟩
    | template a => exact .inr (.inr ⟨a, rfl⟩)
    | native b => cases b <;> first | exact .inr (.inl (.inl rfl)) | cases h
    | shape fields => cases (hz z _ (.self z) hs).2
    | _ => cases h

/-! ### Members that matter -/

/-- The argument has a member that is the type when both are widened. -/
def Covers (t : TypeTable) (u : UnionType) (z : TypeId) : Prop :=
  ∃ x ∈ u.members, ∃ j, t.Widens z j ∧ t.Widens x j

/-- The kind is no literal, and no literal is widened to it. -/
def IsSettled (kind : TypeKind) : Prop := ¬ kind.IsLiteral ∧ ∀ k : TypeKind, k.widened = kind → k = kind

theorem isSettled_of_isRow {kind : TypeKind} (h : kind.IsArray ∨ kind.IsOpen) : IsSettled kind := by
  rcases h with h | rfl | rfl
  · cases kind with
    | array => exact ⟨id, fun k hk => by cases k <;> first | exact hk | cases hk⟩
    | _ => cases h
  all_goals exact ⟨id, fun k hk => by cases k <;> first | exact hk | cases hk⟩

theorem isSettled_object (name : ClassName) (args : List UnionType) :
    IsSettled (.object name args) :=
  ⟨id, fun k hk => by cases k <;> first | exact hk | cases hk⟩

theorem Widens.eq_of_isSettled (hc : t.Canonical) (h : t.Widens x y) (hy : t.get? y = some s)
    (hs : IsSettled s.kind) : x = y := by
  obtain ⟨⟨kind, nullable⟩, hx, hxy, -⟩ := h
  obtain rfl : Ty.widened ⟨kind, nullable⟩ = s := Option.some.inj (hxy.symm.trans hy)
  have hkind : kind = kind.widened := hs.2 kind rfl
  exact hc.get?_inj hx (hy.trans (congrArg (fun k => some (Ty.mk k nullable)) hkind.symm))

/-- A covered type is a member if no other type is widened to the same one. -/
theorem Covers.mem (hc : t.Canonical) (h : t.Covers u z) (hz : t.get? z = some s)
    (hs : IsSettled s.kind) : z ∈ u.members := by
  obtain ⟨x, hx, j, hzj, hxj⟩ := h
  obtain rfl := (widens_self hz hs.1).unique hc hzj
  exact hxj.eq_of_isSettled hc hz hs ▸ hx

/-- A plain type that the argument covers. -/
structure Stands (t : TypeTable) (u : UnionType) (z : TypeId) : Prop where
  plain : t.Plain z
  lt_size : z < t.size
  covers : t.Covers u z

theorem stands_of_mem (ht : t.Rooted) (hx : x ∈ u.members) (hplain : t.Plain x) (hlt : x < t.size) :
    t.Stands u x := by
  obtain ⟨j, -, hj⟩ := ht.exists_widens hlt
  exact ⟨hplain, hlt, x, hx, j, hj, hj⟩

/-- Nothing that matters is hidden: either the members that end in a type which says nothing about
elements are all chosen, or no class stands behind arrays in the declared type but where arrays with
other keys are chosen too. -/
inductive Unhidden (t : TypeTable) (u : UnionType) (S : TypeId → Prop) (d : TypeId) : Prop
  | argument (hrows : ∀ x ∈ u.members, t.MixedRows (t.EndsIn TypeKind.IsOpen) x)
      (hS : ∀ x ∈ u.members, t.EndsIn TypeKind.IsOpen x → S x) : Unhidden t u S d
  | declared (hrows : t.MixedRows (fun e => t.IsArrayAt e ∧ t.EndsIn TypeKind.IsObject e) d)
      (hS : t.IsArrayAt d → t.EndsIn TypeKind.IsObject d → ∀ x ∈ u.members, t.IsRow x → S x) :
      Unhidden t u S d

/-- What is chosen among the elements: those of the chosen arrays whose keys cast. -/
def ChosenElement (t : TypeTable) (S : TypeId → Prop) (k : KeyKind) (e : TypeId) : Prop :=
  ∃ x k₁ n, S x ∧ t.get? x = some ⟨.array k₁ e, n⟩ ∧ k₁.casts k = true

theorem casts_mixed_left (k : KeyKind) : KeyKind.casts .mixed k = true := by cases k <;> rfl

theorem casts_mixed_right (k : KeyKind) : k.casts .mixed = true := by cases k <;> rfl

/-- If the argument itself does not hide its elements, nothing that matters is hidden among these. -/
theorem Unhidden.element (hc : t.Canonical) (hplain : ∀ x ∈ u.members, t.Plain x)
    (h : t.Unhidden u S d) (hd : t.get? d = some ⟨.array k e, n⟩)
    (hw : ∀ y, y ∈ w.members ↔ ∃ x, IsElement t u x ∧ t.Widens x y) :
    t.Unhidden w (t.ChosenElement S k) e := by
  have helement : ∀ y ∈ w.members, t.IsRow y → ∃ x k₁ n₁, x ∈ u.members ∧
      t.get? x = some ⟨.array k₁ y, n₁⟩ := by
    rintro y hy ⟨ty, hty, hrow⟩
    obtain ⟨y', ⟨x, hx, ⟨kind, n₁⟩, hxty, hy'⟩, hwiden⟩ := (hw y).1 hy
    obtain rfl := hwiden.eq_of_isSettled hc hty (isSettled_of_isRow hrow)
    cases kind with
    | array k₁ e₁ => exact ⟨x, k₁, n₁, hx, List.mem_singleton.1 hy' ▸ hxty⟩
    | shape fields => cases (hplain x hx x _ (.self x) hxty).2
    | _ => cases hy'
  cases h with
  | argument hrows hS =>
    have hrow : ∀ y, t.EndsIn TypeKind.IsOpen y → t.IsRow y := by
      rintro y (⟨hy, hopen⟩ | ⟨hy, -⟩)
      · exact ⟨_, hy, .inr hopen⟩
      · exact ⟨_, hy, .inl trivial⟩
    refine .argument (fun y hy => ?_) fun y hy hends => ?_
    · obtain ⟨x, ⟨i, hi, ty, hty, hx⟩, hxy⟩ := (hw y).1 hy
      exact ((hrows i hi).part hty (elementsOf_subset_embedded hx)).widens hxy
    · obtain ⟨x, k₁, n₁, hx, hxy⟩ := helement y hy (hrow y hends)
      obtain rfl := (hrows x hx).self hxy hends
      exact ⟨x, _, n₁, hS x hx (.element hxy hends), hxy, casts_mixed_left k⟩
  | declared hrows hS =>
    refine .declared (hrows.part hd (List.mem_singleton_self e)) fun harray hends y hy hrow => ?_
    obtain rfl := hrows.self hd ⟨harray, hends⟩
    obtain ⟨x, k₁, n₁, hx, hxy⟩ := helement y hy hrow
    exact ⟨x, k₁, n₁, hS ⟨_, hd, trivial⟩ (.element hd hends) x hx ⟨_, hxy, .inl trivial⟩, hxy,
      casts_mixed_right k₁⟩

/-- Widening a type that is no literal gives that type. -/
theorem eq_of_image_widens (hc : t.Canonical) (hx : t.Widens x x) (h : Image t.Widens (of x) w) :
    w = of x :=
  eq_of_sameMembers_of (h.sameMembers (image_of hx fun _ hk => hk.unique hc hx))

/-- The elements of an argument that hides them are all values, also when they are widened. -/
theorem eq_mixed_of_elements (hc : t.Canonical) (ht : t.Rooted) (hu : u.Inside t)
    (hopen : HasOpen t u) (hv : u.elementTypes t = .ok v) (hw : Image t.Widens v w) : w = mixed := by
  obtain ⟨v', hv', hmixed, -⟩ := elementTypes_eq hu
  obtain rfl : v = v' := Except.ok.inj (hv.symm.trans hv')
  rw [hmixed hopen] at hw
  exact eq_of_image_widens hc (widens_self (ht.get?_native .mixed) id) hw

/-- Where nothing is hidden the widened elements are those of the arrays among the members. -/
theorem mem_widened (hu : u.Inside t) (hopen : ¬ HasOpen t u) (hv : u.elementTypes t = .ok v)
    (hw : Image t.Widens v w) (y : TypeId) :
    y ∈ w.members ↔ ∃ x, IsElement t u x ∧ t.Widens x y := by
  obtain ⟨v', hv', -, helement⟩ := elementTypes_eq hu
  obtain rfl : v = v' := Except.ok.inj (hv.symm.trans hv')
  rw [hw.mem]
  exact exists_congr fun x => and_congr_left fun _ => helement hopen x

theorem plain_widened (hplain : ∀ x ∈ u.members, t.Plain x)
    (hw : ∀ y, y ∈ w.members ↔ ∃ x, IsElement t u x ∧ t.Widens x y) : ∀ y ∈ w.members, t.Plain y := by
  intro y hy
  obtain ⟨x, ⟨i, hi, ty, hty, hx⟩, hxy⟩ := (hw y).1 hy
  exact ((hplain i hi).part hty (elementsOf_subset_embedded hx)).widens hxy

/-- The element of a covered array is covered by the widened elements. -/
theorem Stands.element (hc : t.Canonical) (ht : t.Rooted) (hz : t.Stands u z)
    (hs : t.get? z = some ⟨.array k e, n⟩)
    (hw : ∀ y, y ∈ w.members ↔ ∃ x, IsElement t u x ∧ t.Widens x y) : t.Stands w e := by
  have hin : e ∈ (TypeKind.array k e).embedded := List.mem_singleton_self e
  have hlt := (embedded_lt_of_get? hs hin).trans hz.lt_size
  obtain ⟨j, -, hj⟩ := ht.exists_widens hlt
  have hmem := hz.covers.mem hc hs (isSettled_of_isRow (.inl trivial))
  exact ⟨hz.plain.part hs hin, hlt, j, (hw j).2 ⟨e, ⟨z, hmem, _, hs, List.mem_singleton_self e⟩, hj⟩,
    j, hj, hj.widens_self⟩

/-! ### What was learned, read back -/

theorem Learns.of_template (h : t.Learns m u d) (hne : u.members ≠ []) {a : String}
    (hd : t.get? d = some ⟨.template a, n⟩) :
    ∀ x ∈ u.members, ∀ j, t.Widens x j → ∃ b, m.get? a = some b ∧ j ∈ b.members := by
  cases h with
  | nothing hu => exact absurd hu hne
  | template hd' hu =>
    cases hd.symm.trans hd'
    exact hu
  | array hd' => cases hd.symm.trans hd'
  | object hd' => cases hd.symm.trans hd'
  | other hd' htemplate =>
    cases hd.symm.trans hd'
    exact absurd rfl (htemplate a)

theorem Learns.of_array (h : t.Learns m u d) (hne : u.members ≠ [])
    (hd : t.get? d = some ⟨.array k e, n⟩) : ∃ elements widened, u.elementTypes t = .ok elements ∧
      Image t.Widens elements widened ∧ t.Learns m widened e := by
  cases h with
  | nothing hu => exact absurd hu hne
  | template hd' => cases hd.symm.trans hd'
  | array hd' hu hw he =>
    cases hd.symm.trans hd'
    exact ⟨_, _, hu, hw, he⟩
  | object hd' => cases hd.symm.trans hd'
  | other hd' _ harray =>
    cases hd.symm.trans hd'
    exact absurd rfl (harray k e)

theorem Learns.of_object (h : t.Learns m u d) {name : ClassName} {params : List UnionType}
    (hd : t.get? d = some ⟨.object name params, n⟩) :
    ∀ x ∈ u.members, ∀ other args n', t.get? x = some ⟨.object other args, n'⟩ →
      other.sameClass name = true → ∀ p ∈ params.zip args, ∀ e ∈ p.1.members, t.Learns m p.2 e := by
  cases h with
  | nothing hu => simp [hu]
  | template hd' => cases hd.symm.trans hd'
  | array hd' => cases hd.symm.trans hd'
  | object hd' hu =>
    cases hd.symm.trans hd'
    exact hu
  | other hd' _ _ hobject =>
    cases hd.symm.trans hd'
    exact absurd rfl (hobject name params)

/-! ### What patterns turn into -/

theorem Plain.keeps (h : t.Plain i) (hk : t.Keeps t₁) (hi : i < t.size) : t₁.Plain i := by
  intro j ty hj hty
  obtain ⟨hwithin, hlt⟩ := hk.within hi hj
  obtain ⟨ty', hty'⟩ := exists_get? hlt
  cases hty.symm.trans (hk.get? hty')
  exact h j ty hwithin hty'

/-- Arrays turn into arrays of what their elements turn into. -/
theorem Turns.exists_arrays (hc : t.Canonical) {ρ : Replacement} (h : t.Turns ρ d v)
    (hd : t.get? d = some ⟨.array k e, n⟩) : ∃ w, t.Turns ρ e w ∧
      (∃ y ∈ v.members, ∃ x, t.get? y = some ⟨.array k x, n⟩) ∧
      ∀ x ∈ w.members, ∃ y ∈ v.members, t.get? y = some ⟨.array k x, n⟩ := by
  obtain ⟨w, hw, himage⟩ := h.of_array hd
  have hin := hc.orMixed_lt_size (hw.lt_size hc)
  have harray : ∀ x ∈ w.orMixed.members, ∃ y ∈ v.members, t.get? y = some ⟨.array k x, n⟩ := by
    intro x hx
    obtain ⟨y, hy⟩ := himage.total x hx
    exact ⟨y, (himage.mem y).2 ⟨x, hx, hy⟩, hc.get?_of_finds_array (hin x hx) hy⟩
  refine ⟨w, hw, ?_, fun x hx => harray x ?_⟩
  · obtain ⟨x, hx⟩ := List.exists_mem_of_ne_nil _ w.orMixed_members_ne_nil
    obtain ⟨y, hy, hyx⟩ := harray x hx
    exact ⟨y, hy, x, hyx⟩
  · rwa [orMixed_of_members_ne_nil (List.ne_nil_of_mem hx)]

/-! ### Casts to what patterns turn into -/

/-- The second table is a later one than the first, and all its types are standard. -/
structure Later (t t₁ : TypeTable) : Prop where
  canonical : t.Canonical
  rooted : t.Rooted
  canonical₁ : t₁.Canonical
  rooted₁ : t₁.Rooted
  keeps : t.Keeps t₁
  standard : ∀ (i : TypeId) (ty : Ty), t₁.get? i = some ty → ty.kind.Standard

/-- Of the chosen members one casts to what the declared type turns into, if one of them casts to the
declared type and no members hide what matters of them. -/
def Follows (t t₁ : TypeTable) (m : TemplateMap) (d : TypeId) : Prop :=
  ∀ ⦃u : UnionType⦄ ⦃S : TypeId → Prop⦄ ⦃v : UnionType⦄, t.Learns m u d → u.Inside t →
    (∀ x ∈ u.members, t.Plain x) → (∀ z, S z → t.Stands u z) → t.Unhidden u S d →
    t₁.Turns m.replacement d v → (∃ z, S z ∧ t.Casts z d) → ∃ z, S z ∧ ∃ y ∈ v.members, t₁.Casts z y

namespace Later

variable (h : t.Later t₁)

include h

/-- A plain type casts to the variants of its widened type. -/
theorem casts_withNull (hz : t.Plain z) (hlt : z < t.size) (hwiden : t.Widens z j)
    (hy : t₁.WithNull n j y) : t₁.Casts z y := by
  obtain ⟨s, hs, hj, -⟩ := hwiden.keeps h.keeps
  have hw := h.canonical₁.writable_get? hj
  obtain ⟨e, he, -, -, halike⟩ := h.canonical₁.alike_of_finds
    (writable_normalize _ hw.inside hw.named) ((withNull_iff hj).1 hy)
  rw [(hz.keeps h.keeps hlt).casts_iff h.rooted₁ hs he]
  refine .inr (.inr (.inr ?_))
  rw [← TypeKind.casts_congr_right (h.standard j _ hj) (h.standard y e he) halike]
  by_cases hliteral : s.kind.IsLiteral
  · exact hliteral.casts_widened.1
  · have hself := (TypeKind.casts_self_iff t₁.casts_refl (h.standard z s hs).1).2 hliteral
    have hsame : s.kind.widened = s.kind := by
      cases hk : s.kind <;> first | rfl | (rw [hk] at hliteral; exact absurd trivial hliteral)
    exact hsame.symm ▸ hself

/-- Placeholders that were met stand for what the argument casts to. -/
theorem exists_casts_template {a : String} (hd : t.get? d = some ⟨.template a, n⟩)
    (hlearns : t.Learns m u d) (hv : t₁.Turns m.replacement d v) (hz : t.Plain z)
    (hlt : z < t.size) (hcovers : t.Covers u z) : ∃ y ∈ v.members, t₁.Casts z y := by
  obtain ⟨x, hx, j, hzj, hxj⟩ := hcovers
  obtain ⟨b, hb, hj⟩ := hlearns.of_template (List.ne_nil_of_mem hx) hd x hx j hxj
  have himage := hv.of_bound (h.keeps.get? hd) hb
  obtain ⟨y, hy⟩ := himage.total j hj
  exact ⟨y, (himage.mem y).2 ⟨j, hj, hy⟩, h.casts_withNull hz hlt hzj hy⟩

/-- Where an argument hides its elements, an array of placeholders accepts all that it accepted. -/
theorem exists_casts_of_mixed (hd : t.IsPattern d) (hends : ¬ t.EndsIn TypeKind.IsObject d)
    (hlearns : t.Learns m mixed d) (hv : t₁.Turns m.replacement d v) (hz : t.Plain z)
    (hlt : z < t.size) (hcast : t.Casts z d) : ∃ y ∈ v.members, t₁.Casts z y := by
  induction hd generalizing v z with
  | @template d a n hd =>
    have hmixed : t.Widens NativeKind.mixed.id NativeKind.mixed.id :=
      widens_self (h.rooted.get?_native .mixed) id
    obtain ⟨b, hb, hj⟩ := hlearns.of_template (by decide) hd _ (by decide) _ hmixed
    have himage := hv.of_bound (h.keeps.get? hd) hb
    obtain ⟨y, hy⟩ := himage.total _ hj
    refine ⟨y, (himage.mem y).2 ⟨_, hj, hy⟩, ?_⟩
    have hget := h.rooted₁.get?_native .mixed
    have hfinds : t₁.Finds ⟨.native .mixed, false⟩ y := by
      simpa [normalize, TypeKind.acceptsNull, NativeKind.ignoresNull] using (withNull_iff hget).1 hy
    obtain rfl := hfinds.unique (h.canonical₁.finds_get? hget)
    exact h.rooted₁.casts_of_mixed (h.keeps.lt_size hlt) (lt_size_of_get? hget) (.inr rfl)
  | @array d e k n hd he ih =>
    obtain ⟨elements, widened, helements, himage, hinner⟩ := hlearns.of_array (by decide) hd
    obtain ⟨w, hw, ⟨y₀, hy₀, x₀, hget₀⟩, harrays⟩ :=
      hv.exists_arrays h.canonical₁ (h.keeps.get? hd)
    obtain ⟨s, hs⟩ := exists_get? hlt
    rcases hz.casts_array_cases h.rooted hs hd hcast with ⟨k₁, e₁, n₁, hs, hkey, hcast⟩ | hloose
    · have hopen : HasOpen t mixed :=
        ⟨NativeKind.mixed.id, by decide, _, h.rooted.get?_native .mixed, .inr rfl⟩
      have hin : mixed.Inside t := held_of (holds_of_lt (h.rooted.native_lt_size .mixed) fun _ => trivial)
      obtain rfl := eq_mixed_of_elements h.canonical h.rooted hin hopen helements himage
      obtain ⟨x, hx, hcastx⟩ := ih (fun he => hends (.element hd he)) hinner hw
        (hz.part hs (List.mem_singleton_self e₁))
        ((embedded_lt_of_get? hs (List.mem_singleton_self e₁)).trans hlt) hcast
      obtain ⟨y, hy, hget⟩ := harrays x hx
      exact ⟨y, hy, (hz.keeps h.keeps hlt).casts_array h.rooted₁ (h.keeps.get? hs) hkey hcastx hget⟩
    · exact ⟨y₀, hy₀, (hz.keeps h.keeps hlt).casts_of_loose h.rooted₁ (h.keeps.get? hs) hloose hget₀⟩
  | object hd => exact absurd (.here hd trivial) hends

/-- A plain type casts to what is found for a class as its kind does. -/
theorem casts_object_iff {name : ClassName} {args : List UnionType}
    (hstd : (TypeKind.object name args).Standard) (hw : t₁.Writable ⟨.object name args, n⟩)
    (hy : t₁.Finds ⟨.object name args, n⟩ y) (hz : t₁.Plain z) (hs : t₁.get? z = some s) :
    t₁.Casts z y ↔ s.kind = .native .mixed ∨ s.kind.Casts t₁.Casts (.object name args) := by
  obtain ⟨⟨kind, nullable⟩, he, -, -, halike⟩ := h.canonical₁.alike_of_finds hw hy
  rw [TypeKind.casts_congr_right hstd (h.standard y _ he) halike]
  cases kind with
  | object other args' =>
    rw [hz.casts_iff h.rooted₁ hs he]
    refine ⟨fun hcast => ?_, fun hcast => .inr (.inr hcast)⟩
    rcases hcast with rfl | hmixed | hcast
    · cases hs.symm.trans he
      exact .inr ((TypeKind.casts_self_iff t₁.casts_refl (h.standard z _ hs).1).2 id)
    · cases hmixed
    · exact hcast
  | _ => cases halike

/-- What casts to a class casts to the class with other arguments, if arguments cast as before. -/
theorem casts_object {name : ClassName} {params : List UnionType} {f : TypeId → UnionType}
    (hd : t.get? d = some ⟨.object name params, n⟩)
    (hy : t₁.Finds ⟨.object name (params.map fun p => p.flatMap f), n⟩ y)
    (hw : t₁.Writable ⟨.object name (params.map fun p => p.flatMap f), n⟩) (hz : t.Plain z)
    (hs : t.get? z = some s) (hcast : t.Casts z d)
    (hargs : ∀ other args, s.kind = .object other args → other.sameClass name = true →
      List.Forall₂ (Compatible t.Casts) args params →
        List.Forall₂ (Compatible t₁.Casts) args (params.map fun p => p.flatMap f)) :
    t₁.Casts z y := by
  have hstd := h.standard d _ (h.keeps.get? hd)
  have hkind : (s.kind = .native .mixed) ∨ s.kind.Casts t.Casts (.object name params) := by
    rcases (hz.casts_iff h.rooted hs hd).1 hcast with rfl | hmixed | hmixed | hkind
    · cases hs.symm.trans hd
      exact .inr ((TypeKind.casts_self_iff t.casts_refl hstd.1).2 id)
    · cases hmixed
    · exact .inl hmixed
    · exact .inr hkind
  refine (h.casts_object_iff (hstd.withArguments _) hw hy (hz.keeps h.keeps (lt_size_of_get? hs))
    (h.keeps.get? hs)).2 (hkind.imp_right fun hkind => ?_)
  obtain ⟨kind, nullable⟩ := s
  cases kind with
  | object other args =>
    refine ⟨hkind.1, ?_⟩
    rcases hkind.2 with hnil | hnil | hall
    · exact .inl hnil
    · exact .inr (.inl (by rw [hnil]; rfl))
    · exact .inr (.inr (hargs other args rfl hkind.1 hall))
  | native b => cases b <;> exact hkind
  | _ => exact hkind

theorem follows_template {a : String} (hd : t.get? d = some ⟨.template a, n⟩) :
    Follows t t₁ m d := by
  intro u S v hlearns _ _ hS _ hv ⟨z, hz, _⟩
  obtain ⟨hplain, hlt, hcovers⟩ := hS z hz
  exact ⟨z, hz, h.exists_casts_template hd hlearns hv hplain hlt hcovers⟩

/-- An array among the chosen members casts if its elements do. -/
theorem casts_row (hz : t.Stands u z) (hs : t.get? z = some ⟨.array k₁ x, n₁⟩)
    (hkey : k₁.casts k = true)
    (hrows : ∀ x ∈ w.members, ∃ y ∈ v.members, t₁.get? y = some ⟨.array k x, n⟩)
    (hcast : ∃ y ∈ w.members, t₁.Casts x y) : ∃ y ∈ v.members, t₁.Casts z y := by
  obtain ⟨x', hx', hcast⟩ := hcast
  obtain ⟨y, hy, hget⟩ := hrows x' hx'
  exact ⟨y, hy, (hz.plain.keeps h.keeps hz.lt_size).casts_array h.rooted₁ (h.keeps.get? hs) hkey
    hcast hget⟩

theorem follows_array (hd : t.get? d = some ⟨.array k e, n⟩) (he : t.IsPattern e)
    (ih : Follows t t₁ m e) : Follows t t₁ m d := by
  intro u S v hlearns hu hplain hS hkept hv hcast
  obtain ⟨w, hw, ⟨y₀, hy₀, x₀, hget₀⟩, hrows⟩ := hv.exists_arrays h.canonical₁ (h.keeps.get? hd)
  -- a chosen member that casts to every array settles the matter
  by_cases hloose : ∃ z s, S z ∧ t.get? z = some s ∧ IsLoose s.kind
  · obtain ⟨z, s, hz, hs, hloose⟩ := hloose
    exact ⟨z, hz, y₀, hy₀, ((hS z hz).plain.keeps h.keeps (hS z hz).lt_size).casts_of_loose h.rooted₁
      (h.keeps.get? hs) hloose hget₀⟩
  obtain ⟨z, hz, hcast⟩ := hcast
  obtain ⟨s, hs⟩ := exists_get? (hS z hz).lt_size
  obtain ⟨k₁, e₁, n₁, hs, hkey, hcast⟩ := ((hS z hz).plain.casts_array_cases h.rooted hs hd
    hcast).resolve_right fun hl => hloose ⟨z, s, hz, hs, hl⟩
  have hmem : z ∈ u.members :=
    (hS z hz).covers.mem h.canonical hs (isSettled_of_isRow (.inl trivial))
  obtain ⟨elements, widened, helements, himage, hinner⟩ :=
    hlearns.of_array (List.ne_nil_of_mem hmem) hd
  by_cases hopen : HasOpen t u
  · obtain rfl := eq_mixed_of_elements h.canonical h.rooted hu hopen helements himage
    obtain ⟨x₀, hx₀, ty, hty, hopen₀⟩ := hopen
    have hno : ¬ S x₀ := fun hx => hloose ⟨x₀, ty, hx, hty, .inl hopen₀⟩
    cases hkept with
    | argument _ hkeep => exact absurd (hkeep x₀ hx₀ (.here hty hopen₀)) hno
    | declared _ hkeep =>
      have hends : ¬ t.EndsIn TypeKind.IsObject d := fun hends =>
        hno (hkeep ⟨_, hd, trivial⟩ hends x₀ hx₀ ⟨ty, hty, .inr hopen₀⟩)
      have hin : e₁ ∈ (TypeKind.array k₁ e₁).embedded := List.mem_singleton_self e₁
      exact ⟨z, hz, h.casts_row (hS z hz) hs hkey hrows (h.exists_casts_of_mixed he
        (fun hin => hends (.element hd hin)) hinner hw ((hS z hz).plain.part hs hin)
        ((embedded_lt_of_get? hs hin).trans (hS z hz).lt_size) hcast)⟩
  · have hwidened := mem_widened hu hopen helements himage
    have hchosen : ∀ z, t.ChosenElement S k z → t.Stands widened z := by
      rintro e' ⟨z, k₁, n₁, hz, hs, -⟩
      exact (hS z hz).element h.canonical h.rooted hs hwidened
    have hinside : widened.Inside t := by
      intro y hy
      obtain ⟨x, -, hxy⟩ := (hwidened y).1 hy
      exact holds_of_lt hxy.lt_size fun _ => trivial
    obtain ⟨e', ⟨z', k', n', hz', hs', hkey'⟩, hcast'⟩ := ih hinner hinside
      (plain_widened hplain hwidened) hchosen (hkept.element h.canonical hplain hd hwidened) hw
      ⟨e₁, ⟨z, k₁, n₁, hz, hs, hkey⟩, hcast⟩
    exact ⟨z', hz', h.casts_row (hS z' hz') hs' hkey' hrows hcast'⟩

/-- For an argument of a class all its members are chosen anew. -/
theorem follows_object {name : ClassName} {params : List UnionType}
    (hd : t.get? d = some ⟨.object name params, n⟩) (hsingle : ∀ p ∈ params, ∃ e, p = .of e)
    (ih : ∀ e, .of e ∈ params → Follows t t₁ m e) : Follows t t₁ m d := by
  intro u S v hlearns hu hplain hS hkept hv ⟨z, hz, hcast⟩
  obtain ⟨hzplain, hlt, hcovers⟩ := hS z hz
  obtain ⟨s, hs⟩ := exists_get? hlt
  have hrebuilds : (TypeKind.object name params).Rebuilds m.replacement := ⟨id, rfl⟩
  obtain ⟨f, y, hf, hy, rfl⟩ := hv.of_rebuilds (h.keeps.get? hd) hrebuilds
  have hw := h.canonical₁.writable_turned (h.keeps.get? hd) hrebuilds hf
  refine ⟨z, hz, y, mem_of.2 rfl, h.casts_object hd hy hw hzplain hs hcast ?_⟩
  intro other args hkind hsame hall
  obtain ⟨kind, nullable⟩ := s
  obtain rfl : kind = .object other args := hkind
  have hmem := hcovers.mem h.canonical hs (isSettled_object other args)
  have hlearned := hlearns.of_object hd z hmem other args nullable hs hsame
  rw [List.forall₂_map_right_iff]
  rw [List.forall₂_iff_zip] at hall ⊢
  refine ⟨hall.1, fun {a p} hap => ?_⟩
  obtain ⟨ha, hp⟩ := List.of_mem_zip hap
  obtain ⟨e, rfl⟩ := hsingle p hp
  rcases hall.2 hap with hnil | hnil | ⟨x, hx, e', he', hcast⟩
  · exact .inl hnil
  · rw [members_of] at hnil
    cases hnil
  obtain rfl := mem_of.1 he'
  have hpair : (UnionType.of e', a) ∈ params.zip args :=
    List.zip_swap args params ▸ List.mem_map.2 ⟨_, hap, rfl⟩
  have hparta : ∀ x ∈ a.members, x ∈ (TypeKind.object other args).embedded :=
    fun x hx => List.mem_flatMap.2 ⟨a, ha, hx⟩
  have hpartp : e' ∈ (TypeKind.object name params).embedded :=
    List.mem_flatMap.2 ⟨_, hp, mem_of.2 rfl⟩
  have hlta : ∀ x ∈ a.members, x < t.size := fun x hx =>
    (embedded_lt_of_get? hs (hparta x hx)).trans hlt
  have hplaina : ∀ x ∈ a.members, t.Plain x := fun x hx => hzplain.part hs (hparta x hx)
  have hkepta : t.Unhidden a (· ∈ a.members) e' := by
    cases hkept with
    | argument hrows _ =>
      exact .argument (fun x hx => (hrows z hmem).part hs (hparta x hx)) fun x hx _ => hx
    | declared hrows _ => exact .declared (hrows.part hd hpartp) fun _ _ x hx _ => hx
  obtain ⟨x', hx', y', hy', hcast'⟩ := ih e' hp (hlearned _ hpair e' (mem_of.2 rfl))
    (fun x hx => holds_of_lt (hlta x hx) fun _ => trivial) hplaina
    (fun x hx => stands_of_mem h.rooted hx (hplaina x hx) (hlta x hx)) hkepta (hf e' hpartp)
    ⟨x, hx, hcast⟩
  exact .inr (.inr ⟨x', hx', y', mem_flatMap.2 ⟨e', mem_of.2 rfl, hy'⟩, hcast'⟩)

/-- An argument that casts to a pattern casts to what the pattern turns into. -/
theorem follows (hd : t.IsPattern d) : Follows t t₁ m d := by
  induction hd with
  | template hd => exact h.follows_template hd
  | array hd he ih => exact h.follows_array hd he ih
  | object hd hsingle _ ih => exact h.follows_object hd hsingle ih

end Later

end TypeTable

end UnionInference
