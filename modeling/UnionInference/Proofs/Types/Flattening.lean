import UnionInference.Proofs.Types.Arrays
import UnionInference.Proofs.Types.Listing
import UnionInference.Proofs.Types.Substitution

/-!
Flattening array shapes. A shape is covered by arrays: one for each widened type of a field, with the
kind that covers all its keys; a shape without fields is covered by the plain array type. Putting the
covering arrays in the places of the shapes keeps what is said of keys, of null and of elements, and
loses no cast to a type that is neither a shape nor a class.
-/

namespace UnionInference

/-- A loop that makes something of each element and then adds it is the making of all, and then the
adding of all. -/
theorem foldlM_eq_mapM {m : Type → Type} [Monad m] [LawfulMonad m] {α β γ : Type} (f : α → m β)
    (g : γ → β → γ) (as : List α) (c : γ) :
    (as.foldlM (fun c a => do return g c (← f a)) c) = (do return (← as.mapM f).foldl g c) := by
  induction as generalizing c with
  | nil => simp
  | cons a as ih =>
    simp only [List.foldlM_cons, List.mapM_cons, bind_assoc, pure_bind, List.foldl_cons]
    exact bind_congr fun b => ih (g c b)

/-! ### Covering arrays -/

namespace UnionType

/-- The types of the fields; a field of which nothing is known may hold any value. -/
def fieldTypes (fields : ShapeFields) : UnionType :=
  ofList (fields.flatMap fun f => f.2.type.orMixed.members)

theorem mem_fieldTypes {fields : ShapeFields} {x : TypeId} :
    x ∈ (fieldTypes fields).members ↔ ∃ f ∈ fields, x ∈ f.2.type.orMixed.members := by
  rw [fieldTypes, mem_ofList, List.mem_flatMap]

end UnionType

namespace TypeTable

open UnionType

variable {t t₁ : TypeTable} {i j k : TypeId} {ty : Ty} {key : KeyKind} {nullable : Bool}
  {fields : ShapeFields} {u v w : UnionType}

/-- The second type is that of the arrays whose elements are of the first type, widened. -/
def WidenedArray (t : TypeTable) (key : KeyKind) (nullable : Bool) (i j : TypeId) : Prop :=
  ∃ e, t.Widens i e ∧ t.get? j = some ⟨.array key e, nullable⟩

theorem WidenedArray.unique (hc : t.Canonical) (hj : t.WidenedArray key nullable i j)
    (hk : t.WidenedArray key nullable i k) : j = k := by
  obtain ⟨e, he, hj⟩ := hj
  obtain ⟨f, hf, hk⟩ := hk
  obtain rfl := he.unique hc hf
  exact hc.get?_inj hj hk

theorem WidenedArray.keeps (h : t.WidenedArray key nullable i j) (hk : t.Keeps t₁) :
    t₁.WidenedArray key nullable i j := by
  obtain ⟨e, he, hj⟩ := h
  exact ⟨e, he.keeps hk, hk.get? hj⟩

/-- The types that stand for a type when shapes are flattened. -/
inductive Flattens (t : TypeTable) : TypeId → UnionType → Prop
  | bare {i j : TypeId} {n : Bool} (hi : t.get? i = some ⟨.shape [], n⟩)
      (hj : t.get? j = some ⟨.native .array, n⟩) : Flattens t i (.of j)
  | fields {i : TypeId} {fields : ShapeFields} {n : Bool} {key : KeyKind} {w : UnionType}
      (hi : t.get? i = some ⟨.shape fields, n⟩) (hkey : ShapeFields.keyKind fields = some key)
      (hw : Image (t.WidenedArray key n) (fieldTypes fields) w) : Flattens t i w
  | other {i : TypeId} {ty : Ty} (hi : t.get? i = some ty) (hty : ty.isShape = false) :
      Flattens t i (.of i)

theorem Flattens.extends (hc : t₁.Canonical) (h : t.Flattens i w) (hk : t.Keeps t₁) :
    t₁.Flattens i w := by
  cases h with
  | bare hi hj => exact .bare (hk.get? hi) (hk.get? hj)
  | fields hi hkey hw =>
    exact .fields (hk.get? hi) hkey
      (hw.mono (fun _ _ _ hij => hij.keeps hk) fun _ _ _ hj hk => hj.unique hc hk)
  | other hi hty => exact .other (hk.get? hi) hty

/-- The members of the second union are those that stand for the members of the first one. -/
def FlattensAll (t : TypeTable) (u v : UnionType) : Prop :=
  (∀ i ∈ u.members, ∃ w, t.Flattens i w ∧ w.members ⊆ v.members) ∧
    ∀ j ∈ v.members, ∃ i ∈ u.members, ∃ w, t.Flattens i w ∧ j ∈ w.members

theorem FlattensAll.extends (hc : t₁.Canonical) (h : t.FlattensAll u v) (hk : t.Keeps t₁) :
    t₁.FlattensAll u v := by
  refine ⟨fun i hi => ?_, fun j hj => ?_⟩
  · obtain ⟨w, hw, hsub⟩ := h.1 i hi
    exact ⟨w, hw.extends hc hk, hsub⟩
  · obtain ⟨i, hi, w, hw, hj⟩ := h.2 j hj
    exact ⟨i, hi, w, hw.extends hc hk, hj⟩

end TypeTable

/-! ### Runs -/

namespace TypeM

open TypeTable UnionType

variable {t : TypeTable} {i : TypeId} {key : KeyKind} {nullable : Bool} {fields : ShapeFields}

/-- The widened types of a field. -/
def widenField (field : ShapeField) : TypeM UnionType :=
  if field.type.isEmpty then pure mixed else field.type.widenLiterals

/-- The arrays that cover a field. -/
def coverField (key : KeyKind) (nullable : Bool) (field : ShapeField) : TypeM (List TypeId) := do
  let elements ← widenField field
  elements.members.mapM fun element => array key element nullable

/-- What stands for a type when shapes are flattened. -/
def flattenMember (i : TypeId) : TypeM UnionType := do
  let ty ← fetch i
  match ty.kind with
  | .shape fields => flattenShape fields ty.nullable
  | _ => return of i

theorem delivers_widenField (ht : t.Proper) (hr : t.Rooted) {field : ShapeField}
    (hfield : ∀ x ∈ field.type.members, x < t.size) :
    Delivers t (widenField field) fun t elements => Image t.Widens field.type.orMixed elements := by
  rw [widenField]
  split
  · next hempty =>
    have hmixed : t.Widens NativeKind.mixed.id NativeKind.mixed.id :=
      widens_self (hr.get?_native .mixed) id
    rw [orMixed_of_isEmpty hempty]
    exact delivers_pure ht (image_of hmixed fun k hk => hk.unique ht.canonical hmixed)
  · next hsome =>
    obtain ⟨elements, hrun, himage⟩ := image_widenLiterals ht.canonical hr hfield
    rw [orMixed_of_not_isEmpty (Bool.eq_false_iff.2 hsome)]
    exact ⟨elements, t, hrun, .refl t, ht, himage⟩

theorem delivers_coverField (ht : t.Proper) (hr : t.Rooted) {field : ShapeField}
    (hfield : ∀ x ∈ field.type.members, x < t.size) :
    Delivers t (coverField key nullable field) fun t js =>
      Image (t.WidenedArray key nullable) field.type.orMixed (ofList js) := by
  refine (delivers_widenField ht hr hfield).bind fun elements t₁ hext ht₁ himage => ?_
  refine (delivers_mapM (P := fun t e j => t.get? j = some ⟨.array key e, nullable⟩) ?_ ht₁ ?_).imp ?_
  · exact fun t t₁ _ _ hext e j h => hext.keeps.get? h
  · intro t₂ hext₂ ht₂ e he
    obtain ⟨x, -, hx⟩ := (himage.mem e).1 he
    have hlt := hext₂.lt_size hx.lt_size
    exact (delivers_array ht₂ key hlt nullable).imp fun j t₃ hext₃ ht₃ hj =>
      ht₃.canonical.get?_of_finds_array (hext₃.lt_size hlt) hj
  · intro js t₂ hext₂ ht₂ hjs
    refine ⟨fun x hx => ?_, fun j => ?_⟩
    · obtain ⟨e, he⟩ := himage.total x hx
      obtain ⟨j, -, hj⟩ := exists_of_forall₂ hjs ((himage.mem e).2 ⟨x, hx, he⟩)
      exact ⟨j, e, he.keeps hext₂.keeps, hj⟩
    · rw [mem_ofList]
      constructor
      · intro hj
        obtain ⟨e, he, hej⟩ := exists_of_forall₂ hjs.flip hj
        obtain ⟨x, hx, hxe⟩ := (himage.mem e).1 he
        exact ⟨x, hx, e, hxe.keeps hext₂.keeps, hej⟩
      · rintro ⟨x, hx, e', hxe', hej⟩
        obtain ⟨e, hxe⟩ := himage.total x hx
        obtain rfl := (hxe.keeps hext₂.keeps).unique ht₂.canonical hxe'
        obtain ⟨k, hk, hek⟩ := exists_of_forall₂ hjs ((himage.mem e).2 ⟨x, hx, hxe⟩)
        rwa [ht₂.canonical.get?_inj hej hek]

theorem flattenShape_eq (hkey : ShapeFields.keyKind fields = some key) :
    flattenShape fields nullable = (do
      return (← fields.mapM fun f => coverField key nullable f.2).foldl
        (fun result js => js.foldl insert result) empty) := by
  rw [← foldlM_eq_mapM, flattenShape, hkey]
  dsimp only
  congr
  funext result f
  simp only [coverField, widenField, foldlM_eq_mapM, bind_assoc]
  split <;> rfl

theorem mem_foldl_foldl_insert {j : TypeId} (rows : List (List TypeId)) (u : UnionType) :
    j ∈ (rows.foldl (fun result js => js.foldl insert result) u).members ↔
      j ∈ u.members ∨ ∃ js ∈ rows, j ∈ js := by
  induction rows generalizing u with
  | nil => simp
  | cons js rows ih => rw [List.foldl_cons, ih, mem_foldl_insert, List.exists_mem_cons_iff, or_assoc]

theorem delivers_flattenShape (ht : t.Proper) (hr : t.Rooted)
    (hfields : ∀ x ∈ (TypeKind.shape fields).embedded, x < t.size)
    (hkey : ShapeFields.keyKind fields = some key) :
    Delivers t (flattenShape fields nullable) fun t w =>
      Image (t.WidenedArray key nullable) (fieldTypes fields) w := by
  rw [flattenShape_eq hkey]
  refine (delivers_mapM (P := fun t f js =>
    Image (t.WidenedArray key nullable) f.2.type.orMixed (ofList js)) ?_ ht ?_).bind ?_
  · exact fun t t₁ _ ht₁ hext f js h => h.mono (fun _ _ _ hj => hj.keeps hext.keeps)
      fun _ _ _ hj hk => hj.unique ht₁.canonical hk
  · exact fun t₁ hext ht₁ f hf => delivers_coverField ht₁ (hext.rooted hr) fun x hx =>
      hext.lt_size (hfields x (List.mem_flatMap.2 ⟨f, hf, hx⟩))
  · intro rows t₁ _ ht₁ hrows
    refine delivers_pure ht₁ ⟨fun x hx => ?_, fun j => ?_⟩
    · obtain ⟨f, hf, hx⟩ := mem_fieldTypes.1 hx
      obtain ⟨js, -, himage⟩ := exists_of_forall₂ hrows hf
      exact himage.total x hx
    · simp only [mem_foldl_foldl_insert, members_empty, List.not_mem_nil, false_or, mem_fieldTypes]
      constructor
      · rintro ⟨js, hjs, hj⟩
        obtain ⟨f, hf, himage⟩ := exists_of_forall₂ hrows.flip hjs
        obtain ⟨x, hx, hxj⟩ := (himage.mem j).1 (mem_ofList.2 hj)
        exact ⟨x, ⟨f, hf, hx⟩, hxj⟩
      · rintro ⟨x, ⟨f, hf, hx⟩, hxj⟩
        obtain ⟨js, hjs, himage⟩ := exists_of_forall₂ hrows hf
        exact ⟨js, hjs, mem_ofList.1 ((himage.mem j).2 ⟨x, hx, hxj⟩)⟩

theorem delivers_flattenMember (ht : t.Proper) (hr : t.Rooted) (hi : i < t.size) :
    Delivers t (flattenMember i) fun t w => t.Flattens i w := by
  obtain ⟨⟨kind, nullable⟩, hty⟩ := exists_get? hi
  refine delivers_fetch_bind hty ?_
  cases kind with
  | shape fields =>
    cases hkey : ShapeFields.keyKind fields with
    | none =>
      obtain rfl := ShapeFields.keyKind_eq_none_iff.1 hkey
      obtain ⟨j, hrun, hj⟩ := hr.native (k := .array) rfl nullable
      exact ⟨of j, t, bind_eq_ok.2 ⟨j, t, hrun, rfl⟩, .refl t, ht, .bare hty hj⟩
    | some key =>
      refine (delivers_flattenShape ht hr (fun x hx => ?_) hkey).imp fun w t₁ hext _ hw => ?_
      · exact (embedded_lt_of_get? hty hx).trans hi
      · exact .fields (hext.keeps.get? hty) hkey hw
  | _ => exact delivers_pure ht (.other hty rfl)

end TypeM

namespace UnionType

open TypeM TypeTable

variable {t : TypeTable} {u v : UnionType}

/-- Where a function does not ask for a proof of membership, its results are united in one loop. -/
theorem bindMembers_eq (u : UnionType) (f : TypeId → TypeM UnionType) :
    (u.bindMembers fun a _ => f a) =
      u.members.foldlM (fun result a => do return result.union (← f a)) empty := by
  conv_rhs => rw [← List.attach_map_subtype_val u.members, List.foldlM_map]
  rfl

theorem flattenShapes_eq (u : UnionType) : u.flattenShapes = (do
    if !(← query u.hasShape) then return u else u.bindMembers fun a _ => flattenMember a) := by
  have hstep : ∀ (result : UnionType) (a : TypeId), (do
      let ty ← fetch a
      match ty.kind with
      | .shape fields => return result.union (← flattenShape fields ty.nullable)
      | _ => return result.insert a : TypeM UnionType) =
        (do return result.union (← flattenMember a)) := by
    intro result a
    rw [flattenMember, bind_assoc]
    refine bind_congr fun ty => ?_
    have hone : result.insert a = result.union (of a) := by
      rw [union, members_of]
      rfl
    rw [hone]
    cases ty.kind <;> rfl
  rw [flattenShapes, bindMembers_eq]
  refine bind_congr fun shape => ?_
  cases shape with
  | false => rfl
  | true => exact congrArg (u.members.foldlM · empty) (funext fun result => funext (hstep result))

theorem delivers_flattenShapes (ht : t.Proper) (hr : t.Rooted) (hu : u.Inside t) :
    Delivers t u.flattenShapes fun t v => t.FlattensAll u v := by
  have hin : ∀ i ∈ u.members, i < t.size := fun i hi => (hu i hi).lt_size
  rw [flattenShapes_eq]
  obtain ⟨b, hb, hshape⟩ := decides_anyMember hu Ty.isShape
  refine delivers_query_bind hb ?_
  cases b with
  | false =>
    show Delivers t (pure u) _
    have hself : ∀ i ∈ u.members, t.Flattens i (of i) := by
      intro i hi
      obtain ⟨ty, hty⟩ := exists_get? (hin i hi)
      exact .other hty (Bool.eq_false_iff.2 fun h =>
        Bool.false_ne_true (hshape.2 ⟨i, hi, ty, hty, h⟩))
    refine delivers_pure ht ⟨fun i hi => ⟨of i, hself i hi, ?_⟩, fun i hi => ?_⟩
    · simpa [members_of] using hi
    · exact ⟨i, hi, of i, hself i hi, mem_of.2 rfl⟩
  | true =>
    show Delivers t (u.bindMembers fun a _ => flattenMember a) _
    refine (delivers_bindMembers (P := fun t => t.Flattens) ?_ ht fun t₁ hext ht₁ i hi => ?_).imp ?_
    · exact fun t t₁ _ ht₁ hext i w h => h.extends ht₁.canonical hext.keeps
    · exact delivers_flattenMember ht₁ (hext.rooted hr) (hext.lt_size (hin i hi))
    · rintro v t₁ - ht₁ ⟨ws, hws, rfl⟩
      refine ⟨fun i hi => ?_, fun j hj => ?_⟩
      · obtain ⟨w, hw, hiw⟩ := exists_of_forall₂ hws hi
        exact ⟨w, hiw, fun j hj => (mem_foldl_union ws empty).2 (.inr ⟨w, hw, hj⟩)⟩
      · obtain ⟨w, hw, hj⟩ := ((mem_foldl_union ws empty).1 hj).resolve_left (by simp)
        obtain ⟨i, hi, hiw⟩ := exists_of_forall₂ hws.flip hw
        exact ⟨i, hi, w, hiw, hj⟩

end UnionType

/-! ### What is kept -/

namespace TypeTable

open UnionType

variable {t : TypeTable} {i j k z : TypeId} {ty d : Ty} {u v w : UnionType}

/-- What stands for a type says the same of keys and of null. -/
theorem Flattens.agrees (h : t.Flattens i w) : ∃ ty, t.get? i = some ty ∧ w.members ≠ [] ∧
    ∀ j ∈ w.members, ∃ e, t.get? j = some e ∧ e.isShape = false ∧
      keyKindOf e = keyKindOf ty ∧ e.admitsNull = ty.admitsNull := by
  cases h with
  | bare hi hj =>
    refine ⟨_, hi, by simp [members_of], fun k hk => ?_⟩
    rw [mem_of.1 hk]
    exact ⟨_, hj, rfl, rfl, rfl⟩
  | fields hi hkey hw =>
    refine ⟨_, hi, hw.members_ne_nil ?_, fun k hk => ?_⟩
    · obtain ⟨f, hf⟩ := List.exists_mem_of_ne_nil _ fun hnil =>
        Option.some_ne_none _ (hkey.symm.trans (ShapeFields.keyKind_eq_none_iff.2 hnil))
      obtain ⟨x, hx⟩ := List.exists_mem_of_ne_nil _ f.2.type.orMixed_members_ne_nil
      exact List.ne_nil_of_mem (mem_fieldTypes.2 ⟨f, hf, hx⟩)
    · obtain ⟨x, -, e, -, hk⟩ := (hw.mem k).1 hk
      refine ⟨_, hk, rfl, ?_, rfl⟩
      simp only [keyKindOf, hkey, Option.getD_some]
  | other hi hty =>
    refine ⟨_, hi, by simp [members_of], fun k hk => ?_⟩
    rw [mem_of.1 hk]
    exact ⟨_, hi, hty, rfl, rfl⟩

theorem FlattensAll.lt_size (h : t.FlattensAll u v) : ∀ j ∈ v.members, j < t.size := by
  intro j hj
  obtain ⟨i, -, w, hw, hjw⟩ := h.2 j hj
  obtain ⟨_, -, -, hmem⟩ := hw.agrees
  obtain ⟨e, he, -⟩ := hmem j hjw
  exact lt_size_of_get? he

theorem FlattensAll.inside (h : t.FlattensAll u v) : v.Inside t :=
  fun j hj => holds_of_lt (h.lt_size j hj) fun _ => trivial

/-- What can be told from keys and null is said of both unions or of none. -/
theorem FlattensAll.exists_iff (h : t.FlattensAll u v) (P : Option KeyKind → Bool → Prop) :
    (∃ j ∈ v.members, ∃ e, t.get? j = some e ∧ P (keyKindOf e) e.admitsNull) ↔
      ∃ i ∈ u.members, ∃ ty, t.get? i = some ty ∧ P (keyKindOf ty) ty.admitsNull := by
  constructor
  · rintro ⟨j, hj, e, he, hP⟩
    obtain ⟨i, hi, w, hw, hjw⟩ := h.2 j hj
    obtain ⟨ty, hty, -, hmem⟩ := hw.agrees
    obtain ⟨e', he', -, hkey, hnull⟩ := hmem j hjw
    obtain rfl : e = e' := Option.some.inj (he.symm.trans he')
    exact ⟨i, hi, ty, hty, hkey ▸ hnull ▸ hP⟩
  · rintro ⟨i, hi, ty, hty, hP⟩
    obtain ⟨w, hw, hsub⟩ := h.1 i hi
    obtain ⟨ty', hty', hne, hmem⟩ := hw.agrees
    obtain rfl : ty = ty' := Option.some.inj (hty.symm.trans hty')
    obtain ⟨j, hj⟩ := List.exists_mem_of_ne_nil _ hne
    obtain ⟨e, he, -, hkey, hnull⟩ := hmem j hj
    refine ⟨j, hsub hj, e, he, ?_⟩
    rwa [hkey, hnull]

theorem FlattensAll.hasShape_eq (h : t.FlattensAll u v) : v.hasShape t = .ok false := by
  refine (decides_anyMember h.inside Ty.isShape).not ?_
  rintro ⟨j, hj, e, he, hshape⟩
  obtain ⟨i, -, w, hw, hjw⟩ := h.2 j hj
  obtain ⟨_, -, -, hmem⟩ := hw.agrees
  obtain ⟨e', he', hno, -⟩ := hmem j hjw
  obtain rfl : e = e' := Option.some.inj (he.symm.trans he')
  exact Bool.false_ne_true (hno.symm.trans hshape)

theorem FlattensAll.keyKind_eq (hu : u.Inside t) (h : t.FlattensAll u v) :
    v.keyKind t = u.keyKind t := by
  obtain ⟨ks, hks, hmem⟩ := UnionType.keyKind_eq hu
  obtain ⟨js, hjs, hmem'⟩ := UnionType.keyKind_eq h.inside
  rw [hks, hjs, KeyKind.mergeAll_congr fun k => ?_]
  rw [hmem, hmem']
  exact h.exists_iff fun key _ => key = some k

theorem FlattensAll.admitsNull_eq (hu : u.Inside t) (h : t.FlattensAll u v) :
    v.admitsNull t = u.admitsNull t := by
  obtain ⟨b, hb, hP⟩ := decides_anyMember hu Ty.admitsNull
  obtain ⟨c, hc, hQ⟩ := decides_anyMember h.inside Ty.admitsNull
  rw [UnionType.admitsNull, UnionType.admitsNull, hb, hc, Bool.eq_iff_iff.2 (hQ.trans ?_)]
  exact (h.exists_iff fun _ null => null = true).trans hP.symm

/-! ### Elements -/

/-- Every shape has fields, and something is known of each. -/
def ShapesKnown (t : TypeTable) (u : UnionType) : Prop :=
  ∀ i ∈ u.members, ∀ fields nullable, t.get? i = some ⟨.shape fields, nullable⟩ →
    fields ≠ [] ∧ ∀ f ∈ fields, f.2.type.members ≠ []

/-- What stands for a type is as open as the type, and holds the same elements up to widening. -/
theorem Flattens.elements (hc : t.Canonical) (h : t.Flattens i w) (hi : t.get? i = some ty)
    (hknown : ∀ fields nullable, ty = ⟨.shape fields, nullable⟩ →
      fields ≠ [] ∧ ∀ f ∈ fields, f.2.type.members ≠ []) :
    (HasOpen t w ↔ ty.kind = .native .array ∨ ty.kind = .native .mixed) ∧
      ∀ z, (∃ e, IsElement t w e ∧ t.Widens e z) ↔ ∃ e ∈ elementsOf ty.kind, t.Widens e z := by
  cases h with
  | bare hi' hj =>
    cases hi.symm.trans hi'
    exact absurd rfl (hknown _ _ rfl).1
  | @fields fields nullable key _ hi' hkey hw =>
    cases hi.symm.trans hi'
    have harray : ∀ j ∈ w.members, ∃ x ∈ (fieldTypes fields).members, ∃ e, t.Widens x e ∧
        t.get? j = some ⟨.array key e, nullable⟩ := fun j hj => (hw.mem j).1 hj
    have hparts : ∀ x, x ∈ (fieldTypes fields).members ↔ x ∈ elementsOf (.shape fields) := by
      intro x
      rw [mem_fieldTypes, elementsOf, List.mem_flatMap]
      refine exists_congr fun f => and_congr_right fun hf => ?_
      rw [orMixed_of_members_ne_nil ((hknown _ _ rfl).2 f hf)]
    refine ⟨⟨?_, by simp⟩, fun z => ⟨?_, ?_⟩⟩
    · rintro ⟨j, hj, e, he, hopen⟩
      obtain ⟨x, -, e', -, hj'⟩ := harray j hj
      rw [he] at hj'
      cases hj'
      simp at hopen
    · rintro ⟨e, ⟨j, hj, ty', hty', he⟩, hez⟩
      obtain ⟨x, hx, e', hxe, hj⟩ := harray j hj
      rw [hty'] at hj
      cases hj
      obtain rfl : e = e' := List.mem_singleton.1 he
      obtain rfl := hxe.widens_self.unique hc hez
      exact ⟨x, (hparts x).1 hx, hxe⟩
    · rintro ⟨x, hx, hxz⟩
      obtain ⟨j, e, hxe, hj⟩ := hw.total x ((hparts x).2 hx)
      obtain rfl := hxe.unique hc hxz
      exact ⟨e, ⟨j, (hw.mem j).2 ⟨x, (hparts x).2 hx, e, hxe, hj⟩, _, hj, List.mem_singleton_self e⟩,
        hxe.widens_self⟩
  | other hi' _ =>
    obtain rfl : ty = _ := Option.some.inj (hi.symm.trans hi')
    simp [HasOpen, IsElement, hi, mem_of]

/-- Widening the elements of both unions gives the same types. -/
theorem FlattensAll.elements (hc : t.Canonical) (hr : t.Rooted) (hu : u.Inside t)
    (h : t.FlattensAll u v) (hknown : t.ShapesKnown u) :
    ∃ elements elements' widened widened', u.elementTypes t = .ok elements ∧
      elements.widenLiterals t = .ok (widened, t) ∧ v.elementTypes t = .ok elements' ∧
      elements'.widenLiterals t = .ok (widened', t) ∧ widened'.SameMembers widened := by
  obtain ⟨elements, hrun, hopen, hmem⟩ := elementTypes_eq hu
  obtain ⟨elements', hrun', hopen', hmem'⟩ := elementTypes_eq h.inside
  have hmember : ∀ i ∈ u.members, ∀ w, t.Flattens i w → ∃ ty, t.get? i = some ty ∧
      (HasOpen t w ↔ ty.kind = .native .array ∨ ty.kind = .native .mixed) ∧
      ∀ z, (∃ e, IsElement t w e ∧ t.Widens e z) ↔ ∃ e ∈ elementsOf ty.kind, t.Widens e z := by
    intro i hi w hw
    obtain ⟨ty, hty⟩ := exists_get? (hu i hi).lt_size
    refine ⟨ty, hty, hw.elements hc hty ?_⟩
    rintro fields nullable rfl
    exact hknown i hi fields nullable hty
  have hboth : HasOpen t v ↔ HasOpen t u := by
    constructor
    · rintro ⟨j, hj, e, he, hopen⟩
      obtain ⟨i, hi, w, hw, hjw⟩ := h.2 j hj
      obtain ⟨ty, hty, hiff, -⟩ := hmember i hi w hw
      exact ⟨i, hi, ty, hty, hiff.1 ⟨j, hjw, e, he, hopen⟩⟩
    · rintro ⟨i, hi, ty, hty, hopen⟩
      obtain ⟨w, hw, hsub⟩ := h.1 i hi
      obtain ⟨ty', hty', hiff, -⟩ := hmember i hi w hw
      obtain rfl : ty = ty' := Option.some.inj (hty.symm.trans hty')
      obtain ⟨j, hj, hrest⟩ := hiff.2 hopen
      exact ⟨j, hsub hj, hrest⟩
  have hsame : ∀ z, (∃ e ∈ elements'.members, t.Widens e z) ↔ ∃ e ∈ elements.members, t.Widens e z := by
    intro z
    by_cases hopenu : HasOpen t u
    · rw [hopen hopenu, hopen' (hboth.2 hopenu)]
    simp only [hmem hopenu, hmem' (mt hboth.1 hopenu)]
    constructor
    · rintro ⟨e, ⟨j, hj, e', he', he⟩, hez⟩
      obtain ⟨i, hi, w, hw, hjw⟩ := h.2 j hj
      obtain ⟨ty, hty, -, hiff⟩ := hmember i hi w hw
      obtain ⟨x, hx, hxz⟩ := (hiff z).1 ⟨e, ⟨j, hjw, e', he', he⟩, hez⟩
      exact ⟨x, ⟨i, hi, ty, hty, hx⟩, hxz⟩
    · rintro ⟨x, ⟨i, hi, ty, hty, hx⟩, hxz⟩
      obtain ⟨w, hw, hsub⟩ := h.1 i hi
      obtain ⟨ty', hty', -, hiff⟩ := hmember i hi w hw
      obtain rfl : ty = ty' := Option.some.inj (hty.symm.trans hty')
      obtain ⟨e, ⟨j, hj, hrest⟩, hez⟩ := (hiff z).2 ⟨x, hx, hxz⟩
      exact ⟨e, ⟨j, hsub hj, hrest⟩, hez⟩
  obtain ⟨widened, hwiden, himage⟩ :=
    image_widenLiterals hc hr (lt_size_of_elementTypes hr hu hrun)
  obtain ⟨widened', hwiden', himage'⟩ :=
    image_widenLiterals hc hr (lt_size_of_elementTypes hr h.inside hrun')
  refine ⟨elements, elements', widened, widened', hrun, hwiden, hrun', hwiden', fun z => ?_⟩
  rw [himage.mem, himage'.mem, hsame]

end TypeTable

/-! ### Casts -/

namespace TypeKind

variable {R : TypeId → TypeId → Prop} {kind : TypeKind} {fields : ShapeFields} {key : KeyKind}
  {e : TypeId}

/-- The plain array type casts to what a shape without fields casts to, but for shapes and classes. -/
theorem Casts.bareArray (h : (TypeKind.shape []).Casts R kind) (hshape : ∀ fs, kind ≠ .shape fs)
    (hclass : ∀ name args, kind ≠ .object name args) : (TypeKind.native .array).Casts R kind := by
  cases kind with
  | native b => cases b <;> first | rfl | cases h
  | shape fs => exact absurd rfl (hshape fs)
  | object name args => exact absurd rfl (hclass name args)
  | array | template => rfl
  | intLiteral | stringLiteral | callable => cases h

/-- Arrays with the kind of all keys cast to what a shape casts to, but for shapes, if their elements
cast as the fields do. -/
theorem Casts.coveringArray (h : (TypeKind.shape fields).Casts R kind)
    (hshape : ∀ fs, kind ≠ .shape fs) (hkey : ShapeFields.keyKind fields = some key)
    (he : ∀ key' b, kind = .array key' b → R e b) : (TypeKind.array key e).Casts R kind := by
  cases kind with
  | array key' b =>
    refine ⟨KeyKind.casts_of_mergeAll hkey fun k hk => ?_, he key' b rfl⟩
    obtain ⟨f, hf, rfl⟩ := List.mem_map.1 hk
    exact (h f hf).1
  | shape fs => exact absurd rfl (hshape fs)
  | native | object | template => exact h
  | intLiteral | stringLiteral | callable => cases h

end TypeKind

namespace TypeTable

open UnionType

variable {t : TypeTable} {i j k : TypeId} {s s' d : Ty} {u v w : UnionType}

/-- What a shape casts to, other types that admit null like it do if their kind does. -/
theorem Permits.of_shape (h : t.Permits s d) (hs : s.isShape = true)
    (hnull : s'.admitsNull = s.admitsNull)
    (hkind : s.kind.Casts t.Casts d.kind → s'.kind.Casts t.Casts d.kind) : t.Permits s' d := by
  obtain ⟨kind, nullable⟩ := s
  cases kind with
  | shape fields =>
    rcases h with hmixed | hmixed | ⟨hn, hcasts⟩
    · exact .inl hmixed
    · cases hmixed
    · exact .inr (.inr ⟨hnull ▸ hn, .inr (hkind (hcasts.resolve_left Bool.false_ne_true))⟩)
  | _ => cases hs

/-- If a shape casts to an array, some type of each field casts to the element. -/
theorem Rooted.exists_casts_field (ht : t.Rooted) (hk : t.get? k = some d) {fields : ShapeFields}
    {nullable : Bool} (h : t.Permits ⟨.shape fields, nullable⟩ d) {f : ShapeKey × ShapeField}
    (hf : f ∈ fields) : ∃ x ∈ f.2.type.orMixed.members, ∀ key b, d.kind = .array key b →
      t.Casts x b := by
  obtain ⟨kind, nullable'⟩ := d
  cases kind with
  | array key b =>
    have hlt : b < t.size :=
      (embedded_lt_of_get? hk (List.mem_singleton_self b)).trans (lt_size_of_get? hk)
    rcases h with h | h | ⟨-, h | h⟩
    · cases h
    · cases h
    · cases h
    rcases (h f hf).2 with hnil | hnil | ⟨x, hx, y, hy, hxy⟩
    · refine ⟨NativeKind.mixed.id, ?_, ?_⟩
      · rw [orMixed_of_isEmpty (isEmpty_iff.2 hnil)]
        decide
      · rintro _ _ ⟨⟩
        exact ht.casts_of_mixed (ht.native_lt_size .mixed) hlt (.inl rfl)
    · rw [members_of] at hnil
      cases hnil
    · refine ⟨x, ?_, ?_⟩
      · rwa [orMixed_of_members_ne_nil (List.ne_nil_of_mem hx)]
      · rintro _ _ ⟨⟩
        exact mem_of.1 hy ▸ hxy
  | _ =>
    obtain ⟨x, hx⟩ := List.exists_mem_of_ne_nil _ f.2.type.orMixed_members_ne_nil
    exact ⟨x, hx, nofun⟩

/-- What a type casts to that is neither a shape nor a class, something that stands for it casts to. -/
theorem Flattens.exists_casts (ht : t.Rooted) (h : t.Flattens i w) (hk : t.get? k = some d)
    (hshape : ∀ fs, d.kind ≠ .shape fs) (hclass : ∀ name args, d.kind ≠ .object name args)
    (hcast : t.Casts i k) : ∃ j ∈ w.members, t.Casts j k := by
  cases h with
  | other hi hty => exact ⟨i, mem_of.2 rfl, hcast⟩
  | @bare j nullable hi hj =>
    refine ⟨j, mem_of.2 rfl, (ht.casts_iff hj hk).2 (.inr ?_)⟩
    rcases (ht.casts_iff hi hk).1 hcast with rfl | hpermits
    · cases hi.symm.trans hk
      exact absurd rfl (hshape [])
    · exact hpermits.of_shape rfl rfl fun hkind => hkind.bareArray hshape hclass
  | @fields fields nullable key _ hi hkey hw =>
    rcases (ht.casts_iff hi hk).1 hcast with rfl | hpermits
    · cases hi.symm.trans hk
      exact absurd rfl (hshape fields)
    obtain ⟨f, hf⟩ := List.exists_mem_of_ne_nil _ fun hnil =>
      Option.some_ne_none _ (hkey.symm.trans (ShapeFields.keyKind_eq_none_iff.2 hnil))
    obtain ⟨x, hx, hcasts⟩ := ht.exists_casts_field hk hpermits hf
    obtain ⟨j, e, hxe, hj⟩ := hw.total x (mem_fieldTypes.2 ⟨f, hf, hx⟩)
    refine ⟨j, (hw.mem j).2 ⟨x, mem_fieldTypes.2 ⟨f, hf, hx⟩, e, hxe, hj⟩, ?_⟩
    refine (ht.casts_iff hj hk).2 (.inr (hpermits.of_shape rfl rfl fun hkind => ?_))
    refine hkind.coveringArray hshape hkey fun key' b hb => ?_
    have hlt : b < t.size :=
      (embedded_lt_of_get? hk (by simp [hb, TypeKind.embedded])).trans (lt_size_of_get? hk)
    exact ht.casts_widens_left hxe hlt (hcasts key' b hb)

/-- A union casts to no less when its shapes are flattened, but for shapes and classes. -/
theorem FlattensAll.canCast (ht : t.Rooted) (hu : u.Inside t) (h : t.FlattensAll u v)
    {target : UnionType} (htarget : target.Inside t)
    (hkinds : ∀ k ∈ target.members, ∀ d, t.get? k = some d →
      (∀ fs, d.kind ≠ .shape fs) ∧ ∀ name args, d.kind ≠ .object name args)
    (hcast : u.canCast target t = .ok true) : v.canCast target t = .ok true := by
  have hin : ∀ {u : UnionType}, u.Inside t → ∀ i ∈ u.members, i < t.size :=
    fun hu i hi => (hu i hi).lt_size
  refine (decides_canCast ht h.lt_size (hin htarget)).iff.2 ?_
  rcases (decides_canCast ht (hin hu) (hin htarget)).iff.1 hcast with hnil | hnil | ⟨i, hi, k, hk, hik⟩
  · refine .inl (List.eq_nil_iff_forall_not_mem.2 fun j hj => ?_)
    obtain ⟨i, hi, -⟩ := h.2 j hj
    rw [hnil] at hi
    cases hi
  · exact .inr (.inl hnil)
  · obtain ⟨d, hd⟩ := exists_get? (hin htarget k hk)
    obtain ⟨w, hw, hsub⟩ := h.1 i hi
    obtain ⟨j, hj, hjk⟩ := hw.exists_casts ht hd (hkinds k hk d hd).1 (hkinds k hk d hd).2 hik
    exact .inr (.inr ⟨j, hsub hj, k, hk, hjk⟩)

theorem Canonical.inMode (hc : t.Canonical) (mode : Bool) : (t.inMode mode).Canonical :=
  ⟨hc.keyed, hc.keyFound, hc.identityFound, hc.onlyFound, hc.normal, hc.named, hc.natives⟩

theorem keeps_inMode (t : TypeTable) (mode : Bool) : t.Keeps (t.inMode mode) := fun _ _ h => h

end TypeTable

/-! ### Flattening -/

namespace UnionType

open TypeM TypeTable

variable {t : TypeTable} {u v : UnionType}

/-- What is kept when the shapes of the first union are flattened, which gives the second one. -/
structure Flattened (t : TypeTable) (u v : UnionType) : Prop where
  hasShape : v.hasShape t = .ok false
  keyKind : ∃ key, u.keyKind t = .ok key ∧ v.keyKind t = .ok key
  admitsNull : ∃ null, u.admitsNull t = .ok null ∧ v.admitsNull t = .ok null
  elements : t.ShapesKnown u →
    ∃ elements elements' widened widened', u.elementTypes t = .ok elements ∧
      elements.widenLiterals t = .ok (widened, t) ∧ v.elementTypes t = .ok elements' ∧
      elements'.widenLiterals t = .ok (widened', t) ∧ widened'.SameMembers widened
  canCast : ∀ (mode : Bool) (target : UnionType), target.Inside t →
    (∀ k ∈ target.members, ∀ d, t.get? k = some d →
      (∀ fields, d.kind ≠ .shape fields) ∧ ∀ name args, d.kind ≠ .object name args) →
    u.canCast target (t.inMode mode) = .ok true → v.canCast target (t.inMode mode) = .ok true

/-- Flattening the shapes of a union ends, and what it gives approximates the union however the table
grows afterwards. -/
theorem flattenShapes_sound (h : Reachable TypeKind.Proper t) (hu : u.Inside t) :
    Returns t u.flattenShapes fun t v => Flattened t u v := by
  refine (delivers_flattenShapes h.proper h.rooted hu).returns
    fun v t₁ t₂ _ hv hext ht₂ hext₂ => ?_
  have hv : t₂.FlattensAll u v := hv.extends ht₂.canonical hext.keeps
  have hu : u.Inside t₂ := hu.keeps hext₂.keeps
  have hr := hext₂.rooted h.rooted
  obtain ⟨key, hkey⟩ := exists_keyKind hu
  obtain ⟨null, hnull⟩ := exists_anyMember hu Ty.admitsNull
  refine ⟨hv.hasShape_eq, ⟨key, hkey, (hv.keyKind_eq hu).trans hkey⟩,
    ⟨null, hnull, (hv.admitsNull_eq hu).trans hnull⟩, hv.elements ht₂.canonical hr hu, ?_⟩
  intro mode target htarget hkinds
  have hmode := t₂.keeps_inMode mode
  exact (hv.extends (ht₂.canonical.inMode mode) hmode).canCast (hr.inMode mode) (hu.keeps hmode)
    (htarget.keeps hmode) hkinds

end UnionType

/-! ### A shape with one field -/

namespace TypeTable

variable {t : TypeTable}

/-- A shape that holds an integer under the key zero. -/
def oneField : ShapeFields := [(.int 0, { type := .native .int })]

theorem Rooted.key_native (ht : t.Rooted) (k : NativeKind) : t.key k.id = k.name := by
  rw [key_eq (ht.entries k.id (k, false) (by cases k <;> rfl))]
  exact String.empty_append

theorem Rooted.writes_oneField (ht : t.Rooted) :
    t.Writes (.shape oneField) false ⟨.shape oneField, false⟩ "array\x7b0:int\x7d"
      "array\x7b0:int\x7d" := by
  have hunion : t.renderUnion (.native .int) = "int" := by
    rw [renderUnion, UnionType.members_native, List.map_singleton, ht.key_native, sortTexts,
      List.mergeSort_singleton, Text.join, String.intercalate_singleton]
    rfl
  have hrender : t.render ⟨.shape oneField, false⟩ = "array\x7b0:int\x7d" := by
    rw [render, renderKind, oneField, List.map_singleton, Text.join, String.intercalate_singleton,
      renderField, hunion]
    decide
  refine ⟨fun e he => ?_, rfl, hrender, hrender⟩
  rw [TypeKind.embedded, oneField, List.flatMap_singleton, UnionType.members_native,
    List.mem_singleton] at he
  exact he ▸ ht.native_lt_size .int

theorem Rooted.writes_ints (ht : t.Rooted) :
    t.Writes (.array .int NativeKind.int.id) false ⟨.array .int NativeKind.int.id, false⟩
      "array<int,int>" "array<int,int>" := by
  have hrender : t.render ⟨.array .int NativeKind.int.id, false⟩ = "array<int,int>" := by
    rw [render, renderKind, renderArray, ht.key_native]
    decide
  refine ⟨fun e he => ?_, rfl, hrender, hrender⟩
  rw [List.mem_singleton.1 he]
  exact ht.native_lt_size .int

end TypeTable

namespace UnionType

open TypeM TypeTable

/-- A shape with one field, of which something is known. -/
theorem flattenShapes_sound_oneField : ∃ t s, Reachable TypeKind.Proper t ∧
    t.get? s = some ⟨.shape oneField, false⟩ ∧ t.ShapesKnown (of s) ∧
    Returns t (of s).flattenShapes fun t v => Flattened t (of s) v := by
  have l₀ := lists_initial false
  obtain ⟨t, hrun, l, -⟩ :=
    l₀.intern_new (rooted_initial false).writes_oneField (by decide) rfl
  have hproper : (TypeKind.shape oneField).Proper := by
    refine ⟨?_, by decide⟩
    simp [TypeKind.WellNamed, oneField, Text.isInteger, Text.minInteger, Text.maxInteger]
  have h : Reachable TypeKind.Proper t := by
    refine ⟨false, .step (r := .intern (.shape oneField) false) .refl ?_ hrun⟩
    rintro _ ⟨⟩
    exact hproper
  have hs := get?_eq (l.entry (i := 31) rfl)
  refine ⟨t, 31, h, hs, fun i hi fields nullable hget => ?_,
    flattenShapes_sound h (inside_of_get? hs)⟩
  rw [mem_of.1 hi, hs] at hget
  cases hget
  decide

/-- Without a condition on names flattening may lose what is said of keys: arrays of integers are found
to be a placeholder with their name, which says nothing of keys. -/
theorem not_flattened_of_odd_name : ∃ t s v, Reachable (fun _ => True) t ∧
    t.get? s = some ⟨.shape oneField, false⟩ ∧ (of s).flattenShapes t = .ok (v, t) ∧
    (of s).keyKind t = .ok (some .int) ∧ v.keyKind t = .ok none ∧ ¬ Flattened t (of s) v := by
  have l₀ := lists_initial false
  obtain ⟨t₁, h₁, l₁, -⟩ := l₀.intern_new (writes_template _ "array<int,int>") (by decide) rfl
  have hreach₁ : Reachable (fun _ => True) t₁ :=
    ⟨false, .step (r := .intern (.template "array<int,int>") false) .refl (fun _ _ => trivial) h₁⟩
  obtain ⟨t, h₂, l, -⟩ := l₁.intern_new hreach₁.rooted.writes_oneField (by decide) rfl
  have hreach : Reachable (fun _ => True) t := by
    obtain ⟨mode, hsteps⟩ := hreach₁
    exact ⟨mode, .step (r := .intern (.shape oneField) false) hsteps (fun _ _ => trivial) h₂⟩
  have hs := get?_eq (l.entry (i := 32) rfl)
  have hodd := get?_eq (l.entry (i := 31) rfl)
  have hin := fun {i : TypeId} {ty : Ty} (h : t.get? i = some ty) => inside_of_get? h
  have hshape : (of 32).hasShape t = .ok true :=
    (decides_anyMember (hin hs) Ty.isShape).iff.2 ⟨32, mem_of.2 rfl, _, hs, rfl⟩
  have hwiden : (native .int).widenLiterals t = .ok (native .int, t) :=
    widenLiterals_of hreach.rooted (hreach.rooted.get?_native .int) id
  have hfound : TypeM.array .int NativeKind.int.id false t = .ok (31, t) :=
    l.intern_found hreach.rooted.writes_ints (by decide) rfl
  have hcover : coverField .int false { type := native .int } t = .ok ([31], t) :=
    bind_eq_ok.2 ⟨_, t, hwiden, bind_eq_ok.2 ⟨31, t, hfound, rfl⟩⟩
  have hflatten : flattenShape oneField false t = .ok (of 31, t) := by
    have hkey : ShapeFields.keyKind oneField = some .int := rfl
    rw [flattenShape_eq hkey]
    exact bind_eq_ok.2 ⟨[[31]], t, bind_eq_ok.2 ⟨[31], t, hcover, rfl⟩, rfl⟩
  have hmember : flattenMember 32 t = .ok (of 31, t) := by
    obtain ⟨e, he, hty⟩ := Option.map_eq_some_iff.1 hs
    exact bind_eq_ok.2 ⟨_, t, fetch_eq_ok.2 ⟨rfl, e, he, hty⟩, hflatten⟩
  have hrun : (of 32).flattenShapes t = .ok (of 31, t) := by
    rw [flattenShapes_eq]
    refine bind_eq_ok.2 ⟨true, t, ?_, bind_eq_ok.2 ⟨_, _, bind_eq_ok.2 ⟨_, _, hmember, rfl⟩, rfl⟩⟩
    rw [query, hshape]
    rfl
  have hkeys : (of 32).keyKind t = .ok (some .int) := keyKind_of hs
  have hkeys' : (of 31).keyKind t = .ok none := keyKind_of hodd
  refine ⟨t, 32, of 31, hreach, hs, hrun, hkeys, hkeys', fun hflat => ?_⟩
  obtain ⟨key, hkey, hkey'⟩ := hflat.keyKind
  rw [hkeys] at hkey
  rw [hkeys'] at hkey'
  cases hkey
  cases hkey'

end UnionType

end UnionInference
