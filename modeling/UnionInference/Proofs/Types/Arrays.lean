import UnionInference.Proofs.Types.Proper
import UnionInference.Proofs.Types.Widening

/-!
What is asked of the arrays in a union. The kind that covers the keys of several arrays depends on the
set of their kinds alone; the elements of a union are those of its arrays and shapes, unless one of its
members says nothing about elements. All questions are answered by what the members are. Widening the
literals of a union is putting the widened type in the place of each member.
-/

namespace UnionInference

/-! ### Kinds of keys -/

namespace KeyKind

variable {k target : KeyKind} {ks ks' : List KeyKind}

/-- The kind is the only one of the list, or the list has several and the kind is that of all keys. -/
def Covers (k : KeyKind) (ks : List KeyKind) : Prop :=
  (∀ j ∈ ks, j = k) ∨ k = .mixed ∧ ∃ i ∈ ks, ∃ j ∈ ks, i ≠ j

theorem foldl_merge (k : KeyKind) (ks : List KeyKind) :
    ks.foldl merge k = if ∀ j ∈ ks, j = k then k else .mixed := by
  induction ks generalizing k with
  | nil => simp
  | cons j ks ih =>
    rw [List.foldl_cons, ih]
    by_cases hj : k = j
    · simp [merge, hj]
    · simp [merge, hj, Ne.symm hj]

theorem mergeAll_eq_some_iff : mergeAll ks = some k ↔ ks ≠ [] ∧ k.Covers ks := by
  cases ks with
  | nil => simp [mergeAll]
  | cons j ks =>
    rw [mergeAll, foldl_merge, Option.some.injEq]
    simp only [ne_eq, reduceCtorEq, not_false_eq_true, true_and, Covers, List.forall_mem_cons]
    split
    · next hall =>
      constructor
      · rintro rfl
        exact .inl ⟨rfl, hall⟩
      · rintro (h | ⟨-, x, hx, y, hy, hxy⟩)
        · exact h.1
        · have hone : ∀ z ∈ j :: ks, z = j := List.forall_mem_cons.2 ⟨rfl, hall⟩
          exact absurd ((hone x hx).trans (hone y hy).symm) hxy
    · next hsome =>
      simp only [not_forall, exists_prop] at hsome
      obtain ⟨x, hx, hxj⟩ := hsome
      constructor
      · rintro rfl
        exact .inr ⟨rfl, x, List.mem_cons_of_mem _ hx, j, List.mem_cons_self, hxj⟩
      · rintro (h | ⟨rfl, -⟩)
        · exact absurd ((h.2 x hx).trans h.1.symm) hxj
        · rfl

theorem mergeAll_eq_none_iff : mergeAll ks = none ↔ ks = [] := by
  cases ks <;> simp [mergeAll]

/-- Order and repetition make no difference to the kind that covers all. -/
theorem mergeAll_congr (h : ∀ k, k ∈ ks ↔ k ∈ ks') : mergeAll ks = mergeAll ks' := by
  refine Option.ext fun k => ?_
  have hnil : ks = [] ↔ ks' = [] := by
    simp only [List.eq_nil_iff_forall_not_mem, h]
  rw [mergeAll_eq_some_iff, mergeAll_eq_some_iff, ne_eq, hnil]
  simp only [Covers, h]

theorem casts_of_mergeAll (h : mergeAll ks = some k) (hks : ∀ j ∈ ks, j.casts target = true) :
    k.casts target = true := by
  obtain ⟨hne, hall | ⟨rfl, -⟩⟩ := mergeAll_eq_some_iff.1 h
  · obtain ⟨j, hj⟩ := List.exists_mem_of_ne_nil _ hne
    exact hall j hj ▸ hks j hj
  · simp [casts]

end KeyKind

theorem ShapeFields.keyKind_eq_none_iff {fields : ShapeFields} :
    ShapeFields.keyKind fields = none ↔ fields = [] := by
  rw [keyKind, KeyKind.mergeAll_eq_none_iff, List.map_eq_nil_iff]

/-! ### Widened types -/

namespace TypeTable

variable {t t₁ : TypeTable} {i j k : TypeId} {ty : Ty}

theorem Extends.rooted (ht : t.Rooted) (h : t.Extends t₁) : t₁.Rooted :=
  ⟨fun i p hp => h.entries i _ (ht.entries i p hp), fun i p hp => h.byKey _ i (ht.byKey i p hp)⟩

/-- What a canonical table holds it finds, the built-in types too. -/
theorem Keeps.rooted (ht : t.Rooted) (h : t.Keeps t₁) (hc : t₁.Canonical) : t₁.Rooted :=
  ⟨fun i p hp => h i _ (ht.entries i p hp), fun i p hp => hc.keyFound i _ (h i _ (ht.entries i p hp))⟩

/-- Every type stands at one place. -/
theorem Canonical.get?_inj (hc : t.Canonical) (hi : t.get? i = some ty) (hj : t.get? j = some ty) :
    i = j :=
  (hc.finds_get? hi).unique (hc.finds_get? hj)

theorem Widens.unique (hc : t.Canonical) (hj : t.Widens i j) (hk : t.Widens i k) : j = k := by
  obtain ⟨s, hs, hsj, -⟩ := hj
  obtain ⟨s', hs', hsk, -⟩ := hk
  obtain rfl : s = s' := Option.some.inj (hs.symm.trans hs')
  exact hc.get?_inj hsj hsk

theorem Widens.keeps (h : t.Widens i j) (hk : t.Keeps t₁) : t₁.Widens i j := by
  obtain ⟨s, hs, hsj, hother⟩ := h
  exact ⟨s, hk.get? hs, hk.get? hsj, hother⟩

theorem Widens.not_isLiteral (h : t.Widens i j) (hj : t.get? j = some ty) : ¬ ty.kind.IsLiteral := by
  obtain ⟨s, -, hsj, -⟩ := h
  rw [hj] at hsj
  cases hsj
  rw [Ty.widened]
  cases s.kind <;> exact id

/-- A type that is no literal is widened already. -/
theorem widens_self (hi : t.get? i = some ty) (hty : ¬ ty.kind.IsLiteral) : t.Widens i i := by
  refine ⟨ty, hi, ?_, fun _ => rfl⟩
  rw [hi, Ty.widened]
  obtain ⟨kind, nullable⟩ := ty
  cases kind <;> first | rfl | exact absurd trivial hty

/-- A widened type is widened to itself only. -/
theorem Widens.widens_self (h : t.Widens i j) : t.Widens j j := by
  obtain ⟨ty, hj⟩ := exists_get? h.lt_size
  exact TypeTable.widens_self hj (h.not_isLiteral hj)

end TypeTable

/-- Widening the literals of a union widens each member and adds no types to the table. -/
theorem UnionType.image_widenLiterals {t : TypeTable} {u : UnionType} (hc : t.Canonical)
    (ht : t.Rooted) (hu : ∀ a ∈ u.members, a < t.size) :
    ∃ v, u.widenLiterals t = .ok (v, t) ∧ Image t.Widens u v := by
  obtain ⟨ids, hrun, hids⟩ := TypeM.mapM_of_forall fun a ha => ht.exists_widens (hu a ha)
  exact ⟨ofList ids, TypeM.bind_eq_ok.2 ⟨ids, t, hrun, rfl⟩,
    image_ofList hids fun _ _ _ hj hk => hj.unique hc hk⟩

/-- A type that is no literal is left as it is. -/
theorem UnionType.widenLiterals_of {t : TypeTable} {i : TypeId} {ty : Ty} (ht : t.Rooted)
    (hi : t.get? i = some ty) (hty : ¬ ty.kind.IsLiteral) :
    (of i).widenLiterals t = .ok (of i, t) := by
  obtain ⟨j, hrun, ty', hi', -, hother⟩ := ht.exists_widens (TypeTable.lt_size_of_get? hi)
  cases hi.symm.trans hi'
  rw [hother hty] at hrun
  exact TypeM.bind_eq_ok.2 ⟨[i], t, TypeM.bind_eq_ok.2 ⟨i, t, hrun, rfl⟩, rfl⟩

/-! ### Members -/

theorem TypeTable.fetch_of_get? {t : TypeTable} {i : TypeId} {ty : Ty} (h : t.get? i = some ty) :
    t.fetch i = .ok ty := by
  obtain ⟨e, he, rfl⟩ := Option.map_eq_some_iff.1 h
  exact fetch_eq he

/-- From a type that admits no null there is none to be taken away. -/
theorem TypeM.withNull_of_not_admitsNull {t : TypeTable} {i : TypeId} {ty : Ty}
    (h : t.get? i = some ty) (hnull : ty.admitsNull = false) :
    TypeM.withNull i false t = .ok (i, t) := by
  obtain ⟨e, he, rfl⟩ := Option.map_eq_some_iff.1 h
  refine bind_eq_ok.2 ⟨_, t, fetch_eq_ok.2 ⟨rfl, e, he, rfl⟩, ?_⟩
  rw [Ty.admitsNull, Bool.or_eq_false_iff] at hnull
  rw [hnull.1]
  rfl

namespace UnionType

open TypeTable

variable {t : TypeTable} {u : UnionType} {p : String → Prop} {e : TypeId}

/-- Whether some member satisfies a test is answered. -/
theorem decides_anyMember (hu : u.Held p t) (f : Ty → Bool) :
    Decides (u.anyMember t f) (∃ i ∈ u.members, ∃ ty, t.get? i = some ty ∧ f ty = true) := by
  refine decides_anyM fun i hi => ?_
  obtain ⟨ty, hty, hget, -⟩ := exists_fetch (hu i hi)
  refine ⟨f ty, by rw [hty]; rfl, ?_⟩
  simp [hget]

/-- The kind that covers the keys of all array members is found. -/
theorem keyKind_eq (hu : u.Held p t) :
    ∃ ks, u.keyKind t = .ok (KeyKind.mergeAll ks) ∧
      ∀ k, k ∈ ks ↔ ∃ i ∈ u.members, ∃ ty, t.get? i = some ty ∧ keyKindOf ty = some k := by
  have hloop : ∀ ids : List TypeId, (∀ i ∈ ids, t.Holds p i) →
      ∃ kinds, ids.mapM (fun id => (t.fetch id).map keyKindOf) = .ok kinds ∧
        ∀ k : Option KeyKind, k ∈ kinds ↔ ∃ i ∈ ids, ∃ ty, t.get? i = some ty ∧ keyKindOf ty = k := by
    intro ids
    induction ids with
    | nil => exact fun _ => ⟨[], rfl, by simp⟩
    | cons i ids ih =>
      intro hids
      obtain ⟨ty, hty, hget, -⟩ := exists_fetch (hids i List.mem_cons_self)
      obtain ⟨kinds, hkinds, hmem⟩ := ih fun j hj => hids j (List.mem_cons_of_mem _ hj)
      refine ⟨keyKindOf ty :: kinds, ?_, fun k => ?_⟩
      · rw [List.mapM_cons, hty, hkinds]
        rfl
      · rw [List.mem_cons, hmem, List.exists_mem_cons_iff, hget]
        simp [eq_comm]
  obtain ⟨kinds, hkinds, hmem⟩ := hloop u.members hu
  refine ⟨kinds.filterMap fun k => k, by rw [keyKind, hkinds]; rfl, fun k => ?_⟩
  rw [List.mem_filterMap]
  simp [hmem]

/-! ### Unions of one type -/

section

variable {i : TypeId} {ty : Ty}

theorem anyMember_of (h : t.get? i = some ty) (p : Ty → Bool) :
    (of i).anyMember t p = .ok (p ty) := by
  rw [anyMember, members_of, List.anyM, fetch_of_get? h]
  show (Except.ok (p ty) >>= _ : Checked Bool) = _
  cases p ty <;> rfl

theorem keyKind_of (h : t.get? i = some ty) : (of i).keyKind t = .ok (keyKindOf ty) := by
  rw [keyKind, members_of, List.mapM_cons, fetch_of_get? h]
  show Except.ok _ = _
  rw [List.filterMap_cons]
  cases keyKindOf ty <;> rfl

theorem classNames_of (h : t.get? i = some ty) (hclass : ty.className? = none) :
    (of i).classNames t = .ok [] := by
  rw [classNames, members_of, List.foldlM_cons, fetch_of_get? h]
  dsimp only [bind, Except.bind]
  rw [hclass]
  rfl

theorem withoutShapes_of (h : t.get? i = some ty) (hshape : ty.isShape = true) :
    (of i).withoutShapes t = .ok empty := by
  have hdrop : (t.fetch i).map (fun ty => !ty.isShape) = .ok false := by
    rw [fetch_of_get? h, Except.map, hshape]
    rfl
  rw [withoutShapes, filterMembers, members_of, List.filterM, List.filterAuxM, hdrop]
  rfl

/-- One type other than null has one variant without null. -/
theorem withoutNull_of_withNull {j : TypeId} {t₁ : TypeTable} (hne : i ≠ NativeKind.null.id)
    (h : TypeM.withNull i false t = .ok (j, t₁)) : (of i).withoutNull t = .ok (of j, t₁) := by
  have herase : (of i).erase NativeKind.null.id = of i := by
    rw [of, ofList, erase, filter]
    simp [insert, empty, hne]
  rw [withoutNull, herase, mapMembers, members_of]
  exact TypeM.bind_eq_ok.2 ⟨[j], t₁, TypeM.bind_eq_ok.2 ⟨j, t₁, h, rfl⟩, rfl⟩

/-- A type without null is left as it is. -/
theorem withoutNull_of (ht : t.Rooted) (h : t.get? i = some ty) (hnull : ty.admitsNull = false) :
    (of i).withoutNull t = .ok (of i, t) := by
  have hne : i ≠ NativeKind.null.id := by
    rintro rfl
    cases h.symm.trans (ht.get?_native .null)
    cases hnull
  exact withoutNull_of_withNull hne (TypeM.withNull_of_not_admitsNull h hnull)

theorem shapeField?_of {fields : ShapeFields} {nullable : Bool}
    (h : t.get? i = some ⟨.shape fields, nullable⟩) {key : ShapeKey} {field : ShapeField}
    (hfield : ShapeFields.get? fields key = some field) :
    (of i).shapeField? t key = .ok (some (empty.union field.type)) := by
  rw [shapeField?, members_of, List.foldlM_cons, fetch_of_get? h]
  dsimp only [bind, Except.bind]
  rw [hfield]
  rfl

end

/-! ### Elements -/

/-- A member says nothing about its elements: it is the plain array type or that of all values. -/
def HasOpen (t : TypeTable) (u : UnionType) : Prop :=
  ∃ i ∈ u.members, ∃ ty, t.get? i = some ty ∧ (ty.kind = .native .array ∨ ty.kind = .native .mixed)

/-- The types that stand as elements in a kind of array. -/
def elementsOf : TypeKind → List TypeId
  | .array _ element => [element]
  | .shape fields => fields.flatMap fun f => f.2.type.members
  | _ => []

/-- The type stands as an element in some array member. -/
def IsElement (t : TypeTable) (u : UnionType) (e : TypeId) : Prop :=
  ∃ i ∈ u.members, ∃ ty, t.get? i = some ty ∧ e ∈ elementsOf ty.kind

theorem elementsOf_subset_embedded {kind : TypeKind} (h : e ∈ elementsOf kind) :
    e ∈ kind.embedded := by
  cases kind <;> first | exact h | cases h

theorem IsElement.lt_size (h : IsElement t u e) : e < t.size := by
  obtain ⟨i, -, ty, hty, he⟩ := h
  exact (embedded_lt_of_get? hty (elementsOf_subset_embedded he)).trans (lt_size_of_get? hty)

/-- The elements are found: all values if some member is open, else the elements of the arrays. -/
theorem elementTypes_eq (hu : u.Held p t) :
    ∃ v, u.elementTypes t = .ok v ∧ (HasOpen t u → v = mixed) ∧
      (¬ HasOpen t u → ∀ e, e ∈ v.members ↔ IsElement t u e) := by
  have hunion : ∀ (fields : ShapeFields) (found : UnionType) (e : TypeId),
      e ∈ (fields.foldl (fun u f => u.union f.2.type) found).members ↔
        e ∈ found.members ∨ e ∈ fields.flatMap fun f => f.2.type.members := by
    intro fields
    induction fields with
    | nil => simp
    | cons f fields ih =>
      intro found e
      rw [List.foldl_cons, ih, mem_union, List.flatMap_cons, List.mem_append, or_assoc]
  have hloop : ∀ (ids : List TypeId) (found : UnionType), (∀ i ∈ ids, t.Holds p i) →
      ∃ v, elementTypesFrom t found ids = .ok v ∧
        ((∃ i ∈ ids, ∃ ty, t.get? i = some ty ∧
          (ty.kind = .native .array ∨ ty.kind = .native .mixed)) → v = mixed) ∧
        ((¬ ∃ i ∈ ids, ∃ ty, t.get? i = some ty ∧
          (ty.kind = .native .array ∨ ty.kind = .native .mixed)) → ∀ e, e ∈ v.members ↔
            e ∈ found.members ∨ ∃ i ∈ ids, ∃ ty, t.get? i = some ty ∧ e ∈ elementsOf ty.kind) := by
    intro ids
    induction ids with
    | nil => exact fun found _ => ⟨found, rfl, by simp, by simp⟩
    | cons i ids ih =>
      intro found hids
      obtain ⟨⟨kind, nullable⟩, hty, hget, -⟩ := exists_fetch (hids i List.mem_cons_self)
      have hopen : (∃ j ∈ i :: ids, ∃ ty, t.get? j = some ty ∧
          (ty.kind = .native .array ∨ ty.kind = .native .mixed)) ↔
          (kind = .native .array ∨ kind = .native .mixed) ∨ ∃ j ∈ ids, ∃ ty, t.get? j = some ty ∧
            (ty.kind = .native .array ∨ ty.kind = .native .mixed) := by
        rw [List.exists_mem_cons_iff, hget]
        simp
      have helements : ∀ e, (∃ j ∈ i :: ids, ∃ ty, t.get? j = some ty ∧ e ∈ elementsOf ty.kind) ↔
          e ∈ elementsOf kind ∨ ∃ j ∈ ids, ∃ ty, t.get? j = some ty ∧ e ∈ elementsOf ty.kind := by
        intro e
        rw [List.exists_mem_cons_iff, hget]
        simp
      simp only [hopen, helements]
      rw [elementTypesFrom, hty]
      dsimp only [bind, Except.bind]
      split
      · exact ⟨mixed, rfl, fun _ => rfl, fun h => absurd (.inl (.inl rfl)) h⟩
      · exact ⟨mixed, rfl, fun _ => rfl, fun h => absurd (.inl (.inr rfl)) h⟩
      all_goals
        obtain ⟨v, hv, hmixed, hmem⟩ := ih _ fun j hj => hids j (List.mem_cons_of_mem _ hj)
        refine ⟨v, hv, fun h => hmixed (h.resolve_left ?_), fun h e => ?_⟩
        · simp_all
        · rw [hmem (fun hids => h (.inr hids)) e]
          simp [elementsOf, hunion, or_assoc]
  obtain ⟨v, hv, hmixed, hmem⟩ := hloop u.members empty hu
  refine ⟨v, hv, hmixed, fun h e => (hmem h e).trans ?_⟩
  simp [IsElement]

theorem lt_size_of_elementTypes (ht : t.Rooted) (hu : u.Held p t) {v : UnionType}
    (h : u.elementTypes t = .ok v) : ∀ e ∈ v.members, e < t.size := by
  obtain ⟨w, hw, hopen, hmem⟩ := elementTypes_eq hu
  obtain rfl : v = w := Except.ok.inj (h.symm.trans hw)
  intro e he
  by_cases hu : HasOpen t u
  · rw [hopen hu, mixed, members_native, List.mem_singleton] at he
    exact he ▸ ht.native_lt_size .mixed
  · exact ((hmem hu e).1 he).lt_size

end UnionType

end UnionInference
