import Mathlib.Data.List.Perm.Subperm
import UnionInference.Proofs.Types.Natives
import UnionInference.Types.Cast

/-!
When types cast. In a table that holds the built-in types every question for a cast is answered; the
answer for two types follows from the two types and from the answers for what they are made of. A
union casts to another one exactly when some member casts to some member, or one of them is empty, so
more members never lose a cast.
-/

namespace UnionInference

/-! ### Answers that are given -/

/-- The answer is given, and it is yes exactly when the condition holds. -/
def Decides (answer : Checked Bool) (P : Prop) : Prop := ∃ b, answer = .ok b ∧ (b = true ↔ P)

section

variable {α : Type} {P Q : Prop} {answer : Checked Bool}

theorem decides_ok {b : Bool} (h : b = true ↔ P) : Decides (.ok b) P := ⟨b, rfl, h⟩

theorem Decides.congr (h : Decides answer P) (hPQ : P ↔ Q) : Decides answer Q := by
  obtain ⟨b, hb, hP⟩ := h
  exact ⟨b, hb, hP.trans hPQ⟩

theorem Decides.iff (h : Decides answer P) : answer = .ok true ↔ P := by
  obtain ⟨b, rfl, hP⟩ := h
  rw [← hP]
  exact ⟨Except.ok.inj, congrArg _⟩

/-- An answer that is given is yes exactly when it is. -/
theorem decides_self (h : ∃ b, answer = .ok b) : Decides answer (answer = .ok true) := by
  obtain ⟨b, rfl⟩ := h
  exact ⟨b, rfl, congrArg _, Except.ok.inj⟩

theorem Decides.not (h : Decides answer P) (hP : ¬ P) : answer = .ok false := by
  obtain ⟨b, rfl, hb⟩ := h
  rw [Bool.eq_false_iff.2 fun hb' => hP (hb.1 hb')]

theorem decides_anyM {f : α → Checked Bool} {P : α → Prop} {as : List α}
    (h : ∀ a ∈ as, Decides (f a) (P a)) : Decides (as.anyM f) (∃ a ∈ as, P a) := by
  induction as with
  | nil => exact ⟨false, rfl, by simp⟩
  | cons a as ih =>
    obtain ⟨b, hb, hP⟩ := h a List.mem_cons_self
    rw [List.anyM, hb]
    cases b with
    | true => exact ⟨true, rfl, by simp [hP.1 rfl]⟩
    | false =>
      refine (ih fun a ha => h a (List.mem_cons_of_mem _ ha)).congr ?_
      have hno : ¬ P a := fun ha => Bool.false_ne_true (hP.2 ha)
      simp [hno]

theorem decides_allM {f : α → Checked Bool} {P : α → Prop} {as : List α}
    (h : ∀ a ∈ as, Decides (f a) (P a)) : Decides (as.allM f) (∀ a ∈ as, P a) := by
  induction as with
  | nil => exact ⟨true, rfl, by simp⟩
  | cons a as ih =>
    obtain ⟨b, hb, hP⟩ := h a List.mem_cons_self
    rw [List.allM, hb]
    cases b with
    | false =>
      have hno : ¬ P a := fun ha => Bool.false_ne_true (hP.2 ha)
      exact ⟨false, rfl, by simp [hno]⟩
    | true =>
      refine (ih fun a ha => h a (List.mem_cons_of_mem _ ha)).congr ?_
      simp [hP.1 rfl]

theorem decides_allM_attach {as : List α} {f : { a // a ∈ as } → Checked Bool} {P : α → Prop}
    (h : ∀ a, Decides (f a) (P a.1)) : Decides (as.attach.allM f) (∀ a ∈ as, P a) :=
  (decides_allM (P := fun a => P a.1) fun a _ => h a).congr (by simp)

theorem map_attach_zip {β : Type} (as : List α) (bs : List β) :
    (as.attach.zip bs).map (Prod.map Subtype.val id) = as.zip bs := by
  rw [← List.zip_map_left, List.attach_map_subtype_val]

theorem forall_mem_attach_zip {β : Type} {as : List α} {bs : List β} {P : α → β → Prop} :
    (∀ p ∈ as.attach.zip bs, P p.1.1 p.2) ↔ ∀ p ∈ as.zip bs, P p.1 p.2 := by
  rw [← map_attach_zip as bs, List.forall_mem_map]
  rfl

end

/-! ### Unions -/

namespace UnionType

variable {R S : TypeId → TypeId → Prop} {u u' v v' : UnionType}

/-- Some member of the first union goes with some member of the second one; a union without members
goes with every other one. -/
def Compatible (R : TypeId → TypeId → Prop) (u v : UnionType) : Prop :=
  u.members = [] ∨ v.members = [] ∨ ∃ a ∈ u.members, ∃ b ∈ v.members, R a b

theorem Compatible.mono (h : u.Compatible R v)
    (hRS : ∀ a ∈ u.members, ∀ b ∈ v.members, R a b → S a b) : u.Compatible S v := by
  rcases h with h | h | ⟨a, ha, b, hb, hab⟩
  · exact .inl h
  · exact .inr (.inl h)
  · exact .inr (.inr ⟨a, ha, b, hb, hRS a ha b hb hab⟩)

theorem Compatible.refl (hR : ∀ a, R a a) (u : UnionType) : u.Compatible R u := by
  rcases List.eq_nil_or_concat u.members with h | ⟨as, a, h⟩
  · exact .inl h
  · exact .inr (.inr ⟨a, by simp [h], a, by simp [h], hR a⟩)

theorem SameMembers.members_eq_nil (h : v.SameMembers v') : v.members = [] ↔ v'.members = [] := by
  simp only [List.eq_nil_iff_forall_not_mem]
  exact forall_congr' fun a => not_congr (h a)

theorem SameMembers.compatible_iff (h : v.SameMembers v') :
    u.Compatible R v ↔ u.Compatible R v' := by
  rw [Compatible, Compatible, h.members_eq_nil]
  refine or_congr_right (or_congr_right (exists_congr fun a => and_congr_right fun _ => ?_))
  exact exists_congr fun b => and_congr_left fun _ => h b

theorem compatible_iff_of_ne_nil (hu : u.members ≠ []) (hv : v.members ≠ []) :
    u.Compatible R v ↔ ∃ a ∈ u.members, ∃ b ∈ v.members, R a b := by
  simp [Compatible, hu, hv]

theorem same_iff : u.same v = true ↔ u.SameMembers v := by
  constructor
  · intro h
    simp only [same, size, Bool.and_eq_true, beq_iff_eq, List.all_eq_true, contains,
      List.contains_iff_mem] at h
    exact sameMembers_iff_perm.2 ((u.nodup.subperm h.2).perm_of_length_le h.1.ge)
  · intro h
    simp only [same, size, Bool.and_eq_true, beq_iff_eq, List.all_eq_true, contains,
      List.contains_iff_mem]
    exact ⟨h.perm.length_eq, fun a ha => (h a).1 ha⟩

theorem hasMixed_iff : u.hasMixed = true ↔ NativeKind.mixed.id ∈ u.members := by
  rw [hasMixed, contains, List.contains_iff_mem]

theorem isNull_iff : u.isNull = true ↔ u.members = [NativeKind.null.id] := by
  rw [isNull, isOnly, beq_iff_eq]

/-- The short cuts say nothing else than the members do. -/
theorem decides_castsWith {nullCasts : Bool}
    {cast : (a : TypeId) → a ∈ u.members → TypeId → Checked Bool} (hrefl : ∀ a, R a a)
    (hmixed : ∀ a ∈ u.members, ∀ b ∈ v.members,
      a = NativeKind.mixed.id ∨ b = NativeKind.mixed.id → R a b)
    (hnull : nullCasts = true → ∀ b ∈ v.members, R NativeKind.null.id b)
    (hcast : ∀ a ha, ∀ b ∈ v.members, Decides (cast a ha b) (R a b)) :
    Decides (u.castsWith v nullCasts cast) (u.Compatible R v) := by
  rw [castsWith]
  by_cases hempty : (u.isEmpty || v.isEmpty) = true
  · rw [Bool.or_eq_true, isEmpty_iff, isEmpty_iff] at hempty
    rw [if_pos (by simpa [isEmpty_iff] using Or.inl hempty)]
    exact decides_ok (iff_of_true rfl (or_assoc.1 (.inl hempty)))
  have hu : u.members ≠ [] := by
    rintro hu
    exact hempty (by simp [isEmpty, hu])
  have hv : v.members ≠ [] := by
    rintro hv
    exact hempty (by simp [isEmpty, hv])
  obtain ⟨a, ha⟩ := List.exists_mem_of_ne_nil _ hu
  obtain ⟨b, hb⟩ := List.exists_mem_of_ne_nil _ hv
  split
  · next h =>
    rw [Bool.or_eq_true] at h
    have hsame : u.SameMembers v := same_iff.1 (h.resolve_left hempty)
    exact decides_ok (iff_of_true rfl (hsame.compatible_iff.1 (.refl hrefl u)))
  split
  · next h =>
    rw [Bool.or_eq_true, hasMixed_iff, hasMixed_iff] at h
    refine decides_ok (iff_of_true rfl (.inr (.inr ?_)))
    rcases h with h | h
    · exact ⟨_, h, b, hb, hmixed _ h b hb (.inl rfl)⟩
    · exact ⟨a, ha, _, h, hmixed a ha _ h (.inr rfl)⟩
  split
  · next h =>
    rw [Bool.and_eq_true, isNull_iff] at h
    refine decides_ok (iff_of_true rfl (.inr (.inr ⟨NativeKind.null.id, by simp [h.2], b, hb, ?_⟩)))
    exact hnull h.1 b hb
  · refine (decides_anyM (P := fun a => ∃ b ∈ v.members, R a.1 b) fun a _ =>
      decides_anyM fun b hb => hcast a.1 a.2 b hb).congr ?_
    rw [compatible_iff_of_ne_nil hu hv]
    constructor
    · rintro ⟨a, -, b, hb, hab⟩
      exact ⟨a.1, a.2, b, hb, hab⟩
    · rintro ⟨a, ha, b, hb, hab⟩
      exact ⟨⟨a, ha⟩, List.mem_attach _ _, b, hb, hab⟩

end UnionType

/-! ### Kinds -/

namespace TypeKind

variable {R S : TypeId → TypeId → Prop} {k k₁ k₂ k₃ : TypeKind}

/-- The kinds cast when the types that they are made of cast as told. All other kinds are compared
without looking inside. -/
def Casts (R : TypeId → TypeId → Prop) : TypeKind → TypeKind → Prop
  | .array j a, .array k b => j.casts k = true ∧ R a b
  | .shape fields, .array key b =>
    ∀ f ∈ fields, f.1.kind.casts key = true ∧ f.2.type.Compatible R (.of b)
  | .array _ a, .shape fields => ∀ f ∈ fields, (UnionType.of a).Compatible R f.2.type
  | .shape fields, .shape expected =>
    ∀ e ∈ expected, match fields.lookup e.1 with
      | some f => f.type.Compatible R e.2.type
      | none => e.2.optional = true
  | .callable r, .callable s => r.result.Compatible R s.result
  | .object a as, .object b bs =>
    a.sameClass b = true ∧ (as = [] ∨ bs = [] ∨ List.Forall₂ (UnionType.Compatible R) as bs)
  | a, b => TypeTable.castsKind false a b (fun _ _ _ => .ok false) = .ok true

theorem mem_of_lookup {fields : ShapeFields} {key : ShapeKey} {f : ShapeField}
    (h : fields.lookup key = some f) : (key, f) ∈ fields := by
  obtain ⟨l₁, l₂, rfl, -⟩ := List.lookup_eq_some_iff.1 h
  simp

/-- Only the answers for the types that the kinds are made of matter. -/
theorem Casts.mono (h : k₁.Casts R k₂)
    (hRS : ∀ a ∈ k₁.embedded, ∀ b ∈ k₂.embedded, R a b → S a b) : k₁.Casts S k₂ := by
  cases k₁ <;> cases k₂
  case array.array j a k b =>
    exact ⟨h.1, hRS a (by simp [embedded]) b (by simp [embedded]) h.2⟩
  case shape.array fields key b =>
    refine fun f hf => ⟨(h f hf).1, (h f hf).2.mono fun x hx y hy => ?_⟩
    exact hRS x (List.mem_flatMap.2 ⟨f, hf, hx⟩) y (by simpa [embedded] using hy)
  case array.shape key a fields =>
    refine fun f hf => (h f hf).mono fun x hx y hy => ?_
    exact hRS x (by simpa [embedded] using hx) y (List.mem_flatMap.2 ⟨f, hf, hy⟩)
  case shape.shape fields expected =>
    intro e he
    have hfield := h e he
    split at hfield
    · next f hf =>
      refine hfield.mono fun x hx y hy => ?_
      exact hRS x (List.mem_flatMap.2 ⟨_, mem_of_lookup hf, hx⟩) y (List.mem_flatMap.2 ⟨e, he, hy⟩)
    · exact hfield
  case callable.callable r s =>
    exact UnionType.Compatible.mono h fun x hx y hy =>
      hRS x (List.mem_append_right _ hx) y (List.mem_append_right _ hy)
  case object.object a as b bs =>
    refine ⟨h.1, h.2.imp_right (Or.imp_right fun hargs => ?_)⟩
    have hargs := forall₂_map_map (f := id) (g := id) hargs fun u hu v hv huv =>
      huv.mono fun x hx y hy =>
        hRS x (List.mem_flatMap.2 ⟨u, hu, hx⟩) y (List.mem_flatMap.2 ⟨v, hv, hy⟩)
    rwa [List.map_id, List.map_id] at hargs
  all_goals exact h

/-- The arguments of a class are compared one by one. -/
theorem decides_arguments {as bs : List UnionType} {P : UnionType → UnionType → Prop}
    (answer : (u : UnionType) → u ∈ as → UnionType → Checked Bool)
    (h : ∀ u hu, ∀ v ∈ bs, Decides (answer u hu v) (P u v)) (hlen : as.length = bs.length) :
    Decides ((as.attach.zip bs).allM fun p => answer p.1.1 p.1.2 p.2) (List.Forall₂ P as bs) := by
  refine (decides_allM (P := fun p => P p.1.1 p.2) fun p hp => ?_).congr ?_
  · exact h p.1.1 p.1.2 p.2 (List.of_mem_zip hp).2
  · rw [forall_mem_attach_zip (P := P), List.forall₂_iff_zip]
    exact ⟨fun h => ⟨hlen, fun hp => h _ hp⟩, fun h p hp => h.2 hp⟩

/-- Objects are compared by their classes, then by their arguments where both have some. -/
theorem decides_objects {nullCasts : Bool} {a b : ClassName} {as bs : List UnionType}
    {cast : (x : TypeId) → x ∈ (TypeKind.object a as).embedded → TypeId → Checked Bool}
    (h : ∀ u (hu : u ∈ as), ∀ v ∈ bs, Decides (u.castsWith v nullCasts fun x hx y =>
      cast x (List.mem_flatMap.2 ⟨u, hu, hx⟩) y) (u.Compatible R v)) :
    Decides (TypeTable.castsKind nullCasts (.object a as) (.object b bs) cast)
      ((TypeKind.object a as).Casts R (.object b bs)) := by
  rw [TypeTable.castsKind, Casts]
  split
  · next hclass => exact decides_ok (by simp at hclass; simp [hclass])
  next hclass =>
  have hclass : a.sameClass b = true := by simpa using hclass
  simp only [hclass, true_and]
  split
  · next hnone =>
    rw [Bool.or_eq_true, List.isEmpty_iff, List.isEmpty_iff] at hnone
    exact decides_ok (iff_of_true rfl (or_assoc.1 (.inl hnone)))
  next hsome =>
  simp only [Bool.or_eq_true, List.isEmpty_iff, not_or] at hsome
  simp only [hsome, false_or]
  split
  · next hlen =>
    refine decides_ok (iff_of_false Bool.false_ne_true fun h => ?_)
    exact bne_iff_ne.1 hlen h.length_eq
  · next hlen =>
    exact decides_arguments (fun u hu v => u.castsWith v nullCasts fun x hx y =>
      cast x (List.mem_flatMap.2 ⟨u, hu, hx⟩) y) h (by simpa using hlen)

/-- The comparison of kinds answers as the kinds cast, if it is told how the types cast that these are
made of. -/
theorem decides_castsKind {nullCasts : Bool}
    {cast : (a : TypeId) → a ∈ k₁.embedded → TypeId → Checked Bool} (hrefl : ∀ a, R a a)
    (hmixed : ∀ a ∈ k₁.embedded, ∀ b ∈ k₂.embedded,
      a = NativeKind.mixed.id ∨ b = NativeKind.mixed.id → R a b)
    (hnull : nullCasts = true → ∀ b ∈ k₂.embedded, R NativeKind.null.id b)
    (hcast : ∀ a ha, ∀ b ∈ k₂.embedded, Decides (cast a ha b) (R a b)) :
    Decides (TypeTable.castsKind nullCasts k₁ k₂ cast) (k₁.Casts R k₂) := by
  have hunion : ∀ {u v : UnionType} {cast' : (a : TypeId) → a ∈ u.members → TypeId → Checked Bool},
      (∀ a ∈ u.members, a ∈ k₁.embedded) → (∀ b ∈ v.members, b ∈ k₂.embedded) →
      (∀ a ha, ∀ b ∈ v.members, Decides (cast' a ha b) (R a b)) →
      Decides (u.castsWith v nullCasts cast') (u.Compatible R v) := fun hu hv hcast' =>
    UnionType.decides_castsWith hrefl (fun a ha b hb => hmixed a (hu a ha) b (hv b hb))
      (fun hn b hb => hnull hn b (hv b hb)) hcast'
  cases k₁ <;> cases k₂
  case array.array j a k b =>
    rw [TypeTable.castsKind, Casts]
    split
    · next hkey =>
      exact (hcast a (by simp [embedded]) b (by simp [embedded])).congr (by simp [hkey])
    · next hkey => exact decides_ok (by simp [hkey])
  case shape.array fields key b =>
    rw [TypeTable.castsKind, Casts]
    refine decides_allM_attach fun f => ?_
    have hin : ∀ y ∈ (UnionType.of b).members, y ∈ (TypeKind.array key b).embedded := fun y hy => by
      simpa [embedded] using hy
    split
    · next hkey =>
      refine (hunion (fun x hx => List.mem_flatMap.2 ⟨f.1, f.2, hx⟩) hin fun x hx y hy =>
        hcast x _ y (hin y hy)).congr ?_
      simp [hkey]
    · next hkey => exact decides_ok (by simp [hkey])
  case array.shape key a fields =>
    rw [TypeTable.castsKind, Casts]
    refine decides_allM fun f hf => ?_
    have hin : ∀ y ∈ f.2.type.members, y ∈ (TypeKind.shape fields).embedded := fun y hy =>
      List.mem_flatMap.2 ⟨f, hf, hy⟩
    exact hunion (fun x hx => by simpa [embedded] using hx) hin fun x hx y hy =>
      hcast x _ y (hin y hy)
  case shape.shape fields expected =>
    rw [TypeTable.castsKind, Casts]
    refine decides_allM fun e he => ?_
    have hin : ∀ y ∈ e.2.type.members, y ∈ (TypeKind.shape expected).embedded := fun y hy =>
      List.mem_flatMap.2 ⟨e, he, hy⟩
    split
    · next f hf =>
      refine (hunion (fun x hx => List.mem_flatMap.2 ⟨_, mem_of_lookup hf, hx⟩) hin fun x hx y hy =>
        hcast x _ y (hin y hy)).congr ?_
      simp only [hf]
    · next hf => exact decides_ok (by simp only [hf])
  case callable.callable r s =>
    rw [TypeTable.castsKind, Casts]
    have hin : ∀ y ∈ s.result.members, y ∈ (TypeKind.callable s).embedded := fun y hy =>
      List.mem_append_right _ hy
    exact hunion (fun x hx => List.mem_append_right _ hx) hin fun x hx y hy =>
      hcast x _ y (hin y hy)
  case object.object a as b bs =>
    refine decides_objects fun u hu v hv => ?_
    have hin : ∀ y ∈ v.members, y ∈ (TypeKind.object b bs).embedded := fun y hy =>
      List.mem_flatMap.2 ⟨v, hv, hy⟩
    exact hunion (fun x hx => List.mem_flatMap.2 ⟨u, hu, hx⟩) hin fun x hx y hy =>
      hcast x _ y (hin y hy)
  -- the other kinds are compared without looking inside
  case native.object a _ _ => cases a <;> exact ⟨_, rfl, congrArg Except.ok, Except.ok.inj⟩
  all_goals exact ⟨_, rfl, congrArg Except.ok, Except.ok.inj⟩

end TypeKind

/-! ### Types -/

namespace TypeTable

variable {t t₁ : TypeTable} {s d : Ty} {i j : TypeId}

/-- The type casts to the other one. -/
def Casts (t : TypeTable) (i j : TypeId) : Prop := t.canCast i j = .ok true

/-- What a cast from one type to another one at a different place takes: all values on one side; or a
target that admits null if the source does, and kinds that cast. -/
def Permits (t : TypeTable) (s d : Ty) : Prop :=
  d.isNative .mixed = true ∨ s.isNative .mixed = true ∨
    (s.admitsNull = true → d.admitsNull = true ∨ t.nullCasts = true) ∧
      (s.isNative .null = true ∨ s.kind.Casts t.Casts d.kind)

theorem casts_refl (t : TypeTable) (i : TypeId) : t.Casts i i := by
  rw [Casts, canCast, if_pos rfl]

theorem canCast_eq (hs : t.get? i = some s) (hd : t.get? j = some d) (hij : i ≠ j) :
    t.canCast i j =
      if d.isNative .mixed || s.isNative .mixed then .ok true
      else if s.isNative .null then .ok (d.admitsNull || t.nullCasts)
      else if s.nullable && !d.admitsNull && !t.nullCasts then .ok false
      else castsKind t.nullCasts s.kind d.kind fun a _ b => t.canCast a b := by
  obtain ⟨below, hfetch⟩ := exists_fetchBelow hs
  obtain ⟨e, he, rfl⟩ := Option.map_eq_some_iff.1 hd
  rw [canCast, if_neg hij, hfetch, fetch_eq he]
  rfl

/-- Nothing is asked of the parts when all values stand on one side. -/
theorem Rooted.casts_of_mixed (ht : t.Rooted) (hi : i < t.size) (hj : j < t.size)
    (h : i = NativeKind.mixed.id ∨ j = NativeKind.mixed.id) : t.Casts i j := by
  by_cases hij : i = j
  · exact hij ▸ t.casts_refl i
  obtain ⟨s, hs⟩ := exists_get? hi
  obtain ⟨d, hd⟩ := exists_get? hj
  have hmixed : (d.isNative .mixed || s.isNative .mixed) = true := by
    rw [Bool.or_eq_true]
    rcases h with rfl | rfl
    · rw [ht.get?_native .mixed] at hs
      cases hs
      exact .inr rfl
    · rw [ht.get?_native .mixed] at hd
      cases hd
      exact .inl rfl
  rw [Casts, canCast_eq hs hd hij, if_pos hmixed]

theorem Rooted.casts_null (ht : t.Rooted) (hmode : t.nullCasts = true) (hj : j < t.size) :
    t.Casts NativeKind.null.id j := by
  by_cases hij : NativeKind.null.id = j
  · exact hij ▸ t.casts_refl _
  obtain ⟨d, hd⟩ := exists_get? hj
  rw [Casts, canCast_eq (ht.get?_native .null) hd hij]
  split
  · rfl
  · rw [if_pos (by rfl), hmode, Bool.or_true]

/-- Every question for a cast between types of the table is answered, by what the two types are. -/
theorem Rooted.decides_canCast (ht : t.Rooted) (hs : t.get? i = some s) (hd : t.get? j = some d) :
    Decides (t.canCast i j) (i = j ∨ t.Permits s d) := by
  induction i using Nat.strong_induction_on generalizing s d j with
  | _ i ih =>
    by_cases hij : i = j
    · exact ⟨true, hij ▸ t.casts_refl i, by simp [hij]⟩
    rw [canCast_eq hs hd hij]
    simp only [hij, false_or]
    have hparts : ∀ a ∈ s.kind.embedded, ∀ b ∈ d.kind.embedded, a < t.size ∧ b < t.size :=
      fun a ha b hb => ⟨(embedded_lt_of_get? hs ha).trans (lt_size_of_get? hs),
        (embedded_lt_of_get? hd hb).trans (lt_size_of_get? hd)⟩
    split
    · next h =>
      rw [Bool.or_eq_true] at h
      exact decides_ok (iff_of_true rfl (or_assoc.1 (.inl h)))
    next hmixed =>
    simp only [Bool.or_eq_true, not_or] at hmixed
    simp only [Permits, hmixed, Bool.false_eq_true, false_or]
    split
    · next hnull =>
      refine decides_ok ?_
      simp [hnull, Ty.admitsNull]
    next hnull =>
    have hadmits : s.admitsNull = s.nullable := by simp [Ty.admitsNull, hnull]
    simp only [hnull, hadmits, Bool.false_eq_true, false_or]
    split
    · next h =>
      simp only [Bool.and_eq_true, Bool.not_eq_true'] at h
      exact decides_ok (by simp [h])
    · next h =>
      refine (TypeKind.decides_castsKind (R := t.Casts) t.casts_refl (fun a ha b hb hab => ?_)
        (fun hmode b hb => ?_) fun a ha b hb => ?_).congr ?_
      · exact ht.casts_of_mixed (hparts a ha b hb).1 (hparts a ha b hb).2 hab
      · exact ht.casts_null hmode ((embedded_lt_of_get? hd hb).trans (lt_size_of_get? hd))
      · obtain ⟨s', hs'⟩ := exists_get? (hparts a ha b hb).1
        obtain ⟨d', hd'⟩ := exists_get? (hparts a ha b hb).2
        obtain ⟨r, hr, -⟩ := ih a (embedded_lt_of_get? hs ha) hs' hd'
        exact decides_self ⟨r, hr⟩
      · simp only [Bool.and_eq_true, Bool.not_eq_true', not_and, Bool.not_eq_false] at h
        refine (and_iff_right fun hn => ?_).symm
        cases hd : d.admitsNull with
        | true => exact .inl rfl
        | false => exact .inr (h ⟨hn, hd⟩)

theorem Rooted.casts_iff (ht : t.Rooted) (hs : t.get? i = some s) (hd : t.get? j = some d) :
    t.Casts i j ↔ i = j ∨ t.Permits s d := (ht.decides_canCast hs hd).iff

theorem Rooted.exists_canCast (ht : t.Rooted) (hi : i < t.size) (hj : j < t.size) :
    ∃ b, t.canCast i j = .ok b := by
  obtain ⟨s, hs⟩ := exists_get? hi
  obtain ⟨d, hd⟩ := exists_get? hj
  obtain ⟨b, hb, -⟩ := ht.decides_canCast hs hd
  exact ⟨b, hb⟩

end TypeTable

/-! ### Members -/

namespace UnionType

open TypeTable

variable {ok : TypeKind → Prop} {t : TypeTable} {u v : UnionType}

/-- The short cuts of the check for unions say nothing else than the members do. -/
theorem decides_canCast (ht : t.Rooted) (hu : ∀ a ∈ u.members, a < t.size)
    (hv : ∀ b ∈ v.members, b < t.size) : Decides (u.canCast v t) (u.Compatible t.Casts v) :=
  decides_castsWith t.casts_refl (fun a ha b hb hab => ht.casts_of_mixed (hu a ha) (hv b hb) hab)
    (fun hmode b hb => ht.casts_null hmode (hv b hb))
    fun a ha b hb => decides_self (ht.exists_canCast (hu a ha) (hv b hb))

/-- Between unions with members the check is answered, by whether some member casts to some member;
so it stays passed when members are added on either side. This holds in both modes of the table. -/
theorem canCast_iff_exists (h : Reachable ok t) (mode : Bool) (hu : ∀ a ∈ u.members, a < t.size)
    (hv : ∀ b ∈ v.members, b < t.size) (hune : u.members ≠ []) (hvne : v.members ≠ []) :
    Decides (u.canCast v (t.inMode mode))
        (∃ a ∈ u.members, ∃ b ∈ v.members, (t.inMode mode).canCast a b = .ok true) ∧
      ∀ u' v' : UnionType, (∀ a ∈ u'.members, a < t.size) → (∀ b ∈ v'.members, b < t.size) →
        u.members ⊆ u'.members → v.members ⊆ v'.members →
        u.canCast v (t.inMode mode) = .ok true → u'.canCast v' (t.inMode mode) = .ok true := by
  have ht := h.rooted.inMode mode
  have hiff := compatible_iff_of_ne_nil (R := (t.inMode mode).Casts) hune hvne
  refine ⟨(decides_canCast ht hu hv).congr hiff, fun u' v' hu' hv' huu' hvv' hcast => ?_⟩
  obtain ⟨a, ha, b, hb, hab⟩ := hiff.1 ((decides_canCast ht hu hv).iff.1 hcast)
  exact (decides_canCast ht hu' hv').iff.2 (.inr (.inr ⟨a, huu' ha, b, hvv' hb, hab⟩))

/-- Null alone casts to no number or text until null is acceptable. -/
theorem canCast_iff_exists_null : ∃ t, Reachable (fun _ => True) t ∧
    (native .null).canCast (ofList [NativeKind.int.id, NativeKind.string.id]) (t.inMode true) =
        .ok true ∧
      (native .null).canCast (ofList [NativeKind.int.id, NativeKind.string.id]) (t.inMode false) =
        .ok false := by
  obtain ⟨t, h⟩ : ∃ t, Reachable (fun _ => True) t := ⟨initial false, false, .refl⟩
  have hlt := h.rooted.native_lt_size
  have hsource : ∀ a ∈ (native .null).members, a < t.size := by
    simpa [members_native] using hlt .null
  have htarget : ∀ b ∈ (ofList [NativeKind.int.id, NativeKind.string.id]).members, b < t.size := by
    simpa using ⟨hlt .int, hlt .string⟩
  have hiff := fun mode =>
    (canCast_iff_exists h mode hsource htarget (by decide) (by decide)).1
  refine ⟨t, h, (hiff true).iff.2 ?_, (hiff false).not ?_⟩
  · exact ⟨NativeKind.null.id, by decide, NativeKind.int.id, by decide,
      (h.rooted.inMode true).casts_null rfl (hlt .int)⟩
  · rintro ⟨a, ha, b, hb, hab⟩
    have ht := h.rooted.inMode false
    have hnative : ∀ k : NativeKind, k = .int ∨ k = .string →
        ¬ (t.inMode false).Casts NativeKind.null.id k.id := by
      intro k hk hcast
      have := (ht.casts_iff (ht.get?_native .null) (ht.get?_native k)).1 hcast
      rcases hk with rfl | rfl
      · simp [Permits, Ty.isNative, Ty.native?, Ty.admitsNull, NativeKind.id] at this
      · simp [Permits, Ty.isNative, Ty.native?, Ty.admitsNull, NativeKind.id] at this
    obtain rfl : a = NativeKind.null.id := by simpa [members_native] using ha
    have hb : b = NativeKind.int.id ∨ b = NativeKind.string.id := by simpa using hb
    rcases hb with rfl | rfl
    · exact hnative .int (.inl rfl) hab
    · exact hnative .string (.inr rfl) hab

end UnionType

end UnionInference
