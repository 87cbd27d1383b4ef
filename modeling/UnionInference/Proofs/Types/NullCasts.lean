import UnionInference.Proofs.Types.Casting
import UnionInference.Proofs.Types.Replacing

/-!
Null and casts. Accepting null for a value of any type only adds casts, and adds none from a type in
which there is no null. A type that casts to another one casts to its variant with null as well; the
one exception is a literal, which casts to itself alone and so not to its own variant.
-/

namespace UnionInference

/-! ### Kinds that are alike -/

section

variable {α β : Type} {as : List α} {bs cs : List β}

theorem forall₂_congr_right {R : α → β → Prop} {S : β → β → Prop}
    (hRS : ∀ a b c, S b c → (R a b ↔ R a c)) (h : List.Forall₂ S bs cs) :
    List.Forall₂ R as bs ↔ List.Forall₂ R as cs := by
  induction h generalizing as with
  | nil => rfl
  | cons hbc _ ih =>
    rw [List.forall₂_cons_right_iff, List.forall₂_cons_right_iff]
    simp only [hRS _ _ _ hbc, ih]

theorem forall_mem_congr {S : β → β → Prop} {P : β → Prop} (hP : ∀ b c, S b c → (P b ↔ P c))
    (h : List.Forall₂ S bs cs) : (∀ b ∈ bs, P b) ↔ ∀ c ∈ cs, P c := by
  induction h with
  | nil => rfl
  | cons hbc _ ih => rw [List.forall_mem_cons, List.forall_mem_cons, hP _ _ hbc, ih]

end

namespace TypeKind

variable {R : TypeId → TypeId → Prop} {k a b c : TypeKind}

/-- The kind is that of one literal value. -/
def IsLiteral : TypeKind → Prop
  | .intLiteral _ | .stringLiteral _ => True
  | _ => False

theorem IsLiteral.acceptsNull (h : k.IsLiteral) : k.acceptsNull = true := by
  cases k <;> first | rfl | cases h

/-- Proper kinds in which the name of a class is divided before its last segment. -/
def Standard (kind : TypeKind) : Prop :=
  kind.Proper ∧ ∀ name args, kind = .object name args → name.Divided

theorem typeSort_standard : TypeSort Standard :=
  ⟨fun _ h => h.1.wellNamed, fun _ => ⟨trivial, nofun⟩⟩

theorem Standard.fold_eq {x y : ClassName} {as bs : List UnionType}
    (hx : (TypeKind.object x as).Standard) (hy : (TypeKind.object y bs).Standard)
    (h : SameName x y) : x.fold = y.fold :=
  QualifiedName.fold_eq_of_foldedText_eq (hx.2 x as rfl) (hy.2 y bs rfl) h

theorem lookup_of_mem {fields : ShapeFields} (h : (fields.map Prod.fst).Nodup) {key : ShapeKey}
    {f : ShapeField} (hf : (key, f) ∈ fields) : fields.lookup key = some f := by
  induction fields with
  | nil => cases hf
  | cons g fields ih =>
    rw [List.map_cons, List.nodup_cons] at h
    rcases List.mem_cons.1 hf with rfl | hf
    · rw [List.lookup_cons_self]
    · have hne : (key == g.1) = false := by
        rw [beq_eq_false_iff_ne]
        rintro rfl
        exact h.1 (List.mem_map.2 ⟨(_, f), hf, rfl⟩)
      rw [List.lookup_cons, hne]
      exact ih h.2 hf

/-- A kind casts to itself unless it is that of a literal. -/
theorem casts_self_iff (hR : ∀ i, R i i) (hk : k.Proper) : k.Casts R k ↔ ¬ k.IsLiteral := by
  cases k with
  | intLiteral n | stringLiteral s =>
    exact iff_of_false (by simp [Casts, TypeTable.castsKind]) fun h => h trivial
  | native k => exact iff_of_true (by simp [Casts, TypeTable.castsKind, nativeCasts]) id
  | template s => exact iff_of_true (by simp [Casts, TypeTable.castsKind]) id
  | object name args =>
    refine iff_of_true ⟨by simp [QualifiedName.sameClass], .inr (.inr ?_)⟩ id
    exact List.forall₂_same.2 fun u _ => .refl hR u
  | array key i => exact iff_of_true ⟨by simp [KeyKind.casts], hR i⟩ id
  | callable sig => exact iff_of_true (UnionType.Compatible.refl hR _) id
  | shape fields =>
    refine iff_of_true (fun f hf => ?_) id
    simp only [lookup_of_mem hk.2 hf]
    exact .refl hR _

/-- Kinds that are alike are the same built-in one or neither is any. -/
theorem Alike.native_iff {n : NativeKind} {S : ClassName → ClassName → Prop} :
    ∀ {a b : TypeKind}, a.Alike S b → (a = .native n ↔ b = .native n)
  | .native _, .native _, h => by rw [show _ = _ from h]
  | .object .., .object .., _ | .array .., .array .., _ | .shape _, .shape _, _
  | .intLiteral _, .intLiteral _, _ | .stringLiteral _, .stringLiteral _, _
  | .callable _, .callable _, _ | .template _, .template _, _ => by simp

theorem isNamed_congr {x y : ClassName} (h : SameName x y) (full : String) :
    x.isNamed full = y.isNamed full := by
  rw [QualifiedName.isNamed, QualifiedName.isNamed, Text.sameFolded, Text.sameFolded]
  exact congrArg (· == _) h

theorem sameClass_congr {x y z : ClassName} (h : x.fold = y.fold) :
    z.sameClass x = z.sameClass y := by
  rw [QualifiedName.sameClass, QualifiedName.sameClass, h]

/-- Kinds that are alike are cast to by the same kinds. -/
theorem casts_congr_right (hb : b.Standard) (hc : c.Standard) (h : b.Alike SameName c) :
    a.Casts R b ↔ a.Casts R c := by
  match b, c, h with
  | .native _, .native _, rfl | .intLiteral _, .intLiteral _, rfl
  | .stringLiteral _, .stringLiteral _, rfl | .template _, .template _, rfl
  | .array _ _, .array _ _, ⟨rfl, rfl⟩ => exact Iff.rfl
  | .object x xs, .object y ys, h =>
    have hnamed := isNamed_congr h.1
    cases a with
    | object z zs =>
      rw [Casts, Casts, sameClass_congr (Standard.fold_eq hb hc h.1)]
      have hnil : xs = [] ↔ ys = [] := by
        rw [← List.length_eq_zero_iff, ← List.length_eq_zero_iff, h.2.length_eq]
      refine and_congr_right fun _ => or_congr_right (or_congr hnil ?_)
      exact forall₂_congr_right (fun _ _ _ hvw => hvw.compatible_iff) h.2
    | native k => cases k <;> simp only [Casts, TypeTable.castsKind, hnamed]
    | _ => simp only [Casts, TypeTable.castsKind, hnamed]
  | .shape fs, .shape gs, h =>
    cases a with
    | array key i =>
      exact forall_mem_congr (fun f g hfg => hfg.2.2.compatible_iff) h
    | shape fields =>
      refine forall_mem_congr (fun f g hfg => ?_) h
      obtain ⟨hkey, hopt, hmem⟩ := hfg
      rw [hkey, hopt]
      split
      · exact hmem.compatible_iff
      · rfl
    | _ => exact Iff.rfl
  | .callable r, .callable s, h =>
    cases a with
    | callable sig => exact h.2.2.compatible_iff
    | _ => exact Iff.rfl

end TypeKind

theorem Ty.isNative_iff {ty : Ty} {n : NativeKind} :
    ty.isNative n = true ↔ ty.kind = .native n := by
  obtain ⟨kind, nullable⟩ := ty
  cases kind <;> simp [isNative, native?]

theorem TypeKind.IsLiteral.isNative {ty : Ty} (h : ty.kind.IsLiteral) (n : NativeKind) :
    ty.isNative n = false := by
  rw [← Bool.not_eq_true, Ty.isNative_iff]
  intro hkind
  rw [hkind] at h
  exact h

namespace TypeTable

variable {ok : TypeKind → Prop} {t t₁ : TypeTable} {ty s d e : Ty} {i j k : TypeId}

/-! ### Larger tables and the other mode -/

/-- Neither the type at the place nor anything inside it admits null. -/
def NullFree (t : TypeTable) (i : TypeId) : Prop :=
  ∀ j ty, t.Within i j → t.get? j = some ty → ty.admitsNull = false

theorem NullFree.part (h : t.NullFree i) (hty : t.get? i = some ty) (hj : j ∈ ty.kind.embedded) :
    t.NullFree j := by
  obtain ⟨entry, hentry, rfl⟩ := Option.map_eq_some_iff.1 hty
  exact fun k d hk => h k d (.part hentry hj hk)

theorem Within.of_inMode {mode : Bool} (h : (t.inMode mode).Within i j) : t.Within i j := by
  induction h with
  | self i => exact .self i
  | part he hmem _ ih => exact .part he hmem ih

theorem NullFree.inMode (h : t.NullFree i) (mode : Bool) : (t.inMode mode).NullFree i :=
  fun j ty hj => h j ty hj.of_inMode

/-- A cast stays one in a larger table, provided that null stays acceptable or the source has none. -/
theorem Rooted.casts_of_keeps (ht : t.Rooted) (ht₁ : t₁.Rooted) (hk : t.Keeps t₁)
    (hmode : t.nullCasts = true → t₁.nullCasts = true ∨ t.NullFree i) (hi : i < t.size)
    (hj : j < t.size) (h : t.Casts i j) : t₁.Casts i j := by
  induction i using Nat.strong_induction_on generalizing j with
  | _ i ih =>
    obtain ⟨s, hs⟩ := exists_get? hi
    obtain ⟨d, hd⟩ := exists_get? hj
    rw [ht₁.casts_iff (hk.get? hs) (hk.get? hd)]
    rw [ht.casts_iff hs hd] at h
    refine h.imp_right fun h => h.imp_right (Or.imp_right fun h => ⟨fun hn => ?_, ?_⟩)
    · refine (h.1 hn).imp_right fun hon => (hmode hon).resolve_right fun hfree => ?_
      exact Bool.false_ne_true ((hfree i s (.self i) hs).symm.trans hn)
    · refine h.2.imp_right fun h => h.mono fun a ha b hb hab => ?_
      have hlt := embedded_lt_of_get? hs ha
      refine ih a hlt (fun hon => (hmode hon).imp_right fun hfree => hfree.part hs ha)
        (hlt.trans hi) ((embedded_lt_of_get? hd hb).trans hj) hab

/-- Accepting null for any value only adds casts, between types and between unions; and from a type
without null it adds none, whatever the target. -/
theorem canCast_inMode (h : Reachable ok t) :
    (∀ i < t.size, ∀ j < t.size,
      (t.inMode false).canCast i j = .ok true → (t.inMode true).canCast i j = .ok true) ∧
    (∀ u v : UnionType, (∀ a ∈ u.members, a < t.size) → (∀ b ∈ v.members, b < t.size) →
      u.canCast v (t.inMode false) = .ok true → u.canCast v (t.inMode true) = .ok true) ∧
    (∀ i < t.size, ∀ j < t.size, t.NullFree i →
      ∃ b, ∀ mode, (t.inMode mode).canCast i j = .ok b) := by
  have ht := fun mode => h.rooted.inMode mode
  have hstrict : ∀ i < t.size, ∀ j < t.size,
      (t.inMode false).Casts i j → (t.inMode true).Casts i j := fun i hi j hj =>
    (ht false).casts_of_keeps (ht true) (fun _ _ => id) (fun _ => .inl rfl) hi hj
  refine ⟨hstrict, fun u v hu hv hcast => ?_, fun i hi j hj hfree => ?_⟩
  · refine (UnionType.decides_canCast (ht true) hu hv).iff.2 ?_
    refine ((UnionType.decides_canCast (ht false) hu hv).iff.1 hcast).mono ?_
    exact fun a ha b hb => hstrict a (hu a ha) b (hv b hb)
  · obtain ⟨b, hb⟩ := (ht false).exists_canCast hi hj
    obtain ⟨b', hb'⟩ := (ht true).exists_canCast hi hj
    have hsame : b = true ↔ b' = true := by
      constructor
      · rintro rfl
        exact Except.ok.inj (hb'.symm.trans (hstrict i hi j hj hb))
      · rintro rfl
        refine Except.ok.inj (hb.symm.trans ?_)
        exact (ht true).casts_of_keeps (ht false) (fun _ _ => id) (fun _ => .inr (hfree.inMode true))
          hi hj hb'
    obtain rfl : b = b' := Bool.eq_iff_iff.2 hsame
    exact ⟨b, Bool.rec hb hb'⟩

/-- In both modes an integer is accepted where a floating point number is expected and rejected
where a text is. -/
theorem canCast_inMode_int : ∃ t, Reachable (fun _ => True) t ∧
    (t.inMode true).canCast NativeKind.int.id NativeKind.float.id = .ok true ∧
    (UnionType.native .int).canCast (.native .float) (t.inMode true) = .ok true ∧
    ∀ mode, (t.inMode mode).canCast NativeKind.int.id NativeKind.string.id = .ok false := by
  obtain ⟨t, h⟩ : ∃ t, Reachable (fun _ => True) t := ⟨initial false, false, .refl⟩
  obtain ⟨hcast, hunion, hfree⟩ := canCast_inMode h
  have hlt := h.rooted.native_lt_size
  have ht := h.rooted.inMode false
  have hfloat : (t.inMode false).Casts NativeKind.int.id NativeKind.float.id :=
    (ht.casts_iff (ht.get?_native .int) (ht.get?_native .float)).2
      (.inr (.inr (.inr ⟨nofun, .inr rfl⟩)))
  have hin : ∀ k : NativeKind, ∀ a ∈ (UnionType.native k).members, a < t.size := fun k => by
    simpa [UnionType.members_native] using hlt k
  have hnone : t.NullFree NativeKind.int.id := by
    have hint := h.rooted.get?_native .int
    intro j ty hj hty
    cases hj with
    | self =>
      rw [hint] at hty
      cases hty
      rfl
    | part he hmem _ =>
      rw [get?_eq he] at hint
      rw [(Option.some.inj hint : _ = Ty.mk _ _)] at hmem
      cases hmem
  refine ⟨t, h, hcast _ (hlt .int) _ (hlt .float) hfloat, ?_, ?_⟩
  · refine hunion _ _ (hin .int) (hin .float) ?_
    refine (UnionType.decides_canCast ht (hin .int) (hin .float)).iff.2 (.inr (.inr ?_))
    exact ⟨_, by decide, _, by decide, hfloat⟩
  · obtain ⟨b, hb⟩ := hfree _ (hlt .int) _ (hlt .string) hnone
    have hstring := (ht.decides_canCast (ht.get?_native .int) (ht.get?_native .string)).not <| by
      simp [Permits, Ty.isNative, Ty.native?, NativeKind.id, TypeKind.Casts, castsKind, nativeCasts]
    rwa [Except.ok.inj ((hb false).symm.trans hstring)] at hb

/-! ### Variants with null -/

/-- A request leaves the mode as it is. -/
theorem nullCasts_run {r : TypeRequest} (h : r.run t = .ok (i, t₁)) : t₁.nullCasts = t.nullCasts := by
  rcases TypeRequest.run_cases h with rfl | ⟨kind, nullable, h, -⟩
  · rfl
  · rcases TypeM.intern_cases h with ⟨-, rfl⟩ | ⟨-, -, -, -, hmode⟩
    · rfl
    · exact hmode

theorem Reachable.mono {ok' : TypeKind → Prop} (hok : ∀ kind, ok kind → ok' kind)
    (h : Reachable ok t) : Reachable ok' t := by
  obtain ⟨nullCasts, h⟩ := h
  refine ⟨nullCasts, ?_⟩
  induction h with
  | refl => exact .refl
  | step _ hr hrun ih => exact .step ih (fun kind hkind => hok kind (hr kind hkind)) hrun

/-- What the variant of a type with null or without is: a type with a kind that is alike, and the
type itself if that is the variant asked for. -/
structure Variant (t : TypeTable) (d : Ty) (j : TypeId) (nullable : Bool) (k : TypeId) (e : Ty)
    (t₁ : TypeTable) : Prop where
  reachable : Reachable TypeKind.Standard t₁
  keeps : t.Keeps t₁
  mode : t₁.nullCasts = t.nullCasts
  get : t₁.get? k = some e
  null : e.nullable = (nullable && d.kind.acceptsNull)
  kind : d.kind.Alike SameName e.kind
  self : d.nullable = nullable → k = j

/-- Every type has a variant with null and one without. -/
theorem Reachable.exists_variant (h : Reachable TypeKind.Standard t) (hd : t.get? j = some d)
    (nullable : Bool) :
    ∃ k e t₁, TypeM.withNull j nullable t = .ok (k, t₁) ∧ t.Variant d j nullable k e t₁ := by
  have hproper := (h.mono fun _ hkind => hkind.1).proper
  obtain ⟨k, t₁, hrun, hext, ht₁, hfinds⟩ := TypeM.delivers_variant hproper hd nullable
  have hw : t₁.Writable (normalize d.kind nullable) :=
    writable_normalize nullable
      (fun a ha => hext.lt_size ((embedded_lt_of_get? hd ha).trans (lt_size_of_get? hd)))
      (hproper.kinds j d hd).wellNamed
  obtain ⟨e, he, ⟨hnull, -⟩, -, hkind⟩ := ht₁.canonical.alike_of_finds hw hfinds
  obtain ⟨nullCasts, hreach⟩ := h
  refine ⟨k, e, t₁, hrun, ⟨nullCasts, .step (r := .withNull j nullable) hreach nofun hrun⟩,
    hext.keeps, nullCasts_run (r := .withNull j nullable) hrun, he, hnull, hkind, ?_⟩
  rintro rfl
  have hself := ht₁.canonical.finds_get? (hext.keeps.get? hd)
  rw [← ht₁.canonical.normalize_get? (hext.keeps.get? hd)] at hself
  exact Option.some.inj (hfinds.symm.trans hself)

namespace Variant

variable {nullable : Bool} (hv : t.Variant d j nullable k e t₁) (hd : t.get? j = some d)

include hv

theorem isNative_eq (n : NativeKind) : e.isNative n = d.isNative n :=
  Bool.eq_iff_iff.2
    (Ty.isNative_iff.trans ((TypeKind.Alike.native_iff hv.kind).symm.trans Ty.isNative_iff.symm))

include hd

theorem standard : d.kind.Standard ∧ e.kind.Standard :=
  ⟨hv.reachable.get?_ok TypeKind.typeSort_standard (hv.keeps.get? hd),
    hv.reachable.get?_ok TypeKind.typeSort_standard hv.get⟩

/-- The variant with null admits null if the type does. -/
theorem admitsNull (hnull : nullable = true) (h : d.admitsNull = true) : e.admitsNull = true := by
  rw [Ty.admitsNull, Bool.or_eq_true] at h
  rcases h with h | h
  · -- a type with null is its own variant
    have hself := hv.get
    rw [hv.self (h.trans hnull.symm), hv.keeps.get? hd] at hself
    cases hself
    rw [Ty.admitsNull, h, Bool.true_or]
  · rw [Ty.admitsNull, hv.isNative_eq, h, Bool.or_true]

/-- A type casts to its variant, unless it is a literal and the variant another type. -/
theorem decides_canCast (hnull : nullable = true ∨ t.nullCasts = true) :
    Decides (t₁.canCast j k) (¬ (d.kind.IsLiteral ∧ d.nullable ≠ nullable)) := by
  by_cases hsame : d.nullable = nullable
  · rw [hv.self hsame]
    exact ⟨true, t₁.casts_refl j, by simp [hsame]⟩
  have hd₁ := hv.keeps.get? hd
  obtain ⟨hdk, hek⟩ := hv.standard hd
  have hkind : d.kind.Casts t₁.Casts e.kind ↔ ¬ d.kind.IsLiteral :=
    (TypeKind.casts_congr_right hdk hek hv.kind).symm.trans
      (TypeKind.casts_self_iff t₁.casts_refl hdk.1)
  refine (hv.reachable.rooted.decides_canCast hd₁ hv.get).congr ?_
  simp only [ne_eq, hsame, not_false_iff, and_true]
  constructor
  · rintro h hliteral
    rcases h with rfl | h
    · have hself := hv.get
      rw [hd₁] at hself
      cases hself
      exact hsame (hv.null.trans (by rw [hliteral.acceptsNull, Bool.and_true]))
    · rw [Permits, hv.isNative_eq, hliteral.isNative, hliteral.isNative] at h
      simp only [Bool.false_eq_true, false_or] at h
      exact hkind.1 h.2 hliteral
  · intro hliteral
    refine .inr (.inr (.inr ⟨fun h => ?_, .inr (hkind.2 hliteral)⟩))
    exact hnull.imp (fun hnull => hv.admitsNull hd hnull h) fun hon => hv.mode.trans hon

/-- What casts to another type casts to the variant with null of that type. -/
theorem permits (hnull : nullable = true) (h : t₁.Permits s d) : t₁.Permits s e := by
  obtain ⟨hdk, hek⟩ := hv.standard hd
  rw [Permits, hv.isNative_eq, ← TypeKind.casts_congr_right hdk hek hv.kind]
  exact h.imp_right (Or.imp_right (And.imp_left fun h hs =>
    (h hs).imp_left (hv.admitsNull hd hnull)))

end Variant

/-- What casts to a type casts to the variant of the type with null as well, unless it is that type
and a literal; and where null is accepted for any value, a type casts to its variant without null,
unless it is a literal with null. -/
theorem canCast_withNull (h : Reachable TypeKind.Standard t) (hd : t.get? j = some d) :
    (∀ mode, ∃ k t₁, TypeM.withNull j true (t.inMode mode) = .ok (k, t₁) ∧
      ∀ i < t.size, (t.inMode mode).canCast i j = .ok true →
        Decides (t₁.canCast i k) (¬ (i = j ∧ d.kind.IsLiteral ∧ d.nullable = false))) ∧
    ∃ k t₁, TypeM.withNull j false (t.inMode true) = .ok (k, t₁) ∧
      Decides (t₁.canCast j k) (¬ (d.kind.IsLiteral ∧ d.nullable = true)) := by
  have hmode : ∀ mode, (t.inMode mode).get? j = some d := fun _ => hd
  refine ⟨fun mode => ?_, ?_⟩
  · obtain ⟨k, e, t₁, hrun, hv⟩ := (h.inMode mode).exists_variant (hmode mode) true
    refine ⟨k, t₁, hrun, fun i hi hcast => ?_⟩
    by_cases hij : i = j
    · rw [hij]
      exact (hv.decides_canCast hd (.inl rfl)).congr (by simp)
    · have ht₁ := hv.reachable.rooted
      obtain ⟨s, hs⟩ := exists_get? (t := t.inMode mode) hi
      have hkept := (h.inMode mode).rooted.casts_of_keeps ht₁ hv.keeps
        (fun hon => .inl (hv.mode.trans hon)) hi (lt_size_of_get? (hmode mode)) hcast
      rw [ht₁.casts_iff (hv.keeps.get? hs) (hv.keeps.get? (hmode mode))] at hkept
      refine (ht₁.decides_canCast (hv.keeps.get? hs) hv.get).congr (iff_of_true (.inr ?_) ?_)
      · exact hv.permits hd rfl (hkept.resolve_left hij)
      · exact fun h => hij h.1
  · obtain ⟨k, e, t₁, hrun, hv⟩ := (h.inMode true).exists_variant (hmode true) false
    exact ⟨k, t₁, hrun, (hv.decides_canCast hd (.inr rfl)).congr (by simp)⟩

/-- What casts to the integers casts to the integers and null. -/
theorem canCast_withNull_int : ∃ t k t₁, Reachable TypeKind.Standard t ∧
    TypeM.withNull NativeKind.int.id true t = .ok (k, t₁) ∧
    t₁.canCast NativeKind.int.id k = .ok true := by
  obtain ⟨t, h⟩ : ∃ t, Reachable TypeKind.Standard t := ⟨initial false, false, .refl⟩
  have hint := h.rooted.get?_native .int
  obtain ⟨k, t₁, hrun, hcast⟩ := (canCast_withNull h hint).1 false
  refine ⟨t.inMode false, k, t₁, h.inMode false, hrun, ?_⟩
  exact (hcast _ (lt_size_of_get? hint) (casts_refl _ _)).iff.2 fun hliteral => hliteral.2.1

/-- There is a table with a literal. -/
theorem exists_intLiteral (n : Int) : ∃ t i, Reachable TypeKind.Standard t ∧
    t.get? i = some ⟨.intLiteral n, false⟩ := by
  have hok : (TypeKind.intLiteral n).Standard := ⟨trivial, nofun⟩
  have hin : ∀ e ∈ (TypeKind.intLiteral n).embedded, e < (initial false).size := nofun
  obtain ⟨i, t, hrun, hgrows, hfinds⟩ :=
    TypeM.intern_spec (canonical_initial false) false hok.1.wellNamed hok hin
  have h : Reachable TypeKind.Standard t := by
    refine ⟨false, .step (r := .intern (.intLiteral n) false) .refl ?_ hrun⟩
    rintro _ ⟨⟩
    exact hok
  have hw : t.Writable (normalize (.intLiteral n) false) :=
    writable_normalize false (fun e he => hgrows.keeps.lt_size (hin e he)) hok.1.wellNamed
  obtain ⟨⟨kind, nullable⟩, hi, ⟨hnull, hkind⟩, -⟩ := hgrows.canonical.alike_of_finds hw hfinds
  obtain rfl : nullable = false := hnull
  obtain rfl : kind = .intLiteral n := by
    cases kind with
    | intLiteral m => rw [show m = n from hkind]
    | _ => cases hkind
  exact ⟨t, i, h, hi⟩

/-- The literal one casts to itself, and not to its variant with null. -/
theorem not_canCast_withNull_one : ∃ t i k t₁, Reachable TypeKind.Standard t ∧
    t.get? i = some ⟨.intLiteral 1, false⟩ ∧ t.canCast i i = .ok true ∧
    TypeM.withNull i true t = .ok (k, t₁) ∧ t₁.canCast i k = .ok false := by
  obtain ⟨t, i, h, hi⟩ := exists_intLiteral 1
  obtain ⟨k, e, t₁, hwith, hv⟩ := h.exists_variant hi true
  refine ⟨t, i, k, t₁, h, hi, t.casts_refl i, hwith, ?_⟩
  exact (hv.decides_canCast hi (.inl rfl)).not fun h => h ⟨trivial, Bool.false_ne_true⟩

end TypeTable

end UnionInference
