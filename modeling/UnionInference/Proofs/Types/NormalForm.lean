import UnionInference.Proofs.Types.Grammar
import UnionInference.Proofs.Types.Listing
import UnionInference.Proofs.Types.Replacing
import UnionInference.Proofs.Types.RoundTrip

/-!
The normal form of texts. What is read from a text is written in a text that is read as the same
union, unless writing puts more brackets around it than may nest. The grammar is judged by what can
be written and read back, and by how many levels that takes. Writing takes more levels than the text
that was read in two places only: where an array of callable types without a result was read without
brackets around the callable type, and where the result of a callable type was read as several
arrays from one pair of brackets. Names are identifiers throughout; a class whose name is written
like a class with an argument is not read back by its text.
-/

namespace UnionInference

/-! ### Levels of unions with the same members -/

namespace UnionType

variable {u v : UnionType} {f : TypeId → Nat}

theorem SameMembers.unionLevels_eq (h : u.SameMembers v) :
    TypeTable.unionLevels f u = TypeTable.unionLevels f v := by
  have hdeepest : deepest (u.members.map f) = deepest (v.members.map f) :=
    Nat.le_antisymm (deepest_map_le.2 fun i hi => deepest_map_le.1 (Nat.le_refl _) i ((h i).1 hi))
      (deepest_map_le.2 fun i hi => deepest_map_le.1 (Nat.le_refl _) i ((h i).2 hi))
  rw [TypeTable.unionLevels, TypeTable.unionLevels, hdeepest]

theorem SameMembers.resultLevels_eq (h : u.SameMembers v) :
    TypeTable.resultLevels f u = TypeTable.resultLevels f v := by
  have hlen := h.perm.length_eq
  rw [TypeTable.resultLevels.eq_def, TypeTable.resultLevels.eq_def, h.unionLevels_eq]
  -- only the number of members decides whether a result stands in brackets
  rcases hu : u.members with _ | ⟨i, _ | ⟨i', is⟩⟩ <;>
    rcases hv : v.members with _ | ⟨j, _ | ⟨j', js⟩⟩ <;>
    first
      | rfl
      | simp [hu, hv] at hlen
  have hij := (h i).1 (by simp [hu])
  rw [hv, List.mem_singleton] at hij
  rw [hij]

theorem resultLevels_le_unionLevels (f : TypeId → Nat) (u : UnionType) :
    TypeTable.resultLevels f u ≤ TypeTable.unionLevels f u := by
  rw [TypeTable.resultLevels.eq_def]
  split
  · exact Nat.zero_le _
  · next i hi => simp [TypeTable.unionLevels, hi, deepest]
  · exact Nat.le_refl _

end UnionType

namespace TypeKind

/-- A kind whose text can be read back wherever names are taken to be fully qualified. -/
def Absolute (kind : TypeKind) : Prop := kind.WellFormed ∧ ∀ s, kind ≠ .template s

theorem Alike.wellFormed : ∀ {a b : TypeKind}, a.Alike SameName b → b.WellFormed → a.WellFormed
  | .native _, .native _, _, _ => trivial
  | .object _ _, .object _ _, h, hb => by
    refine ⟨QualifiedName.WellFormed.of_foldedText_eq h.1 hb.1, fun u hu => ?_⟩
    obtain ⟨v, hv, huv⟩ := exists_of_forall₂ h.2 hu
    exact fun hnil => hb.2 v hv (List.perm_nil.1 (hnil ▸ huv.symm.perm))
  | .array .., .array .., _, _ => trivial
  | .shape fs, .shape gs, h, hb => by
    have hkeys : fs.map Prod.fst = gs.map Prod.fst :=
      TypeTable.map_eq_of_forall₂ (fun _ _ hxy => hxy.1) h
    refine ⟨by rw [hkeys]; exact hb.1, fun f hf => ?_⟩
    obtain ⟨g, hg, hfg⟩ := exists_of_forall₂ h hf
    refine ⟨by rw [hfg.1]; exact (hb.2 g hg).1, fun hnil => (hb.2 g hg).2 ?_⟩
    exact List.perm_nil.1 (hnil ▸ hfg.2.2.symm.perm)
  | .intLiteral _, .intLiteral _, h, hb => by rwa [show _ = _ from h]
  | .stringLiteral _, .stringLiteral _, _, _ => trivial
  | .callable _, .callable _, _, _ => trivial
  | .template _, .template _, h, hb => by rwa [show _ = _ from h]

theorem kindProperty_absolute : TypeTable.KindProperty Absolute where
  alike h hb := ⟨h.wellFormed hb.1, fun s hs => hb.2 s (h.template_iff.1 hs)⟩
  mixed := ⟨trivial, fun _ h => by cases h⟩

end TypeKind

namespace TypeTable

variable {t t₁ : TypeTable} {ty : Ty} {kind : TypeKind} {i j : TypeId} {n : Nat} {u v : UnionType}

/-- Kinds that are alike take as many levels. -/
theorem Canonical.kindLevels_eq (hc : t.Canonical) {R : ClassName → ClassName → Prop} :
    ∀ {a b : TypeKind}, a.Alike R b → t.kindLevels t.levels a = t.kindLevels t.levels b
  | .native _, .native _, _ | .intLiteral _, .intLiteral _, _
  | .stringLiteral _, .stringLiteral _, _ | .template _, .template _, _ => rfl
  | .object _ _, .object _ _, h => by
    rw [kindLevels, kindLevels, map_eq_of_forall₂ (fun _ _ huv => huv.unionLevels_eq) h.2]
  | .array .., .array .., h => by rw [h.1, h.2]
  | .shape fs, .shape gs, h => by
    rw [kindLevels, kindLevels, map_eq_of_forall₂ (f := fun f => unionLevels t.levels f.2.type)
      (fun _ _ hxy => hxy.2.2.unionLevels_eq) h]
  | .callable r, .callable s, h => by
    have hparams : r.params.map (fun p => unionLevels t.levels p.type) =
        s.params.map fun p => unionLevels t.levels p.type := by
      refine map_eq_of_forall₂ (fun p q hpq => ?_) h.2.1
      rw [← TypeParser.unionLevels_orMixed hc p.type, hpq.1.unionLevels_eq,
        TypeParser.unionLevels_orMixed hc]
    rw [kindLevels, kindLevels, hparams, h.2.2.resultLevels_eq]

/-! ### Where writing takes more levels -/

/-- Writing puts brackets into the kind that reading does not ask for: around a callable type that
is the element of an array and has no result, or around a result of several arrays, which may have
been read from one pair of brackets. -/
def Regroups (t : TypeTable) : TypeKind → Prop
  | .array .mixed i => ∃ sig, t.get? i = some ⟨.callable sig, false⟩ ∧ sig.result.members = []
  | .callable sig => 2 ≤ sig.result.members.length ∧ ∀ i ∈ sig.result.members, t.IsArrayAt i
  | _ => False

theorem Regroups.alike {R : ClassName → ClassName → Prop} :
    ∀ {a b : TypeKind}, a.Alike R b → t.Regroups b → t.Regroups a
  | .array .., .array .., h, hb => by rwa [h.1, h.2]
  | .callable _, .callable _, h, hb => by
    refine ⟨by rw [h.2.2.perm.length_eq]; exact hb.1, fun i hi => hb.2 i ((h.2.2 i).1 hi)⟩
  | .native _, .native _, _, hb | .object .., .object .., _, hb | .shape _, .shape _, _, hb
  | .intLiteral _, .intLiteral _, _, hb | .stringLiteral _, .stringLiteral _, _, hb
  | .template _, .template _, _, hb => hb.elim

theorem Keeps.get?_eq (h : t.Keeps t₁) (hi : i < t.size) : t₁.get? i = t.get? i := by
  obtain ⟨ty, hty⟩ := exists_get? hi
  rw [hty, h.get? hty]

theorem Keeps.regroups_iff (h : t.Keeps t₁) (hin : ∀ e ∈ kind.embedded, e < t.size) :
    t₁.Regroups kind ↔ t.Regroups kind := by
  cases kind with
  | array key i =>
    have hi := h.get?_eq (hin i (by simp [TypeKind.embedded]))
    cases key <;> simp only [Regroups, hi]
  | callable sig =>
    refine and_congr_right' (forall₂_congr fun i hi => ?_)
    rw [IsArrayAt, IsArrayAt, h.get?_eq (hin i (List.mem_append_right _ hi))]
  | _ => rfl

/-- Somewhere inside of the type there is a kind into which writing puts such brackets. -/
def Regrouped (t : TypeTable) (i : TypeId) : Prop :=
  ∃ j ty, t.Within i j ∧ t.get? j = some ty ∧ t.Regroups ty.kind

theorem regrouped_iff (hty : t.get? i = some ty) :
    t.Regrouped i ↔ t.Regroups ty.kind ∨ ∃ e ∈ ty.kind.embedded, t.Regrouped e := by
  obtain ⟨e, he, rfl⟩ := Option.map_eq_some_iff.1 hty
  constructor
  · rintro ⟨j, ty, hwithin, hj, hr⟩
    cases hwithin with
    | self => rw [hty] at hj; cases hj; exact .inl hr
    | part he' hmem hwithin =>
      rw [he] at he'
      cases he'
      exact .inr ⟨_, hmem, j, ty, hwithin, hj, hr⟩
  · rintro (hr | ⟨e, hmem, j, ty, hwithin, hj, hr⟩)
    · exact ⟨i, _, .self i, hty, hr⟩
    · exact ⟨j, ty, .part he hmem hwithin, hj, hr⟩

theorem Keeps.regrouped_iff (h : t.Keeps t₁) (hi : i < t.size) :
    t₁.Regrouped i ↔ t.Regrouped i := by
  induction i using Nat.strong_induction_on with
  | _ i ih =>
    obtain ⟨ty, hty⟩ := exists_get? hi
    have hlt : ∀ e ∈ ty.kind.embedded, e < i := fun e he => embedded_lt_of_get? hty he
    rw [TypeTable.regrouped_iff hty, TypeTable.regrouped_iff (h.get? hty),
      h.regroups_iff fun e he => (hlt e he).trans hi]
    refine or_congr_right (exists_congr fun e => and_congr_right fun he => ?_)
    exact ih e (hlt e he) ((hlt e he).trans hi)

theorem Canonical.not_regrouped_native (hc : t.Canonical) (k : NativeKind) :
    ¬ t.Regrouped k.id := by
  rw [regrouped_iff (get?_eq (hc.natives k))]
  simp [Regroups, TypeKind.embedded]

/-! ### Levels that are enough -/

theorem levels_eq_kindLevels (hty : t.get? i = some ty) :
    t.levels i = t.kindLevels t.levels ty.kind := by
  obtain ⟨e, he, rfl⟩ := Option.map_eq_some_iff.1 hty
  exact levels_eq he

theorem Keeps.kindLevels_eq (h : t.Keeps t₁) (hin : ∀ e ∈ kind.embedded, e < t.size)
    (f : TypeId → Nat) : t₁.kindLevels f kind = t.kindLevels f kind := by
  cases kind with
  | array key i =>
    have hparens : t₁.needsParens i = t.needsParens i := by
      rw [needsParens, needsParens, h.get?_eq (hin i (by simp [TypeKind.embedded]))]
    cases key <;> simp only [kindLevels, hparens]
  | _ => rfl

theorem Keeps.levels_eq (h : t.Keeps t₁) (hi : i < t.size) : t₁.levels i = t.levels i := by
  induction i using Nat.strong_induction_on with
  | _ i ih =>
    obtain ⟨ty, hty⟩ := exists_get? hi
    have hlt : ∀ e ∈ ty.kind.embedded, e < i := fun e he => embedded_lt_of_get? hty he
    rw [levels_eq_kindLevels hty, levels_eq_kindLevels (h.get? hty),
      h.kindLevels_eq fun e he => (hlt e he).trans hi]
    exact kindLevels_congr fun e he => ih e (hlt e he) ((hlt e he).trans hi)

/-- The text of the type takes no more levels, or it has brackets that reading does not ask for. -/
def Fits (t : TypeTable) (n : Nat) (i : TypeId) : Prop := t.levels i ≤ n ∨ t.Regrouped i

/-- The text of the kind takes no more levels, or it has brackets that reading does not ask for. -/
def FitsKind (t : TypeTable) (n : Nat) (kind : TypeKind) : Prop :=
  t.kindLevels t.levels kind ≤ n ∨ t.Regroups kind ∨ ∃ e ∈ kind.embedded, t.Regrouped e

theorem fits_iff (hty : t.get? i = some ty) : t.Fits n i ↔ t.FitsKind n ty.kind := by
  rw [Fits, FitsKind, levels_eq_kindLevels hty, regrouped_iff hty]

theorem Fits.mono {m : Nat} (h : t.Fits n i) (hnm : n ≤ m) : t.Fits m i :=
  h.imp_left fun h => h.trans hnm

theorem Keeps.fits_iff (h : t.Keeps t₁) (hi : i < t.size) : t₁.Fits n i ↔ t.Fits n i := by
  rw [Fits, Fits, h.levels_eq hi, h.regrouped_iff hi]

theorem Keeps.fitsKind_iff (h : t.Keeps t₁) (hin : ∀ e ∈ kind.embedded, e < t.size) :
    t₁.FitsKind n kind ↔ t.FitsKind n kind := by
  have hlevels : t₁.kindLevels t₁.levels kind = t.kindLevels t.levels kind :=
    (h.kindLevels_eq hin _).trans (kindLevels_congr fun e he => h.levels_eq (hin e he))
  rw [FitsKind, FitsKind, hlevels, h.regroups_iff hin]
  refine or_congr_right (or_congr_right (exists_congr fun e => and_congr_right fun he => ?_))
  exact h.regrouped_iff (hin e he)

theorem Canonical.fitsKind_of_alike (hc : t.Canonical) {a b : TypeKind} (h : a.Alike SameName b)
    (hb : t.FitsKind n b) : t.FitsKind n a := by
  rcases hb with hb | hb | ⟨e, he, hr⟩
  · exact .inl (by rwa [hc.kindLevels_eq h])
  · exact .inr (.inl (hb.alike h))
  · rcases (h.symm fun _ _ => Eq.symm).mem_embedded he with he | rfl
    · exact .inr (.inr ⟨e, he, hr⟩)
    · exact absurd hr (hc.not_regrouped_native .mixed)

/-- The type can be read back from its text, and the levels are enough for that. -/
structure Spelt (t : TypeTable) (n : Nat) (i : TypeId) : Prop where
  absolute : t.Everywhere TypeKind.Absolute i
  fits : t.Fits n i

theorem Spelt.mono {m : Nat} (h : t.Spelt n i) (hnm : n ≤ m) : t.Spelt m i :=
  ⟨h.absolute, h.fits.mono hnm⟩

theorem Spelt.lt_size (h : t.Spelt n i) : i < t.size := h.absolute.lt_size

theorem Spelt.keeps (h : t.Spelt n i) (hk : t.Keeps t₁) : t₁.Spelt n i :=
  ⟨(hk.everywhere_iff h.lt_size).2 h.absolute, (hk.fits_iff h.lt_size).2 h.fits⟩

theorem Canonical.spelt_native (hc : t.Canonical) (k : NativeKind) : t.Spelt n k.id := by
  have hty := get?_eq (hc.natives k)
  refine ⟨.intro hty ⟨trivial, fun _ h => by cases h⟩ (by simp [TypeKind.embedded]), .inl ?_⟩
  rw [levels_eq_kindLevels hty]
  exact Nat.zero_le n

/-- What is found for a kind that can be read back can be read back. -/
theorem Canonical.spelt_of_finds (hc : t.Canonical) {nullable : Bool} (hkind : kind.Absolute)
    (hin : ∀ e ∈ kind.embedded, t.Everywhere TypeKind.Absolute e) (hfits : t.FitsKind n kind)
    (hi : t.Finds (normalize kind nullable) i) : t.Spelt n i := by
  have hw := writable_normalize nullable (fun e he => (hin e he).lt_size) hkind.1.wellNamed
  obtain ⟨found, hfound, hto, -⟩ := hc.alike_of_finds hw hi
  refine ⟨?_, (fits_iff hfound).2 (hc.fitsKind_of_alike hto.2 hfits)⟩
  exact (hc.everywhere_finds TypeKind.kindProperty_absolute hw hi).2 ⟨hkind, hin⟩

/-- A kind fits if it does where neither it nor a part of it has brackets that reading does not ask
for. -/
theorem fitsKind_of (h : (∀ e ∈ kind.embedded, ¬ t.Regrouped e) → ¬ t.Regroups kind →
    t.kindLevels t.levels kind ≤ n) : t.FitsKind n kind := by
  by_cases hpart : ∃ e ∈ kind.embedded, t.Regrouped e
  · exact .inr (.inr hpart)
  · by_cases hself : t.Regroups kind
    · exact .inr (.inl hself)
    · exact .inl (h (fun e he hr => hpart ⟨e, he, hr⟩) hself)

theorem Fits.levels_le (h : t.Fits n i) (hi : ¬ t.Regrouped i) : t.levels i ≤ n :=
  h.resolve_right hi

/-- An array of one more level fits. -/
theorem Fits.array (h : t.Fits n i) (key : KeyKind) : t.FitsKind (n + 1) (.array key i) := by
  refine fitsKind_of fun hpart _ => ?_
  have hi := h.levels_le (hpart i (by simp [TypeKind.embedded]))
  cases key with
  | mixed => rw [kindLevels]; split <;> omega
  | int | string =>
    show 1 + t.levels i ≤ n + 1
    omega

/-- Without a mark for null and without a result to be read after it, a type is made an array
without further brackets. -/
theorem Fits.array_mixed (h : t.Fits n i) (hty : t.get? i = some ⟨kind, false⟩)
    (hcall : ∀ sig, kind = .callable sig → sig.result.members = []) :
    t.FitsKind n (.array .mixed i) := by
  refine fitsKind_of fun hpart hself => ?_
  have hplain : t.needsParens i = false := by
    rw [needsParens, hty]
    cases kind with
    | callable sig => exact absurd ⟨sig, hty, hcall sig rfl⟩ hself
    | _ => rfl
  rw [kindLevels, hplain]
  exact h.levels_le (hpart i (by simp [TypeKind.embedded]))

/-- The result fits behind a callable type without brackets of its own, or it is made of arrays. -/
def FitsResult (t : TypeTable) (n : Nat) (u : UnionType) : Prop :=
  (∃ i, u = .of i) ∨ (∃ m, n = m + 1 ∧ ∀ i ∈ u.members, t.Fits m i) ∨
    ∀ i ∈ u.members, t.IsArrayAt i

/-- Members that are read can be read back; so can a callable type with them as its result. -/
structure SpeltMember (t : TypeTable) (n : Nat) (u : UnionType) : Prop where
  ne_nil : u.members ≠ []
  each : ∀ i ∈ u.members, t.Spelt n i
  result : t.FitsResult n u

theorem unionLevels_le_of_fits {m : Nat} (h : ∀ i ∈ u.members, t.Fits m i)
    (hnot : ∀ i ∈ u.members, ¬ t.Regrouped i) : unionLevels t.levels u ≤ m + 1 :=
  unionLevels_le.2 fun i hi => (h i hi).levels_le (hnot i hi)

theorem SpeltMember.resultLevels_le (h : t.SpeltMember n u)
    (hnot : ∀ i ∈ u.members, ¬ t.Regrouped i)
    (hone : (∀ i ∈ u.members, t.IsArrayAt i) → u.members.length < 2) :
    resultLevels t.levels u ≤ n := by
  rcases h.result with ⟨i, rfl⟩ | ⟨m, rfl, hfits⟩ | harrays
  · have hi := (UnionType.members_of i).symm ▸ List.mem_singleton_self i
    rw [resultLevels.eq_def, UnionType.members_of]
    exact (h.each i hi).fits.levels_le (hnot i hi)
  · exact (UnionType.resultLevels_le_unionLevels _ u).trans (unionLevels_le_of_fits hfits hnot)
  · have hlen := hone harrays
    rw [resultLevels.eq_def]
    split
    · exact Nat.zero_le n
    · next i hi => exact (h.each i (by simp [hi])).fits.levels_le (hnot i (by simp [hi]))
    · next hnil hsingle =>
      obtain ⟨i, is, hm⟩ := List.exists_cons_of_ne_nil hnil
      rw [hm, List.length_cons] at hlen
      obtain rfl : is = [] := List.length_eq_zero_iff.1 (by omega)
      exact absurd hm (hsingle i)

end TypeTable

namespace TypeParser

open TypeTable

/-! ### The judgement -/

/-- What is read can be read back from its text. -/
def spelling : Judgement where
  table t := t.Canonical
  grows t t' := t.Grows TypeKind.WellNamed t'
  union n u t := u.members ≠ [] ∧ ∃ m, n = m + 1 ∧ ∀ i ∈ u.members, t.Spelt m i
  member n u t := t.SpeltMember n u
  element n u t := t.SpeltMember n u ∧ ∀ i ∈ u.members, t.FitsKind n (.array .mixed i)

variable {t : TypeTable} {n : Nat} {i : TypeId} {u v : UnionType} {kind : TypeKind}

theorem steady_spelling : spelling.Steady := ⟨.refl, .trans, fun _ h => h.canonical⟩

theorem spelling_member_of (h : t.Spelt n i) : spelling.member n (.of i) t where
  ne_nil := by simp [UnionType.members_of]
  each j hj := UnionType.mem_of.1 hj ▸ h
  result := .inl ⟨i, rfl⟩

theorem spelling_element_of (h : t.Spelt n i) (hty : t.get? i = some ⟨kind, false⟩)
    (hcall : ∀ sig, kind = .callable sig → sig.result.members = []) :
    spelling.element n (.of i) t :=
  ⟨spelling_member_of h, fun _ hj => UnionType.mem_of.1 hj ▸ h.fits.array_mixed hty hcall⟩

theorem callable_of_alike {R : ClassName → ClassName → Prop} {sig : CallableSignature} :
    ∀ {b : TypeKind}, (TypeKind.callable sig).Alike R b →
      ∃ sig', b = .callable sig' ∧ sig.result.SameMembers sig'.result
  | .callable sig', h => ⟨sig', rfl, h.2.2⟩

/-- A kind that can be read back is made, and stands there as one that is alike. -/
theorem makes_spelt (hc : t.Canonical) (hkind : kind.Absolute)
    (hin : ∀ e ∈ kind.embedded, t.Everywhere TypeKind.Absolute e) (hfits : t.FitsKind n kind) :
    spelling.Makes t (TypeM.intern kind false) fun i t' => t'.Spelt n i ∧
      ∃ found, t'.get? i = some ⟨found, false⟩ ∧ found.Alike SameName kind := by
  have hlt : ∀ e ∈ kind.embedded, e < t.size := fun e he => (hin e he).lt_size
  obtain ⟨i, t', hrun, hg, hi⟩ :=
    TypeM.intern_spec hc false hkind.1.wellNamed hkind.1.wellNamed hlt
  have hk := hg.keeps.keeps
  refine ⟨i, t', hrun, hg, ?_, ?_⟩
  · exact hg.canonical.spelt_of_finds hkind
      (fun e he => (hk.everywhere_iff (hlt e he)).2 (hin e he)) ((hk.fitsKind_iff hlt).2 hfits) hi
  · obtain ⟨⟨found, nullable⟩, hfound, ⟨hnull, halike⟩, -⟩ := hg.canonical.alike_of_finds
      (writable_normalize false (fun e he => hk.lt_size (hlt e he)) hkind.1.wellNamed) hi
    obtain rfl : nullable = false := hnull
    exact ⟨found, hfound, halike⟩

/-- A kind that is no callable type with a result is made and can become the element of an array. -/
theorem makes_element (hc : t.Canonical) (hkind : kind.Absolute)
    (hin : ∀ e ∈ kind.embedded, t.Everywhere TypeKind.Absolute e) (hfits : t.FitsKind n kind)
    (hcall : ∀ sig, kind = .callable sig → sig.result.members = []) :
    spelling.Makes t (TypeM.intern kind false) fun i => spelling.element n (.of i) := by
  obtain ⟨i, t', hrun, hg, hi, found, hfound, halike⟩ := makes_spelt hc hkind hin hfits
  refine ⟨i, t', hrun, hg, spelling_element_of hi hfound ?_⟩
  rintro sig rfl
  obtain ⟨sig', rfl, hsame⟩ := callable_of_alike halike
  exact List.perm_nil.1 (hcall sig' rfl ▸ hsame.perm)

/-- What is made of unions of a level fits into it, or it has brackets that reading does not ask
for. -/
theorem unionLevels_le_of_spelling (h : spelling.union n u t)
    (hnot : ∀ i ∈ u.members, ¬ t.Regrouped i) : unionLevels t.levels u ≤ n := by
  obtain ⟨-, m, rfl, hu⟩ := h
  exact unionLevels_le_of_fits (fun i hi => (hu i hi).fits) hnot

theorem absolute_of_union (h : spelling.union n u t) :
    ∀ i ∈ u.members, t.Everywhere TypeKind.Absolute i := by
  obtain ⟨-, m, rfl, hu⟩ := h
  exact fun i hi => (hu i hi).absolute

theorem spelling_arrays (hc : t.Canonical) (key : KeyKind) (hne : u.members ≠ [])
    (hu : ∀ i ∈ u.members, t.Everywhere TypeKind.Absolute i ∧ t.FitsKind n (.array key i)) :
    spelling.Makes t (u.asArrays key) (spelling.element n) := by
  have hmake := steady_spelling.makes_mapMembers (u := u)
    (P := fun i j t => t.get? j = some ⟨.array key i, false⟩ ∧ t.Spelt n j)
    (fun _ hg h => ⟨hg.keeps.keeps.get? h.1, h.2.keeps hg.keeps.keeps⟩) hc
    (f := fun i => TypeM.array key i false) ?_
  · obtain ⟨v, t', hrun, hg, js, rfl, hjs⟩ := hmake
    have hmem : ∀ j ∈ (UnionType.ofList js).members, ∃ i,
        t'.get? j = some ⟨.array key i, false⟩ ∧ t'.Spelt n j := by
      intro j hj
      obtain ⟨i, -, h⟩ := exists_of_forall₂ hjs.flip (UnionType.mem_ofList.1 hj)
      exact ⟨i, h⟩
    refine ⟨_, t', hrun, hg, ⟨ofList_ne_nil hjs hne, fun j hj => ?_, .inr (.inr fun j hj => ?_)⟩,
      fun j hj => ?_⟩
    · obtain ⟨i, -, h⟩ := hmem j hj
      exact h
    · obtain ⟨i, h, -⟩ := hmem j hj
      exact ⟨_, h, trivial⟩
    · obtain ⟨i, hty, h⟩ := hmem j hj
      exact h.fits.array_mixed hty fun _ h => by cases h
  · intro i hi t' hc' hg
    have hk := hg.keeps.keeps
    have hlt := (hu i hi).1.lt_size
    have hin : ∀ e ∈ (TypeKind.array key i).embedded, t'.Everywhere TypeKind.Absolute e := by
      intro e he
      rw [List.mem_singleton.1 he]
      exact (hk.everywhere_iff hlt).2 (hu i hi).1
    have hfits : t'.FitsKind n (.array key i) := by
      refine (hk.fitsKind_iff fun e he => ?_).2 (hu i hi).2
      rwa [List.mem_singleton.1 he]
    have habsolute : (TypeKind.array key i).Absolute := ⟨trivial, fun _ h => by cases h⟩
    obtain ⟨j, t'', hrun, hg', hj, found, hfound, halike⟩ := makes_spelt hc' habsolute hin hfits
    refine ⟨j, t'', hrun, hg', ?_, hj⟩
    match found, halike with
    | .array _ _, ⟨rfl, rfl⟩ => exact hfound

/-- The variant with null is asked for where it says something. -/
theorem makes_withNull (hc : t.Canonical) (hi : i < t.size) :
    spelling.Makes t (TypeM.withNull i true) fun j t' => t'.WithNull true i j := by
  obtain ⟨ty, hty⟩ := exists_get? hi
  have hw := hc.writable_get? hty
  obtain ⟨e, he, rfl⟩ := Option.map_eq_some_iff.1 hty
  have hfetch : TypeM.fetch i t = .ok (e.type, t) := TypeM.fetch_eq_ok.2 ⟨rfl, e, he, rfl⟩
  by_cases hself : (e.type.nullable == true || !e.type.kind.acceptsNull) = true
  · refine ⟨i, t, TypeM.bind_eq_ok.2 ⟨e.type, t, hfetch, by rw [if_pos hself]; rfl⟩, .refl hc, ?_⟩
    have hnormal : TypeTable.normalize e.type.kind (e.type.nullable || true) = e.type := by
      rw [← hc.normalize_get? hty, TypeTable.normalize, TypeTable.normalize]
      simp only [Ty.mk.injEq, true_and]
      revert hself
      cases e.type.nullable <;> cases e.type.kind.acceptsNull <;> decide
    refine (withNull_iff hty).2 ?_
    rw [hnormal]
    exact hc.finds_get? hty
  · obtain ⟨j, t', hrun, hg, hj⟩ := TypeM.intern_spec hc true hw.named hw.named hw.inside
    refine ⟨j, t', TypeM.bind_eq_ok.2 ⟨e.type, t, hfetch, by rwa [if_neg hself]⟩, hg, ?_⟩
    refine (withNull_iff (hg.keeps.keeps.get? hty)).2 ?_
    rwa [Bool.or_true]

theorem spelt_withNull (hc : t.Canonical) {b : Bool} {j : TypeId} (hij : t.WithNull b i j)
    (h : t.Spelt n i) : t.Spelt n j := by
  obtain ⟨ty, hty, hj⟩ := hij
  obtain ⟨hkind, hin⟩ := (everywhere_iff hty).1 h.absolute
  exact hc.spelt_of_finds hkind hin ((fits_iff hty).1 h.fits) hj

theorem isArrayAt_withNull (hc : t.Canonical) {b : Bool} {j : TypeId} (hij : t.WithNull b i j)
    (h : t.IsArrayAt i) : t.IsArrayAt j := by
  obtain ⟨ty, hty, hj⟩ := hij
  obtain ⟨ty', hty', harray⟩ := h
  rw [hty] at hty'
  cases hty'
  have hw := hc.writable_get? hty
  obtain ⟨found, hfound, hto, -⟩ :=
    hc.alike_of_finds (writable_normalize _ hw.inside hw.named) hj
  exact ⟨found, hfound, hto.2.isArray_iff.2 harray⟩

theorem spelling_nullable (hc : t.Canonical) (h : spelling.member n u t) :
    spelling.Makes t u.withNull (spelling.member n) := by
  have hmake := steady_spelling.makes_mapMembers (u := u) (P := fun i j t => t.WithNull true i j)
    (fun hc hg h => h.extends hc hg.keeps) hc (f := fun i => TypeM.withNull i true)
    fun i hi t' hc' hg => makes_withNull hc' (hg.keeps.keeps.lt_size (h.each i hi).lt_size)
  obtain ⟨v, t', hrun, hg, js, rfl, hjs⟩ := hmake
  have hc' := hg.canonical
  have hk := hg.keeps.keeps
  have hmem : ∀ j ∈ (UnionType.ofList js).members, ∃ i ∈ u.members, t'.WithNull true i j :=
    fun j hj => exists_of_forall₂ hjs.flip (UnionType.mem_ofList.1 hj)
  refine ⟨_, t', hrun, hg, ⟨ofList_ne_nil hjs h.ne_nil, fun j hj => ?_, ?_⟩⟩
  · obtain ⟨i, hi, hij⟩ := hmem j hj
    exact spelt_withNull hc' hij ((h.each i hi).keeps hk)
  · rcases h.result with ⟨i, rfl⟩ | ⟨m, rfl, hfits⟩ | harrays
    · rw [UnionType.members_of] at hjs
      cases hjs with
      | cons _ hnil => cases hnil; exact .inl ⟨_, rfl⟩
    · refine .inr (.inl ⟨m, rfl, fun j hj => ?_⟩)
      obtain ⟨i, hi, hij⟩ := hmem j hj
      exact (spelt_withNull hc' hij (Spelt.keeps ⟨(h.each i hi).absolute, hfits i hi⟩ hk)).fits
    · refine .inr (.inr fun j hj => ?_)
      obtain ⟨i, hi, hij⟩ := hmem j hj
      obtain ⟨ty, hty, harray⟩ := harrays i hi
      exact isArrayAt_withNull hc' hij ⟨ty, hk.get? hty, harray⟩

theorem spelling_object (hc : t.Canonical) {q : ClassName} {args : List UnionType}
    (hq : q.Regular) (hargs : ∀ u ∈ args, spelling.union n u t) :
    spelling.Makes t (TypeM.intern (.object q args) false) fun i => spelling.element n (.of i) := by
  refine makes_element hc ⟨⟨hq.wellFormed, fun u hu => (hargs u hu).1⟩, fun _ h => by cases h⟩
    (fun e he => ?_) (fitsKind_of fun hpart _ => ?_) fun _ h => by cases h
  · obtain ⟨u, hu, heu⟩ := List.mem_flatMap.1 he
    exact absolute_of_union (hargs u hu) e heu
  · refine deepest_map_le.2 fun u hu => unionLevels_le_of_spelling (hargs u hu) fun i hi => ?_
    exact hpart i (List.mem_flatMap.2 ⟨u, hu, hi⟩)

theorem spelling_shape (hc : t.Canonical) {fields : ShapeFields}
    (hnodup : (fields.map Prod.fst).Nodup)
    (hfields : ∀ f ∈ fields, f.1.WellFormed ∧ spelling.union n f.2.type t) :
    spelling.Makes t (TypeM.intern (.shape fields) false) fun i =>
      spelling.element (n + 1) (.of i) := by
  refine makes_element hc
    ⟨⟨hnodup, fun f hf => ⟨(hfields f hf).1, (hfields f hf).2.1⟩⟩, fun _ h => by cases h⟩
    (fun e he => ?_) (fitsKind_of fun hpart _ => ?_) fun _ h => by cases h
  · obtain ⟨f, hf, hef⟩ := List.mem_flatMap.1 he
    exact absolute_of_union (hfields f hf).2 e hef
  · rw [kindLevels, Nat.add_comm, Nat.add_le_add_iff_right, deepest_map_le]
    refine fun f hf => unionLevels_le_of_spelling (hfields f hf).2 fun i hi => ?_
    exact hpart i (List.mem_flatMap.2 ⟨f, hf, hi⟩)

/-- A callable type fits if its result does, where the result is not regrouped. -/
theorem fitsKind_callable {sig : CallableSignature}
    (hparams : ∀ p ∈ sig.params, spelling.union n p.type t)
    (hresult : (∀ i ∈ sig.result.members, ¬ t.Regrouped i) → ¬ t.Regroups (.callable sig) →
      resultLevels t.levels sig.result ≤ n) : t.FitsKind (n + 1) (.callable sig) := by
  refine fitsKind_of fun hpart hself => ?_
  rw [kindLevels, Nat.add_comm, Nat.add_le_add_iff_right, Nat.max_le, deepest_map_le]
  refine ⟨fun p hp => ?_, hresult (fun i hi => hpart i (List.mem_append_right _ hi)) hself⟩
  refine unionLevels_le_of_spelling (hparams p hp) fun i hi => hpart i ?_
  exact List.mem_append_left _ (List.mem_flatMap.2 ⟨p, hp, hi⟩)

theorem spelling_callable (hc : t.Canonical) (isClosure : Bool) {params : List CallableParam}
    (hparams : ∀ p ∈ params, spelling.union n p.type t) :
    spelling.Makes t (TypeM.intern (.callable ⟨isClosure, params, .empty⟩) false) fun i =>
      spelling.element (n + 1) (.of i) := by
  refine makes_element hc ⟨trivial, fun _ h => by cases h⟩ (fun e he => ?_)
    (fitsKind_callable hparams fun _ _ => Nat.zero_le n) fun sig h => ?_
  · obtain ⟨p, hp, hep⟩ := List.mem_flatMap.1 ((List.mem_append.1 he).resolve_right (by simp))
    exact absolute_of_union (hparams p hp) e hep
  · cases h
    rfl

theorem spelling_result (hc : t.Canonical) (isClosure : Bool) {params : List CallableParam}
    (hparams : ∀ p ∈ params, spelling.union n p.type t) (hu : spelling.member n u t) :
    spelling.Makes t (TypeM.intern (.callable ⟨isClosure, params, u⟩) false) fun i =>
      spelling.member (n + 1) (.of i) := by
  have hresult : (∀ i ∈ u.members, ¬ t.Regrouped i) →
      ¬ t.Regroups (.callable ⟨isClosure, params, u⟩) → resultLevels t.levels u ≤ n :=
    fun hpart hself => hu.resultLevels_le hpart fun harrays =>
      Nat.lt_of_not_le fun hlen => hself ⟨hlen, harrays⟩
  have hin : ∀ e ∈ (TypeKind.callable ⟨isClosure, params, u⟩).embedded,
      t.Everywhere TypeKind.Absolute e := by
    intro e he
    rcases List.mem_append.1 he with he | he
    · obtain ⟨p, hp, hep⟩ := List.mem_flatMap.1 he
      exact absolute_of_union (hparams p hp) e hep
    · exact (hu.each e he).absolute
  have hkind : (TypeKind.callable ⟨isClosure, params, u⟩).Absolute :=
    ⟨trivial, fun _ h => by cases h⟩
  obtain ⟨i, t', hrun, hg, hi, -⟩ :=
    makes_spelt hc hkind hin (fitsKind_callable hparams hresult)
  exact ⟨i, t', hrun, hg, spelling_member_of hi⟩

/-- Whatever is read can be read back from its text, in as many levels as it was read in or with
brackets that reading did not ask for. -/
theorem kept_spelling : spelling.Kept where
  toSteady := steady_spelling
  union hg h := by
    obtain ⟨hne, m, rfl, hu⟩ := h
    exact ⟨hne, m, rfl, fun i hi => (hu i hi).keeps hg.keeps.keeps⟩
  single h := ⟨h.ne_nil, _, rfl, h.each⟩
  join hu hv := by
    obtain ⟨hne, m, hm, hu⟩ := hu
    obtain rfl := Nat.succ.inj hm
    refine ⟨fun hnil => hv.ne_nil (List.eq_nil_iff_forall_not_mem.2 fun i hi => ?_), _, rfl, ?_⟩
    · exact List.not_mem_nil (hnil ▸ UnionType.mem_union.2 (.inr hi))
    · exact fun i hi => (UnionType.mem_union.1 hi).elim (hu i) (hv.each i)
  brackets h := by
    obtain ⟨hne, m, rfl, hu⟩ := h
    refine ⟨⟨hne, fun i hi => (hu i hi).mono (Nat.le_succ m), ?_⟩, fun i hi => ?_⟩
    · exact .inr (.inl ⟨m, rfl, fun i hi => (hu i hi).fits⟩)
    · exact (hu i hi).fits.array .mixed
  member h := h.1
  native hc k :=
    spelling_element_of (hc.spelt_native k) (get?_eq (hc.natives k)) fun _ h => by cases h
  intLiteral hc hm := makes_element hc ⟨hm, fun _ h => by cases h⟩ (by simp [TypeKind.embedded])
    (.inl (Nat.zero_le _)) fun _ h => by cases h
  stringLiteral hc s := makes_element hc ⟨trivial, fun _ h => by cases h⟩
    (by simp [TypeKind.embedded]) (.inl (Nat.zero_le _)) fun _ h => by cases h
  object hc hq hargs := spelling_object hc hq hargs
  arrays hc h key := by
    obtain ⟨hne, m, rfl, hu⟩ := h
    exact spelling_arrays hc key hne fun i hi => ⟨(hu i hi).absolute, (hu i hi).fits.array key⟩
  suffix hc h := spelling_arrays hc .mixed h.1.ne_nil fun i hi =>
    ⟨(h.1.each i hi).absolute, h.2 i hi⟩
  shape hc hnodup hfields := spelling_shape hc hnodup hfields
  callable hc hparams := spelling_callable hc _ hparams
  result hc hparams hu := spelling_result hc _ hparams hu
  nullable hc h := spelling_nullable hc h

/-! ### Closures that are written with more brackets -/

/-- An array of closures without brackets around the closure, as the parameter of a row of closures
inside of each other. -/
def nestedClosures : Nat → List Char
  | 0 => (callableWord true).toList ++ ['(', ')', '[', ']']
  | k + 1 => (callableWord true).toList ++ '(' :: (nestedClosures k ++ [')'])

variable {src : Source} {rest : List Char} {ps : List CallableParam}

/-- The union is the one type, and writing it takes so many levels. -/
def AtLevel (n : Nat) (u : UnionType) (t : TypeTable) : Prop :=
  ∃ i, u = .of i ∧ i < t.size ∧ t.levels i = n

theorem atLevel_of_isRead (hc : t.Canonical) (hw : t.Writable ⟨kind, false⟩)
    (h : IsRead kind u t) (hn : t.kindLevels t.levels kind = n) : AtLevel n u t := by
  obtain ⟨i, rfl, hi⟩ := h
  obtain ⟨found, hfound, hto, -⟩ := hc.alike_of_finds hw hi
  refine ⟨i, rfl, hc.lt_size_of_finds hi, ?_⟩
  rw [levels_eq_kindLevels hfound, hc.kindLevels_eq hto.2, hn]

theorem writable_closure (hin : ∀ p ∈ ps, ∀ i ∈ p.type.members, i < t.size) :
    t.Writable ⟨.callable ⟨true, ps, .empty⟩, false⟩ := by
  refine ⟨fun i hi => ?_, by simp, trivial⟩
  obtain ⟨p, hp, hpi⟩ := List.mem_flatMap.1 ((List.mem_append.1 hi).resolve_right (by simp))
  exact hin p hp i hpi

/-- The rest of a closure behind its parameters, where no result follows. -/
theorem reads_closure_end (hc : t.Canonical) {member : ParseM UnionType}
    (hin : ∀ p ∈ ps, ∀ i ∈ p.type.members, i < t.size) (hrest : Dense rest)
    (hcolon : ∀ c ∈ rest.head?, c ≠ ':') :
    Reads src True (do
      let result ← if ← eat [':'] then member else pure .empty
      return .of (← types (TypeM.intern (.callable ⟨true, ps, result⟩) false))) rest rest t
      (IsRead (.callable ⟨true, ps, .empty⟩)) := by
  have hw := writable_closure hin
  refine Reads.after (gives_eat_false hrest hcolon) (Reads.after (gives_pure _) ?_)
  obtain ⟨i, t', hrun, hg, hi⟩ := TypeM.intern_spec hc false hw.named hw.named hw.inside
  exact (Reads.of_gives (Q := fun i t' => t'.Finds ⟨.callable ⟨true, ps, .empty⟩, false⟩ i)
    (gives_types hrun) hg hi).map fun i _ hi => ⟨i, rfl, hi⟩

/-- The text of a member of such closures, after which a parameter can end. -/
theorem nestedClosures_eq_cons (k : Nat) : ∃ cs, nestedClosures k = 'C' :: cs := by
  cases k <;> exact ⟨_, rfl⟩

/-- An array of closures takes two levels to write and one to read. -/
theorem reads_closures (hc : t.Canonical) (hrest : Ends rest) (n : Nat) :
    Reads src True (grammar src (n + 1)).member (nestedClosures 0 ++ rest) rest t (AtLevel 2) := by
  have hatom : Reads src True (atom src (grammar src (n + 1)).union (innerGrammar src (n + 1)))
      (nestedClosures 0 ++ rest) ('[' :: ']' :: rest) t
      (IsRead (.callable ⟨true, [], .empty⟩)) := by
    rw [nestedClosures, List.append_assoc]
    refine Reads.of_run_eq (atom_callable true) ?_
    refine Reads.after (gives_advance '(') (Reads.after (gives_eat_char (by decide)) ?_)
    exact Reads.after (gives_pure []) (reads_closure_end hc (by simp) (by simp [Dense, isSpace])
      (by simp))
  rw [member_grammar]
  obtain ⟨cs, hcs⟩ := nestedClosures_eq_cons 0
  refine (hatom.unmarked.suffix fun u t₁ hg hu => ?_).memberWith hrest
    (by simp [hcs, Dense, isSpace]) (by simp [hcs])
  -- the array is written with brackets around the closure
  have hc₁ := hg.canonical
  obtain ⟨i, rfl, hi⟩ := hu
  obtain ⟨j, hij, hlt, hlevel⟩ := atLevel_of_isRead (n := 1) hc₁ (writable_closure (by simp))
    ⟨i, rfl, hi⟩ rfl
  obtain rfl : i = j := UnionType.mem_of.1 (hij ▸ UnionType.mem_of.2 rfl)
  obtain ⟨⟨found, b⟩, hfound, -, -, halike⟩ := hc₁.alike_of_finds (writable_closure (by simp)) hi
  obtain ⟨sig, rfl, -⟩ := callable_of_alike halike
  refine (reads_arraysOf hc₁ hlt).imp fun v t₂ hg₂ hv => ?_
  refine atLevel_of_isRead hg₂.canonical (writable_array (hg₂.keeps.lt_size hlt) false) hv ?_
  rw [kindLevels, needsParens, hg₂.keeps.keeps.get? hfound, hg₂.keeps.keeps.levels_eq hlt, hlevel]
  rfl

/-- A single member is read as a union where no bar follows. -/
theorem reads_alternatives_one {member : ParseM UnionType} {cs : List Char}
    {Q : UnionType → TypeTable → Prop} (hrest : Closes rest)
    (h : Reads src True member cs rest t Q) : Reads src True (alternatives member) cs rest t Q := by
  refine Reads.of_iff (Reads.bind h fun u t₁ hg hu => Reads.after gives_get ?_)
    (Iff.of_eq (and_true _))
  exact Reads.of_gives (gives_moreMembers hrest _ u) (.refl hg.canonical) hu

/-- A single parameter without marks is read, up to the bracket that closes behind it. -/
theorem reads_params_one {union : ParseM UnionType} {cs : List Char}
    {Q : UnionType → TypeTable → Prop} (hcs : Dense cs) (hmark : ∀ c ∈ cs.head?, c ≠ '&')
    (h : Reads src True union cs (')' :: rest) t Q) (m : Nat) :
    Reads src True (params src union (m + 1)) cs rest t
      fun ps t' => ∃ u, ps = [⟨u, false, false, false⟩] ∧ Q u t' := by
  have hclosed : Dense (')' :: rest) := by simp [Dense, isSpace]
  refine Reads.after (gives_eat_false hcs hmark) (Reads.of_iff (Reads.bind h fun u t₁ hg hu => ?_)
    (Iff.of_eq (and_true _)))
  refine Reads.after (gives_eat_false hclosed (by simp)) ?_
  refine Reads.after (gives_paramName hclosed (by simp)) ?_
  refine Reads.after (gives_eat_false hclosed (by simp)) ?_
  refine Reads.after (gives_eat_char (by decide)) ?_
  exact Reads.of_gives (gives_pure _) (.refl hg.canonical) ⟨u, rfl, hu⟩

/-- Each closure around them takes two more levels, to write and to read. -/
theorem reads_nestedClosures (k : Nat) : ∀ {n : Nat} {t : TypeTable} {rest : List Char},
    2 * k + 1 ≤ n → t.Canonical → Ends rest →
      Reads src True (grammar src n).member (nestedClosures k ++ rest) rest t
        (AtLevel (2 * k + 2)) := by
  induction k with
  | zero =>
    intro n t rest hn hc hrest
    obtain ⟨m, rfl⟩ := Nat.exists_eq_add_of_le' hn
    exact reads_closures hc hrest m
  | succ k ih =>
    intro n t rest hn hc hrest
    obtain ⟨m, rfl⟩ := Nat.exists_eq_add_of_le' ((by omega : 2 ≤ 2 * (k + 1) + 1).trans hn)
    obtain ⟨cs, hcs⟩ := nestedClosures_eq_cons (k + 1)
    obtain ⟨ds, hds⟩ := nestedClosures_eq_cons k
    have htext : nestedClosures (k + 1) ++ rest =
        (callableWord true).toList ++ '(' :: (nestedClosures k ++ ')' :: rest) := by
      simp [nestedClosures]
    have hstart : Dense (nestedClosures k ++ ')' :: rest) ∧
        ∀ d, d ≠ 'C' → ∀ c ∈ (nestedClosures k ++ ')' :: rest).head?, c ≠ d := by
      rw [hds]
      exact ⟨by simp [Dense, isSpace], by simp [eq_comm]⟩
    rw [member_grammar]
    refine ReadsUnmarked.memberWith (Reads.unmarked ?_) hrest
      (by simp [hcs, Dense, isSpace]) (by simp [hcs])
    rw [htext]
    refine Reads.of_run_eq (atom_callable true) (Reads.after (gives_advance '(') ?_)
    refine Reads.after (gives_eat_false hstart.1 (hstart.2 _ (by decide))) ?_
    -- the parameter is read by the grammar two levels further in
    refine Reads.after gives_get (Reads.of_iff (Reads.bind (reads_params_one hstart.1
      (hstart.2 _ (by decide)) (reads_alternatives_one (closes_cons (by decide) (by decide))
        (ih (n := m) (by omega) hc (ends_cons (by decide)))) _) ?_)
      (Iff.of_eq (and_true _)))
    rintro ps t₁ hg ⟨u, rfl, i, rfl, hi, hlevel⟩
    have hin : ∀ p ∈ [CallableParam.mk (.of i) false false false], ∀ j ∈ p.type.members,
        j < t₁.size := by
      simpa [UnionType.members_of] using hi
    refine (reads_closure_end hg.canonical hin hrest.dense (hrest.ne (by decide))).imp ?_
    intro v t₂ hg₂ hv
    have hk := hg₂.keeps.keeps
    refine atLevel_of_isRead hg₂.canonical (writable_closure fun p hp j hj =>
      hk.lt_size (hin p hp j hj)) hv ?_
    rw [kindLevels, List.map_singleton, unionLevels_of, hk.levels_eq hi, hlevel]
    simp [deepest, resultLevels]
    omega

/-- The closures are read where their own levels may nest. -/
theorem parse_nestedClosures (hc : t.Canonical) {k : Nat} (hk : 2 * k + 2 ≤ maxDepth) :
    ∃ u t', UnionType.parseFullyQualified (String.ofList (nestedClosures k)) t = .ok (.ok u, t') ∧
      AtLevel (2 * k + 2) u t' := by
  obtain ⟨cs, hcs⟩ := nestedClosures_eq_cons k
  have hblank : Text.isBlank (String.ofList (nestedClosures k)) = false := by
    rw [hcs, Text.isBlank, String.toList_ofList, List.all_cons, show Text.isBlankChar 'C' = false by
      decide, Bool.false_and]
  have hunion : Reads ⟨.fullyQualified, String.ofList (nestedClosures k)⟩ True
      (grammar _ maxDepth).union (nestedClosures k ++ []) [] t (AtLevel (2 * k + 2)) :=
    reads_alternatives_one closes_nil
      (reads_nestedClosures k (n := maxDepth - 1) (Nat.le_sub_one_of_lt hk) hc ends_nil)
  rw [List.append_nil] at hunion
  obtain ⟨u, t', hgives, hg, hu⟩ := hunion.gives trivial
  have hwhole : Gives (whole ⟨.fullyQualified, String.ofList (nestedClosures k)⟩)
      (String.ofList (nestedClosures k)).toList t u [] t' := by
    rw [String.toList_ofList, Gives, whole, bind_of_gives hgives]
    rfl
  exact ⟨u, t', parse_eq_of_gives hblank hwhole, hu⟩

/-! ### Classes of literals -/

/-- A single atom is read as a union where the union ends behind it. -/
theorem gives_union_of_atom {t₁ : TypeTable} {cs : List Char} {u : UnionType} (hcs : Dense cs)
    (hmark : ∀ c ∈ cs.head?, c ≠ '?') (hrest : Closes rest)
    (h : Gives (atom src (grammar src n).union (innerGrammar src n)) cs t u rest t₁) :
    Gives (grammar src (n + 1)).union cs t u rest t₁ := by
  have hmember : Gives (grammar src n).member cs t u rest t₁ := by
    rw [member_grammar, Gives, memberWith, bind_of_gives (gives_eat_false hcs hmark),
      bind_of_gives h, bind_of_gives gives_get,
      bind_of_gives (gives_arraySuffixes hrest.ends _ _)]
    rfl
  show alternatives (grammar src n).member cs t = _
  rw [alternatives, bind_of_gives hmember, bind_of_gives gives_get]
  exact gives_moreMembers hrest _ u

section

variable {t₁ t₂ : TypeTable} {union : ParseM UnionType} {inner : Option Grammar} {q : ClassName}
  {s : String} {w : List Char} {u : UnionType} {i j : TypeId}

/-- A literal is read where its type is granted, whatever the table holds. -/
theorem gives_stringLiteral (h : TypeM.intern (.stringLiteral s) false t = .ok (i, t₁)) :
    Gives (atom src union inner) ((quote s).toList ++ rest) t (.of i) rest t₁ := by
  rw [Gives, atom_eq_stringLiteral, bind_of_gives (gives_types h)]
  rfl

/-- A class with one argument is read where its type is granted. -/
theorem gives_object_one (hq : q.WellFormed) (hname : QualifiedName.ofFullName q.text = q)
    (hunion : Gives union (w ++ ['>']) t u ['>'] t₁)
    (hclass : TypeM.intern (.object q [u]) false t₁ = .ok (i, t₂)) :
    Gives (atom src union inner) (q.text.toList ++ '<' :: (w ++ ['>'])) t (.of i) [] t₂ := by
  have hlist : Gives (typeList src union) (w ++ ['>']) t [u] [] t₁ := by
    rw [Gives, typeList, bind_of_gives hunion]
    rfl
  have hmake : TypeM.make q.space q.name [u] false t₁ = .ok (i, t₂) := by
    have hback := make_readsBack (QualifiedName.WellFormed.readsBack hq) [u]
    rw [hname] at hback
    rw [hback, hclass]
  rw [Gives, atom_eq_classType hq (by simp), classType, isBadClassName_text hq, head_isSeparator hq,
    String.ofList_toList, hname]
  simp only [Bool.false_eq_true, if_false, if_true]
  rw [bind_of_gives (gives_eat_char (by decide))]
  simp only [if_true]
  rw [bind_of_gives hlist, bind_of_gives (gives_types hmake)]
  rfl

/-- The text of a class with a literal as its argument. -/
def literalClass (q : ClassName) (s : String) : String :=
  String.ofList (q.text.toList ++ '<' :: ((quote s).toList ++ ['>']))

theorem parse_literalClass (hq : q.WellFormed) (hname : QualifiedName.ofFullName q.text = q)
    (hlit : TypeM.intern (.stringLiteral s) false t = .ok (i, t₁))
    (hclass : TypeM.intern (.object q [.of i]) false t₁ = .ok (j, t₂)) :
    UnionType.parseFullyQualified (literalClass q s) t = .ok (.ok (.of j), t₂) := by
  obtain ⟨w, hw⟩ := QualifiedName.WellFormed.text_eq_cons hq
  have hblank : Text.isBlank (literalClass q s) = false := by
    rw [literalClass, Text.isBlank, String.toList_ofList, hw, List.cons_append, List.all_cons,
      show Text.isBlankChar '\\' = false by decide, Bool.false_and]
  have hargument : Gives (grammar ⟨.fullyQualified, literalClass q s⟩ (maxDepth - 1)).union
      ((quote s).toList ++ ['>']) t (.of i) ['>'] t₁ :=
    gives_union_of_atom (n := maxDepth - 2) (by simp [Dense, toList_quote, isSpace])
      (by simp [toList_quote]) (closes_cons (by decide) (by decide)) (gives_stringLiteral hlit)
  have hunion := gives_union_of_atom (n := maxDepth - 1) (by simp [Dense, hw, isSpace])
    (by simp [hw]) closes_nil (gives_object_one hq hname hargument hclass)
  have hwhole : Gives (whole ⟨.fullyQualified, literalClass q s⟩) (literalClass q s).toList t
      (.of j) [] t₂ := by
    rw [literalClass, String.toList_ofList, Gives, whole]
    exact bind_of_gives hunion
  exact parse_eq_of_gives hblank hwhole

end

end TypeParser

namespace TypeTable

open TypeParser

variable {t t' : TypeTable}

/-- What is read from a text can be read back, with one level less than may nest for each member. -/
theorem spelt_of_parse (hc : t.Canonical) {input : String} {u : UnionType}
    (hu : UnionType.parseFullyQualified input t = .ok (.ok u, t')) :
    t'.Canonical ∧ ∀ i ∈ u.members, t'.Spelt (maxDepth - 1) i := by
  obtain ⟨r, t₁, hrun, hg, hr⟩ := kept_spelling.parse hc input
  rw [hrun] at hu
  cases hu
  have hu := hr u rfl
  split at hu
  · subst hu
    exact ⟨hg.canonical, by simp⟩
  · obtain ⟨-, m, hm, hu⟩ := hu
    obtain rfl := Nat.succ.inj hm
    exact ⟨hg.canonical, hu⟩

/-- The text of a union of such types is read back, as far as brackets may nest. -/
theorem Canonical.parse_display_absolute (hc : t.Canonical) {u : UnionType}
    (hu : ∀ i ∈ u.members, t.Everywhere TypeKind.Absolute i) :
    u.display t = .ok (t.renderUnion u) ∧
      (unionLevels t.levels u ≤ maxDepth → ∃ v t',
        UnionType.parseFullyQualified (t.renderUnion u) t = .ok (.ok v, t') ∧ v.SameMembers u) ∧
      (maxDepth < unionLevels t.levels u → ∃ t',
        UnionType.parseFullyQualified (t.renderUnion u) t =
          .ok (.error (.tooDeep (t.renderUnion u) maxDepth), t')) := by
  have hlt : ∀ i ∈ u.members, i < t.size := fun i hi => (hu i hi).lt_size
  have hwf : ∀ i ∈ u.members, ∀ j e, t.Within i j → t.entries[j]? = some e →
      e.type.kind.Absolute := fun i hi j e hj he => (hu i hi).within hj he
  have hknows : ∀ i ∈ u.members, TypeParser.Knows .fullyQualified t i := fun i hi =>
    ⟨fun j e s hj he hs => absurd hs ((hwf i hi j e hj he).2 s), fun _ _ _ _ _ => rfl⟩
  obtain ⟨hfits, hdeep⟩ := hc.parse_display_within hlt
    (fun i hi j e hj he => (hwf i hi j e hj he).1) hknows
  refine ⟨display_eq_ok hlt, fun h => ?_, hdeep⟩
  obtain ⟨v, t', hparse, hv, -⟩ := hfits h
  exact ⟨v, t', hparse, hv⟩

/-- The parser accepts its own normal form, as far as brackets may nest. Where they nest too deeply,
writing has put brackets somewhere that the text that was read did not need. -/
theorem parse_display_of_parse (h : Reachable TypeKind.WellNamed t) {input : String} {u : UnionType}
    (hu : UnionType.parseFullyQualified input t = .ok (.ok u, t')) :
    ∃ text, u.display t' = .ok text ∧
      (unionLevels t'.levels u ≤ maxDepth → ∃ v t'',
        UnionType.parseFullyQualified text t' = .ok (.ok v, t'') ∧ v.SameMembers u) ∧
      (maxDepth < unionLevels t'.levels u →
        (∃ t'', UnionType.parseFullyQualified text t' =
          .ok (.error (.tooDeep text maxDepth), t'')) ∧
        ∃ kind, t'.Mentions u kind ∧ t'.Regroups kind) := by
  obtain ⟨hc, hspelt⟩ := spelt_of_parse (h.canonical typeSort_wellNamed) hu
  obtain ⟨hdisplay, hfits, hdeep⟩ := hc.parse_display_absolute fun i hi => (hspelt i hi).absolute
  refine ⟨t'.renderUnion u, hdisplay, hfits, fun h => ⟨hdeep h, ?_⟩⟩
  -- the levels of some member are not enough, so there are brackets that reading did not ask for
  by_contra hnone
  refine absurd (unionLevels_le_of_fits (fun i hi => (hspelt i hi).fits) fun i hi hr => ?_)
    (Nat.not_le.2 h)
  obtain ⟨j, ty, hwithin, hty, hr⟩ := hr
  obtain ⟨e, he, rfl⟩ := Option.map_eq_some_iff.1 hty
  exact hnone ⟨_, ⟨i, hi, j, e, hwithin, he, rfl⟩, hr⟩

/-- A closure that takes an array of closures is written with brackets and read back. -/
theorem parse_display_of_parse_closure : ∃ u t text v t',
    UnionType.parseFullyQualified "Closure(Closure()[])" (initial false) = .ok (.ok u, t) ∧
      u.display t = .ok text ∧
      UnionType.parseFullyQualified text t = .ok (.ok v, t') ∧ v.SameMembers u := by
  obtain ⟨u, t, hparse, i, rfl, -, hlevel⟩ :=
    parse_nestedClosures (canonical_initial false) (k := 1) (by decide)
  obtain ⟨text, hdisplay, hfits, -⟩ := parse_display_of_parse ⟨false, .refl⟩ hparse
  obtain ⟨v, t', hread, hv⟩ := hfits (by rw [unionLevels_of, hlevel]; decide)
  have htext : String.ofList (nestedClosures 1) = "Closure(Closure()[])" := by decide
  exact ⟨_, t, text, v, t', htext ▸ hparse, hdisplay, hread, hv⟩

/-- What is accepted at the limit is refused once it is written with more brackets. -/
theorem exists_parse_display_tooDeep : ∃ u t text t',
    UnionType.parseFullyQualified (String.ofList (nestedClosures 31)) (initial false) =
        .ok (.ok u, t) ∧
      u.display t = .ok text ∧
      UnionType.parseFullyQualified text t = .ok (.error (.tooDeep text maxDepth), t') := by
  obtain ⟨u, t, hparse, i, rfl, -, hlevel⟩ :=
    parse_nestedClosures (canonical_initial false) (k := 31) (by decide)
  obtain ⟨hc, hspelt⟩ := spelt_of_parse (canonical_initial false) hparse
  obtain ⟨hdisplay, -, hdeep⟩ := hc.parse_display_absolute fun i hi => (hspelt i hi).absolute
  obtain ⟨t', hread⟩ := hdeep (by rw [unionLevels_of, hlevel]; decide)
  exact ⟨_, t, _, t', hparse, hdisplay, hread⟩

/-- Where a class has a name that is written like a class with an argument, a text in small letters
names it; but its own text, in which the argument has capital letters, names a class with that
argument. -/
theorem exists_parse_display_changed : ∃ i t u t₁ text v t₂,
    (TypeRequest.make "\\" "A<'X'>" [] false).run (initial false) = .ok (i, t) ∧
      UnionType.parseFullyQualified "\\a<'x'>" t = .ok (.ok u, t₁) ∧ u.display t₁ = .ok text ∧
      UnionType.parseFullyQualified text t₁ = .ok (.ok v, t₂) ∧ ¬ v.SameMembers u := by
  obtain ⟨t, hodd, l, -⟩ := (lists_initial false).intern_new
    (writes_object _ (.make "\\" "A<'X'>") false) (by decide) rfl
  obtain ⟨t₁, hlit₁, l₁, -⟩ := l.intern_new (writes_stringLiteral t "x") (by decide) rfl
  have hx := l₁.entry (i := 32) rfl
  have hclass₁ := l₁.intern_found (writes_class t₁ (.make "\\" "a") (u := .of 32)
    (fun e he => UnionType.mem_of.1 he ▸ lt_size_of_entry hx)
    ((renderUnion_of t₁ 32).trans (key_eq hx))) (by decide) rfl
  obtain ⟨t₂, hlit₂, l₂, -⟩ := l₁.intern_new (writes_stringLiteral t₁ "X") (by decide) rfl
  have hX := l₂.entry (i := 33) rfl
  obtain ⟨t₃, hclass₂, l₃, -⟩ := l₂.intern_new (writes_class t₂ (.make "\\" "A") (u := .of 33)
    (fun e he => UnionType.mem_of.1 he ▸ lt_size_of_entry hX)
    ((renderUnion_of t₂ 33).trans (key_eq hX))) (by decide) rfl
  have hread₁ := parse_literalClass (q := .make "\\" "a") ⟨["a".toList], by decide, by decide,
    by decide⟩ rfl hlit₁ hclass₁
  have hread₂ := parse_literalClass (q := .make "\\" "A") ⟨["A".toList], by decide, by decide,
    by decide⟩ rfl hlit₂ hclass₂
  have htext₁ : literalClass (.make "\\" "a") "x" = "\\a<'x'>" := by decide
  have htext₂ : literalClass (.make "\\" "A") "X" = "\\A<'X'>" := by decide
  have hdisplay : (UnionType.of 31).display t₁ = .ok "\\A<'X'>" := by
    have hentry := l₁.entry (i := 31) rfl
    rw [display_eq_ok fun i hi => UnionType.mem_of.1 hi ▸ lt_size_of_entry hentry, renderUnion_of,
      key_eq hentry]
    rfl
  refine ⟨31, t, .of 31, t₁, _, .of 34, t₃, hodd, htext₁ ▸ hread₁, hdisplay, htext₂ ▸ hread₂, ?_⟩
  exact fun h => absurd (UnionType.mem_of.1 ((h 34).1 (UnionType.mem_of.2 rfl))) (by decide)

/-- What is accepted is not always read back, neither from a new table nor with such a class. -/
theorem exists_parse_display_ne :
    (∃ u t text t',
      UnionType.parseFullyQualified (String.ofList (nestedClosures 31)) (initial false) =
          .ok (.ok u, t) ∧
        u.display t = .ok text ∧
        UnionType.parseFullyQualified text t = .ok (.error (.tooDeep text maxDepth), t')) ∧
    ∃ i t u t₁ text v t₂,
      (TypeRequest.make "\\" "A<'X'>" [] false).run (initial false) = .ok (i, t) ∧
        UnionType.parseFullyQualified "\\a<'x'>" t = .ok (.ok u, t₁) ∧ u.display t₁ = .ok text ∧
        UnionType.parseFullyQualified text t₁ = .ok (.ok v, t₂) ∧ ¬ v.SameMembers u :=
  ⟨exists_parse_display_tooDeep, exists_parse_display_changed⟩

end TypeTable

end UnionInference
