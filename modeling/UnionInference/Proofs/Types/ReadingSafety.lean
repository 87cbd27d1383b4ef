import UnionInference.Proofs.Types.CursorGrammar
import UnionInference.Proofs.Types.Natives

/-!
Reading is safe. Whatever was asked of a table before, and whatever the text is, the cursor comes to
an outcome: it takes each piece of the text between two characters, no name that it asks for is
refused by the table, and each type that it uses is there. What it reads is empty only if the text
is blank, and a character that it complains about starts at the byte that it tells.
-/

namespace UnionInference

namespace TypeTable

variable {t t₁ : TypeTable} {ty : Ty} {i : TypeId} {kind : TypeKind} {nullable : Bool}

/-! ### Tables that come about -/

/-- A new table, and what becomes of one by requests that are granted. What a table holds apart from
its types, its mode and the ancestors found so far, may be set to anything in between; to forget all
types is to start with a new table. -/
inductive Attained : TypeTable → Prop
  | initial (nullCasts : Bool) : Attained (initial nullCasts)
  | request {t t₁ : TypeTable} {r : TypeRequest} {i : TypeId} : Attained t →
      r.run t = .ok (i, t₁) → Attained t₁
  | aside {t t₁ : TypeTable} : Attained t → t₁.entries = t.entries → t₁.byKey = t.byKey →
      Attained t₁

/-- The built-in types stand where a new table holds them, and all that is found is there. -/
structure Housed (t : TypeTable) : Prop extends t.Rooted where
  found : ∀ (key : String) (i : TypeId), t.byKey[key]? = some i → i < t.size

theorem housed_initial (nullCasts : Bool) : (initial nullCasts).Housed where
  toRooted := rooted_initial nullCasts
  found key i h := by
    obtain ⟨p, hp, -⟩ := ((holdsNatives_initial nullCasts).byKey key i).1 h
    exact lt_size_of_entry ((rooted_initial nullCasts).entries i p hp)

theorem Housed.joins (ht : t.Housed) (hnone : t.byKey[t.identity ty]? = none)
    (h : t.Joins ty t₁) : t₁.Housed where
  toRooted := ht.toRooted.joins hnone h
  found key i hi := by
    have hnew : t.size < t₁.size := lt_size_of_entry h.entry_new
    rw [h.byKey_eq] at hi
    split at hi
    · cases hi
      exact hnew
    · exact (ht.found key i hi).trans hnew

theorem Housed.run (ht : t.Housed) {r : TypeRequest} (h : r.run t = .ok (i, t₁)) : t₁.Housed := by
  rcases TypeRequest.run_cases h with rfl | ⟨kind, nullable, h, -⟩
  · exact ht
  · rcases TypeM.intern_cases h with ⟨-, rfl⟩ | ⟨hnone, -, hjoins, -⟩
    · exact ht
    · exact ht.joins hnone hjoins

/-- By induction on how the table came about. -/
theorem Attained.housed (ht : t.Attained) : t.Housed := by
  induction ht with
  | initial nullCasts => exact housed_initial nullCasts
  | request _ hrun ih => exact ih.run hrun
  | aside _ hentries hkeys ih =>
    constructor
    · exact ⟨fun i p hp => by rw [hentries]; exact ih.entries i p hp,
        fun i p hp => by rw [hkeys]; exact ih.byKey i p hp⟩
    · intro key i hi
      rw [hkeys] at hi
      rw [size, hentries]
      exact ih.found key i hi

/-- A type that is asked for is there. -/
theorem Housed.lt_size_of_intern (ht : t.Housed) (h : TypeM.intern kind nullable t = .ok (i, t₁)) :
    i < t₁.size := by
  rcases TypeM.intern_cases h with ⟨hfinds, rfl⟩ | ⟨-, rfl, hjoins, -⟩
  · exact ht.found _ _ hfinds
  · exact lt_size_of_entry hjoins.entry_new

end TypeTable

/-- A union of at least one type, each of which is in the table. -/
structure UnionType.StandsIn (u : UnionType) (t : TypeTable) : Prop where
  ne_nil : u.members ≠ []
  lt_size : ∀ i ∈ u.members, i < t.size

theorem UnionType.standsIn_of {i : TypeId} {t : TypeTable} (h : i < t.size) :
    (UnionType.of i).StandsIn t where
  ne_nil := by simp [members_of]
  lt_size _ hj := mem_of.1 hj ▸ h

namespace TypeParser

open TypeTable

/-! ### The judgement -/

/-- Tables come about from other tables, and what is read stands in the table. -/
def safety : Judgement where
  table t := t.Attained
  grows t t' := t.Keeps t' ∧ t'.Attained
  union _ u t := u.StandsIn t
  member _ u t := u.StandsIn t
  element _ u t := u.StandsIn t

variable {t : TypeTable} {u : UnionType} {kind : TypeKind}

theorem steady_safety : safety.Steady :=
  ⟨fun ht => ⟨.refl _, ht⟩, fun h h' => ⟨h.1.trans h'.1, h'.2⟩, fun _ h => h.2⟩

/-- A type of types that are there is made. -/
theorem makes_intern (ht : t.Attained) (hin : ∀ e ∈ kind.embedded, e < t.size) (nullable : Bool) :
    safety.Makes t (TypeM.intern kind nullable) fun i t' => i < t'.size := by
  have hrun : TypeM.intern kind nullable t =
      .ok (t.place (TypeTable.normalize kind nullable) hin) := by
    rw [TypeM.intern, dif_pos hin]
  have hrequest : (TypeRequest.intern kind nullable).run t =
      .ok (t.place (TypeTable.normalize kind nullable) hin) := hrun
  exact ⟨_, _, hrun, ⟨(ht.housed.toRooted.run hrequest).2, ht.request hrequest⟩,
    ht.housed.lt_size_of_intern hrun⟩

theorem makes_single (ht : t.Attained) (hin : ∀ e ∈ kind.embedded, e < t.size) :
    safety.Makes t (TypeM.intern kind false) fun i t' => (UnionType.of i).StandsIn t' := by
  obtain ⟨i, t', hrun, hg, hi⟩ := makes_intern ht hin false
  exact ⟨i, t', hrun, hg, UnionType.standsIn_of hi⟩

/-- A twin with null is made of each type that is there. -/
theorem makes_withNull_lt (ht : t.Attained) {i : TypeId} (hi : i < t.size) :
    safety.Makes t (TypeM.withNull i true) fun j t' => j < t'.size := by
  obtain ⟨e, he⟩ := exists_entry hi
  have hfetch : TypeM.fetch i t = .ok (e.type, t) := TypeM.fetch_eq_ok.2 ⟨rfl, e, he, rfl⟩
  by_cases hself : (e.type.nullable == true || !e.type.kind.acceptsNull) = true
  · exact ⟨i, t, TypeM.bind_eq_ok.2 ⟨e.type, t, hfetch, by rw [if_pos hself]; rfl⟩,
      steady_safety.refl ht, hi⟩
  · obtain ⟨j, t', hrun, hg, hj⟩ :=
      makes_intern ht (fun a ha => (embedded_lt he ha).trans hi) true
    exact ⟨j, t', TypeM.bind_eq_ok.2 ⟨e.type, t, hfetch, by rw [if_neg hself]; exact hrun⟩, hg, hj⟩

/-- What is made of each type of a union that stands in the table is such a union again. -/
theorem makes_mapMembers_standsIn (ht : t.Attained) (hu : u.StandsIn t) {f : TypeId → TypeM TypeId}
    (hf : ∀ {t i}, Attained t → i < t.size → safety.Makes t (f i) fun j t' => j < t'.size) :
    safety.Makes t (u.mapMembers f) fun v t' => v.StandsIn t' := by
  obtain ⟨v, t', hrun, hg, js, rfl, hjs⟩ :=
    steady_safety.makes_mapMembers (P := fun _ j t => j < t.size)
      (fun _ hg hj => hg.1.lt_size hj) ht fun i hi t' ht' hg =>
        hf ht' (hg.1.lt_size (hu.lt_size i hi))
  refine ⟨_, t', hrun, hg, ofList_ne_nil hjs hu.ne_nil, fun j hj => ?_⟩
  obtain ⟨i, -, h⟩ := exists_of_forall₂ hjs.flip (UnionType.mem_ofList.1 hj)
  exact h

theorem makes_asArrays_standsIn (ht : t.Attained) (hu : u.StandsIn t) (key : KeyKind) :
    safety.Makes t (u.asArrays key) fun v t' => v.StandsIn t' :=
  makes_mapMembers_standsIn ht hu fun ht hi =>
    makes_intern ht (by simpa [TypeKind.embedded] using hi) false

theorem kept_safety : safety.Kept where
  toSteady := steady_safety
  union hg hu := ⟨hu.ne_nil, fun i hi => hg.1.lt_size (hu.lt_size i hi)⟩
  single h := h
  join hu hv := by
    refine ⟨fun hnil => ?_, fun i hi =>
      (UnionType.mem_union.1 hi).elim (hu.lt_size i) (hv.lt_size i)⟩
    obtain ⟨i, hi⟩ := List.exists_mem_of_ne_nil _ hv.ne_nil
    exact List.not_mem_nil (hnil ▸ UnionType.mem_union.2 (.inr hi))
  brackets h := h
  member h := h
  native ht k := UnionType.standsIn_of (ht.housed.native_lt_size k)
  intLiteral ht _ := makes_single ht (by simp [TypeKind.embedded])
  stringLiteral ht _ := makes_single ht (by simp [TypeKind.embedded])
  object ht _ hargs := makes_single ht fun e he => by
    obtain ⟨u, hu, heu⟩ := List.mem_flatMap.1 he
    exact (hargs u hu).lt_size e heu
  arrays ht hu key := makes_asArrays_standsIn ht hu key
  suffix ht hu := makes_asArrays_standsIn ht hu .mixed
  shape ht _ hfields := makes_single ht fun e he => by
    obtain ⟨f, hf, hef⟩ := List.mem_flatMap.1 he
    exact (hfields f hf).2.lt_size e hef
  callable ht hparams := makes_single ht fun e he => by
    obtain ⟨p, hp, hep⟩ := List.mem_flatMap.1 ((List.mem_append.1 he).resolve_right (by simp))
    exact (hparams p hp).lt_size e hep
  result ht hparams hu := makes_single ht fun e he => by
    rcases List.mem_append.1 he with he | he
    · obtain ⟨p, hp, hep⟩ := List.mem_flatMap.1 he
      exact (hparams p hp).lt_size e hep
    · exact hu.lt_size e he
  nullable ht hu := makes_mapMembers_standsIn ht hu fun ht hi => makes_withNull_lt ht hi

end TypeParser

namespace UnionType

open TypeParser

variable {t : TypeTable}

/-- Whatever became of a table, and whatever the text is, reading it byte by byte comes to an
outcome, which is the one that reading by characters has: no piece of the text is taken from or up
to a place inside of a character, and the table refuses nothing. A union that is read stands in the
table and is empty if and only if the text is blank; and where a character is complained about, the
text splits at the byte that is told, and goes on with that character. -/
theorem parseFullyQualified_safe (ht : t.Attained) (input : String) :
    ∃ r t', Cursor.parse .fullyQualified input t = .ok (some r, t') ∧
      parseFullyQualified input t = .ok (r, t') ∧ t'.Attained ∧
      (∀ u, r = .ok u → (∀ i ∈ u.members, i < t'.size) ∧
        (u.members = [] ↔ Text.isBlank input = true)) ∧
      ∀ text offset c, r = .error (.unexpectedChar text offset c) → text = input ∧
        ∃ before after, input.toList = before ++ c :: after ∧ offset = byteSize before := by
  obtain ⟨r, t', hrun, ⟨-, ht'⟩, hr⟩ := kept_safety.parse ht input
  obtain ⟨hcursor, hlocated⟩ := cursor_of_parse hrun
  refine ⟨r, t', hcursor, hrun, ht', fun u hu => ?_, fun text offset c he => hlocated _ he⟩
  have hread := hr u hu
  cases hblank : Text.isBlank input with
  | true =>
    rw [if_pos hblank] at hread
    subst hread
    exact ⟨fun i hi => absurd hi List.not_mem_nil, iff_of_true rfl rfl⟩
  | false =>
    rw [if_neg (Bool.eq_false_iff.1 hblank)] at hread
    exact ⟨hread.lt_size, iff_of_false hread.ne_nil Bool.false_ne_true⟩

/-- The letter that is complained about is the eleventh character and starts at the twelfth byte. -/
theorem parseFullyQualified_safe_misplaced : (TypeTable.initial false).Attained ∧
    ∃ t', Cursor.parse .fullyQualified "array\x7b'é' int\x7d" (TypeTable.initial false) =
      .ok (some (.error (.unexpectedChar "array\x7b'é' int\x7d" 11 'i')), t') ∧
    ∃ before after, "array\x7b'é' int\x7d".toList = before ++ 'i' :: after ∧
      byteSize before = 11 := by
  have ht : (TypeTable.initial false).Attained := .initial false
  obtain ⟨r, t', hcursor, hrun, -, -, hplace⟩ :=
    parseFullyQualified_safe ht "array\x7b'é' int\x7d"
  have hread : ∀ t, parseFullyQualified "array\x7b'é' int\x7d" t =
      .ok (.error (.unexpectedChar "array\x7b'é' int\x7d" 11 'i'), t) := fun _ => rfl
  obtain ⟨hr, -⟩ := Prod.mk.inj (Except.ok.inj (hrun.symm.trans (hread _)))
  subst hr
  obtain ⟨-, before, after, hsplit, hoffset⟩ := hplace _ _ _ rfl
  exact ⟨ht, _, hcursor, before, after, hsplit, hoffset.symm⟩

end UnionType

end UnionInference
