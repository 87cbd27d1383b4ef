import UnionInference.Proofs.Types.Atoms
import UnionInference.Proofs.Types.Nesting

/-!
Written types are read back. The text of a union of well-formed types is read as a union with the
same members if its levels do not exceed the limit, and as too deep otherwise; the table only grows.
Main statement: writing and reading back is the identity, by induction on the place of a type.
-/

namespace UnionInference

namespace TypeParser

open TypeText

variable {src : Source} {t t₀ : TypeTable} {cs rest : List Char} {union : ParseM UnionType}
  {inner : Option Grammar}

/-! ### The grammar -/

/-- The grammar inside of brackets of their own. -/
def innerGrammar (src : Source) : Nat → Option Grammar
  | 0 => none
  | n + 1 => some (grammar src n)

theorem member_grammar (src : Source) (n : Nat) : (grammar src n).member =
    memberWith src (grammar src n).union (innerGrammar src n) := by
  cases n <;> rfl

/-- Wherever it may stand, the text of the kind is read if it does not nest too deeply. -/
def KindReads (src : Source) (t₀ : TypeTable) (kind : TypeKind) : Prop :=
  ∀ n t rest, t₀.Grows TypeKind.WellNamed t → Follows rest →
    (∀ sig, kind = .callable sig → Ends rest) →
    ReadsUnmarked src (t₀.kindLevels t₀.levels kind ≤ n) (grammar src n).union (innerGrammar src n)
      ((t₀.renderKind kind).toList ++ rest) rest t (IsRead kind)

/-- The table holds the type, and the text of its kind is read. -/
def Readable (src : Source) (t₀ : TypeTable) (i : TypeId) : Prop :=
  ∃ e, t₀.entries[i]? = some e ∧ KindReads src t₀ e.type.kind

/-- The text of a type is read as that type. -/
theorem Readable.member (hc : t₀.Canonical) {i : TypeId} (h : Readable src t₀ i) (n : Nat) :
    ReadsText src t₀ Ends (t₀.levels i ≤ n) (grammar src n).member (t₀.key i).toList (· = .of i) := by
  intro t rest ht hrest
  obtain ⟨e, he, hkind⟩ := h
  have hread := hkind n t rest ht hrest.follows fun _ _ => hrest
  have hfound : ∀ (b : Bool) (u : UnionType) (t' : TypeTable), e.type.nullable = b →
      t.Grows TypeKind.WellNamed t' → (∃ j, u = .of j ∧ t'.Finds ⟨e.type.kind, b⟩ j) → u = .of i := by
    rintro b u t' rfl hg ⟨j, rfl, hj⟩
    have hi := hg.canonical.finds_entry ((ht.trans hg).keeps.entries i e he)
    rw [hj.unique hi]
  obtain ⟨c, cs, hcs, hmark, hstart⟩ := (hc.start_kind (hc.writable he)).1
  rw [member_grammar, TypeTable.levels_eq he, TypeTable.key_eq he, hc.keyed i e he,
    TypeTable.toList_render]
  cases hnull : e.type.nullable with
  | false =>
    have hdense : Dense ((t₀.renderKind e.type.kind).toList ++ rest) := by
      rw [hcs]; exact dense_of_cons hstart
    refine (hread.memberWith hrest hdense ?_).imp fun u t' hg hu => hfound false u t' hnull hg hu
    rw [hcs]; simpa using hmark
  | true =>
    have hw : t₀.Writable ⟨e.type.kind, true⟩ := by
      have := hc.writable he
      exact ⟨this.inside, fun _ => this.normal hnull, this.named⟩
    exact (hread.memberWith_null hw ht hrest).imp fun u t' hg hu => hfound true u t' hnull hg hu

/-- The members of a union are written in the order of their texts. -/
theorem exists_sorted (t₀ : TypeTable) (u : UnionType) : ∃ ids : List TypeId, ids.Perm u.members ∧
    t₀.memberTexts u = ids.map fun i => (t₀.key i).toList := by
  refine ⟨u.members.mergeSort fun i j => !decide (t₀.key j < t₀.key i),
    List.mergeSort_perm _ _, ?_⟩
  have hsort := List.map_mergeSort (r := fun i j => !decide (t₀.key j < t₀.key i))
    (s := fun a b => !decide (b < a)) (f := t₀.key) (l := u.members) fun _ _ _ _ => rfl
  rw [TypeTable.memberTexts, TypeTable.sortTexts, ← hsort, List.map_map]
  rfl

/-- The text of a union is read as a union with the same members. -/
theorem reads_union (hc : t₀.Canonical) {u : UnionType} (hne : u.members ≠ [])
    (hu : ∀ i ∈ u.members, Readable src t₀ i) (n : Nat) :
    ReadsText src t₀ Closes (TypeTable.unionLevels t₀.levels u ≤ n) (grammar src n).union
      (t₀.renderUnion u).toList (UnionType.SameMembers · u) := by
  intro t rest ht hrest
  cases n with
  | zero =>
    exact ⟨fun h => absurd h (TypeTable.unionLevels_pos _ _), fun _ => stopsTooDeep_tooDeep⟩
  | succ n =>
    obtain ⟨ids, hperm, htexts⟩ := exists_sorted t₀ u
    rw [TypeTable.toList_renderUnion, htexts]
    cases ids with
    | nil => exact absurd hperm.symm.eq_nil hne
    | cons i ids =>
      have hmem : ∀ j, j ∈ i :: ids ↔ j ∈ u.members := fun j => hperm.mem_iff
      refine Reads.of_iff ((reads_alternatives
        (fun j hj => (hu j ((hmem j).1 hj)).member hc n) hrest ht).imp ?_) ?_
      · intro v _ _ hv a
        rw [hv a, hmem a]
      · simp only [TypeTable.unionLevels_le, hmem]

/-! ### What the words with brackets of their own lead to -/

/-- A word of letters is read up to the bracket that follows it. -/
theorem atom_word {c : Char} {w ds : List Char} {b : Char} (hw : ∀ d ∈ c :: w, isNameChar d = true)
    (hc : c.isDigit = false) (hb : isNameChar b = false) :
    atom src union inner (c :: w ++ b :: ds) t = (named src union inner) (c :: w ++ b :: ds) t ∧
      Gives name (c :: w ++ b :: ds) t (c :: w) (b :: ds) t :=
  ⟨atom_eq_named (hw c (by simp)) hc, gives_name hw (by simpa using hb) (by simp)⟩

theorem atom_genericArray {ds : List Char} : atom src union inner ("array".toList ++ '<' :: ds) t =
    genericArray src union ('<' :: ds) t := by
  obtain ⟨hatom, hname⟩ := atom_word (t := t)
    (c := 'a') (w := "rray".toList) (b := '<')
      (List.all_eq_true.1 (by decide)) (by decide) (by decide)
  refine hatom.trans ?_
  rw [named.eq_def, bind_of_gives hname, bind_of_gives gives_peek?]
  rfl

theorem atom_shape {ds : List Char} : atom src union inner ("array".toList ++ '\x7b' :: ds) t =
    (match inner with | some g => shape src g.union | none => tooDeep src) ('\x7b' :: ds) t := by
  obtain ⟨hatom, hname⟩ := atom_word (t := t)
    (c := 'a') (w := "rray".toList) (b := '\x7b')
      (List.all_eq_true.1 (by decide)) (by decide) (by decide)
  refine hatom.trans ?_
  rw [named.eq_def, bind_of_gives hname, bind_of_gives gives_peek?]
  rfl

theorem atom_callable {ds : List Char} (isClosure : Bool) :
    atom src union inner ((TypeTable.callableWord isClosure).toList ++ '(' :: ds) t =
      (match inner with
        | some g => callable src isClosure g.union g.member
        | none => tooDeep src) ('(' :: ds) t := by
  cases isClosure with
  | false =>
    obtain ⟨hatom, hname⟩ := atom_word (t := t)
      (c := 'c') (w := "allable".toList) (b := '(')
      (List.all_eq_true.1 (by decide)) (by decide) (by decide)
    refine hatom.trans ?_
    rw [named.eq_def, bind_of_gives hname, bind_of_gives gives_peek?]
    rfl
  | true =>
    obtain ⟨hatom, hname⟩ := atom_word (t := t)
      (c := 'C') (w := "losure".toList) (b := '(')
      (List.all_eq_true.1 (by decide)) (by decide) (by decide)
    refine hatom.trans ?_
    rw [named.eq_def, bind_of_gives hname, bind_of_gives gives_peek?]
    rfl

/-! ### Every kind is read -/

theorem Readable.lt_size {i : TypeId} (h : Readable src t₀ i) : i < t₀.size := by
  obtain ⟨e, he, -⟩ := h
  exact TypeTable.lt_size_of_entry he

theorem kindReads_native {k : NativeKind} (hself : k = .self → src.names.selfClass = none) :
    KindReads src t₀ (.native k) := fun n _ _ ht hrest _ =>
  (Reads.of_iff (reads_native ht.canonical hself hrest) (by simp [TypeTable.kindLevels])).unmarked

theorem readable_native (hc : t₀.Canonical) {k : NativeKind}
    (hself : k = .self → src.names.selfClass = none) : Readable src t₀ k.id :=
  ⟨_, hc.natives k, kindReads_native hself⟩

theorem levels_native (hc : t₀.Canonical) (k : NativeKind) : t₀.levels k.id = 0 := by
  rw [TypeTable.levels_eq (hc.natives k)]; rfl

theorem unionLevels_of (f : TypeId → Nat) (i : TypeId) :
    TypeTable.unionLevels f (.of i) = 1 + f i := by
  simp [TypeTable.unionLevels, UnionType.members_of, deepest]

/-- A parameter without a type takes as many levels as one of all values. -/
theorem unionLevels_orMixed (hc : t₀.Canonical) (u : UnionType) :
    TypeTable.unionLevels t₀.levels u.orMixed = TypeTable.unionLevels t₀.levels u := by
  cases h : u.isEmpty with
  | true =>
    rw [UnionType.orMixed_of_isEmpty h, UnionType.mixed, UnionType.native, unionLevels_of,
      levels_native hc, TypeTable.unionLevels, UnionType.isEmpty_iff.1 h]
    rfl
  | false => rw [UnionType.orMixed_of_not_isEmpty h]

theorem ReadsUnmarked.imp {fits : Prop} {Q Q' : UnionType → TypeTable → Prop}
    (h : ReadsUnmarked src fits union inner cs rest t Q)
    (hQ : ∀ u t', t.Grows TypeKind.WellNamed t' → Q u t' → Q' u t') :
    ReadsUnmarked src fits union inner cs rest t Q' := by
  refine ⟨fun hfits => ?_, h.stops⟩
  obtain ⟨u, t', n, hn, hrun, hg, hu⟩ := h.gives hfits
  exact ⟨u, t', n, hn, hrun, hg, hQ u t' hg hu⟩

theorem kindReads_array_keyed (hc : t₀.Canonical) {key : KeyKind} {k : NativeKind}
    (hkey : key = .int ∧ k = .int ∨ key = .string ∧ k = .string) {i : TypeId}
    (hi : Readable src t₀ i) : KindReads src t₀ (.array key i) := by
  intro n t rest ht hrest _
  have hk : k ≠ .self := by rcases hkey with ⟨-, rfl⟩ | ⟨-, rfl⟩ <;> decide
  have hunion : ∀ u ∈ [.native k, .of i], ReadsText src t₀ Closes
      (TypeTable.unionLevels t₀.levels u ≤ n) (grammar src n).union (t₀.renderUnion u).toList
      (UnionType.SameMembers · u) := by
    intro u hu
    rcases List.mem_pair.1 hu with rfl | rfl
    · refine reads_union hc (by simp [UnionType.members_native]) (fun j hj => ?_) n
      rw [UnionType.members_native, List.mem_singleton] at hj
      exact hj ▸ readable_native hc fun h => absurd h hk
    · refine reads_union hc (by simp [UnionType.members_of]) (fun j hj => ?_) n
      rwa [UnionType.mem_of.1 hj]
  have htext : (t₀.renderKind (.array key i)).toList ++ rest = "array".toList ++
      '<' :: ([','].intercalate (t₀.argTexts [.native k, .of i]) ++ '>' :: rest) := by
    have hargs : t₀.argTexts [.native k, .of i] = [k.name.toList, (t₀.key i).toList] := by
      rw [TypeTable.argTexts, List.map_cons, List.map_singleton, UnionType.native,
        TypeTable.renderUnion_of, TypeTable.renderUnion_of, TypeTable.key_eq (hc.natives k)]
    rw [hargs, intercalate_eq_flatMap, TypeTable.renderKind]
    rcases hkey with ⟨rfl, rfl⟩ | ⟨rfl, rfl⟩
    · rw [TypeTable.toList_renderArray_int]; simp [NativeKind.name]
    · rw [TypeTable.toList_renderArray_string]; simp [NativeKind.name]
  rw [htext]
  refine (Reads.of_iff (Reads.of_run_eq atom_genericArray
    (reads_genericArray ht hkey hi.lt_size hunion)) ?_).unmarked
  have hlevels : t₀.kindLevels t₀.levels (.array key i) = 1 + t₀.levels i := by
    rcases hkey with ⟨rfl, -⟩ | ⟨rfl, -⟩ <;> rfl
  rw [hlevels, List.forall_mem_cons, List.forall_mem_singleton, UnionType.native, unionLevels_of,
    unionLevels_of, levels_native hc]
  omega

theorem kindReads_array_mixed (hc : t₀.Canonical) {i : TypeId} (hi : Readable src t₀ i) :
    KindReads src t₀ (.array .mixed i) := by
  intro n t rest ht hrest _
  rw [TypeTable.renderKind, TypeTable.toList_renderArray_mixed, TypeTable.kindLevels]
  cases hp : t₀.needsParens i with
  | true =>
    have hunion := reads_union hc (u := .of i) (by simp [UnionType.members_of])
      (fun j hj => by rwa [UnionType.mem_of.1 hj]) n
    rw [TypeTable.renderUnion_of, unionLevels_of] at hunion
    have hatom := reads_parens ht hunion (innerGrammar src n) ('[' :: ']' :: rest)
    have hsingle : Reads src _ _ _ _ t fun u _ => u = UnionType.of i :=
      hatom.imp fun u _ _ hu => sameMembers_of hu
    simpa using hsingle.unmarked.brackets ht hi.lt_size
  | false =>
    obtain ⟨e, he, hkind⟩ := hi
    obtain ⟨hnull, hcall⟩ := TypeTable.needsParens_eq he hp
    have hread := hkind n t ('[' :: ']' :: rest) ht (by simp [Follows])
      fun sig hsig => absurd hsig (hcall sig)
    have hkey : t₀.key i = t₀.renderKind e.type.kind := by
      rw [TypeTable.key_eq he, hc.keyed i e he, TypeTable.render, hnull]
      simp [TypeTable.nullMark]
    rw [← TypeTable.levels_eq he, ← hkey] at hread
    have hsingle : ∀ (u : UnionType) (t' : TypeTable), t.Grows TypeKind.WellNamed t' →
        IsRead e.type.kind u t' → u = .of i := by
      rintro u t' hg ⟨j, rfl, hj⟩
      have hfound := hg.canonical.finds_entry ((ht.trans hg).keeps.entries i e he)
      have hty : e.type = ⟨e.type.kind, false⟩ := by rw [← hnull]
      rw [hty] at hfound
      rw [hj.unique hfound]
    simpa using (hread.imp hsingle).brackets ht (TypeTable.lt_size_of_entry he)

theorem kindReads_shape (hc : t₀.Canonical) {fs : ShapeFields} (hfs : (TypeKind.shape fs).WellFormed)
    (hin : ∀ i ∈ (TypeKind.shape fs).embedded, Readable src t₀ i) : KindReads src t₀ (.shape fs) := by
  intro n t rest ht hrest _
  have htext : (t₀.renderKind (.shape fs)).toList ++ rest = "array".toList ++
      '\x7b' :: ([','].intercalate (t₀.fieldTexts fs) ++ '\x7d' :: rest) := by
    rw [TypeTable.toList_renderShape]; simp
  rw [htext, TypeTable.kindLevels]
  cases n with
  | zero =>
    refine (Reads.of_run_eq atom_shape ⟨fun h => ?_, fun _ => stopsTooDeep_tooDeep⟩).unmarked
    omega
  | succ n =>
    have hunion : ∀ f ∈ fs, ReadsText src t₀ Closes
        (TypeTable.unionLevels t₀.levels f.2.type ≤ n) (grammar src n).union
        (t₀.renderUnion f.2.type).toList (UnionType.SameMembers · f.2.type) := fun f hf =>
      reads_union hc (hfs.2 f hf).2 (fun i hi => hin i (List.mem_flatMap.2 ⟨f, hf, hi⟩)) n
    have hw : t₀.Writable ⟨.shape fs, false⟩ :=
      ⟨fun i hi => (hin i hi).lt_size, by simp, hfs.wellNamed⟩
    refine (Reads.of_iff (Reads.of_run_eq atom_shape (reads_shape
      (fun u => TypeTable.unionLevels t₀.levels u ≤ n) ht hw hfs hunion)) ?_).unmarked
    rw [Nat.add_comm, Nat.add_le_add_iff_right, deepest_map_le]

/-- The result of a callable type is read as a member, in brackets if it has several. -/
theorem reads_result (hc : t₀.Canonical) {u : UnionType} (hu : ∀ i ∈ u.members, Readable src t₀ i)
    (n : Nat) {w : List Char} (hw : (t₀.renderResult u).toList = ':' :: w) :
    ReadsText src t₀ Ends (TypeTable.resultLevels t₀.levels u ≤ n) (grammar src n).member w
      (UnionType.SameMembers · u) := by
  intro t rest ht hrest
  rcases TypeTable.renderResult_cases (t := t₀) u with ⟨-, h⟩ | ⟨i, hm, h⟩ | ⟨hlen, h⟩
  · rw [h] at hw; cases hw
  · rw [h, List.cons.injEq] at hw
    have hlevels : TypeTable.resultLevels t₀.levels u = t₀.levels i := by
      rw [TypeTable.resultLevels.eq_def, hm]
    rw [← hw.2, hlevels]
    refine ((hu i (by simp [hm])).member hc n t rest ht hrest).imp ?_
    rintro v _ _ rfl a
    rw [UnionType.members_of, hm]
  · rw [h, List.cons.injEq] at hw
    have hne : u.members ≠ [] := by rintro h; rw [h] at hlen; simp at hlen
    have hlevels : TypeTable.resultLevels t₀.levels u = TypeTable.unionLevels t₀.levels u := by
      rw [TypeTable.resultLevels.eq_def]
      split
      · next h => exact absurd h hne
      · next h => rw [h] at hlen; simp at hlen
      · rfl
    have hatom := reads_parens ht (reads_union hc hne hu n) (innerGrammar src n) rest
    rw [← hw.2, hlevels, member_grammar, List.cons_append, List.append_assoc]
    exact hatom.unmarked.memberWith hrest (by simp [Dense, isSpace]) (by simp)

theorem kindReads_callable (hc : t₀.Canonical) {sig : CallableSignature}
    (hin : ∀ i ∈ (TypeKind.callable sig).embedded, Readable src t₀ i) :
    KindReads src t₀ (.callable sig) := by
  intro n t rest ht _ hend
  have hrest : Ends rest := hend sig rfl
  have hparam : ∀ p ∈ sig.params, ∀ i ∈ p.type.members, Readable src t₀ i := fun p hp i hi =>
    hin i (List.mem_append_left _ (List.mem_flatMap.2 ⟨p, hp, hi⟩))
  have hresult : ∀ i ∈ sig.result.members, Readable src t₀ i := fun i hi =>
    hin i (List.mem_append_right _ hi)
  have htext : (t₀.renderKind (.callable sig)).toList ++ rest =
      (TypeTable.callableWord sig.isClosure).toList ++ '(' ::
        ([','].intercalate (t₀.paramTexts sig.params) ++
          ')' :: ((t₀.renderResult sig.result).toList ++ rest)) := by
    rw [TypeTable.toList_renderCallable]; simp
  rw [htext, TypeTable.kindLevels]
  cases n with
  | zero =>
    refine (Reads.of_run_eq (atom_callable sig.isClosure)
      ⟨fun h => ?_, fun _ => stopsTooDeep_tooDeep⟩).unmarked
    omega
  | succ n =>
    have hunion : ∀ p ∈ sig.params, ReadsText src t₀ Closes
        (TypeTable.unionLevels t₀.levels p.type ≤ n) (grammar src n).union
        (t₀.renderUnion p.type.orMixed).toList (UnionType.SameMembers · p.type.orMixed) := by
      intro p hp
      rw [← unionLevels_orMixed hc]
      refine reads_union hc (UnionType.orMixed_members_ne_nil p.type) (fun i hi => ?_) n
      cases h : p.type.isEmpty with
      | true =>
        rw [UnionType.orMixed_of_isEmpty h, UnionType.mixed, UnionType.members_native,
          List.mem_singleton] at hi
        exact hi ▸ readable_native hc fun h => by cases h
      | false =>
        rw [UnionType.orMixed_of_not_isEmpty h] at hi
        exact hparam p hp i hi
    have hw : t₀.Writable ⟨.callable sig, false⟩ :=
      ⟨fun i hi => (hin i hi).lt_size, by simp, trivial⟩
    refine (Reads.of_iff (Reads.of_run_eq (atom_callable sig.isClosure) (reads_callable
      (fun u => TypeTable.unionLevels t₀.levels u ≤ n) hc ht hw hunion
      (fun w hw => reads_result hc hresult n hw) (fun h => ?_) hrest)) ?_).unmarked
    · rw [TypeTable.resultLevels.eq_def, h]
      exact Nat.zero_le n
    · rw [Nat.add_comm, Nat.add_le_add_iff_right, Nat.max_le, deepest_map_le]

/-- A well-formed kind is read if the types it is made of are. -/
theorem kindReads (hc : t₀.Canonical) {kind : TypeKind} (hwf : kind.WellFormed)
    (hin : ∀ i ∈ kind.embedded, Readable src t₀ i)
    (hself : kind = .native .self → src.names.selfClass = none)
    (htemplate : ∀ s, kind = .template s → src.names.isTemplate s = true) :
    KindReads src t₀ kind := by
  cases kind with
  | native k => exact kindReads_native fun hk => hself (by rw [hk])
  | object name args =>
    intro n t rest ht hrest _
    refine (Reads.of_iff (reads_object (fun u => TypeTable.unionLevels t₀.levels u ≤ n) ht
      ⟨fun i hi => (hin i hi).lt_size, by simp, hwf.wellNamed⟩ (fun u hu => ?_) hrest) ?_).unmarked
    · exact reads_union hc (hwf.2 u hu) (fun i hi => hin i (List.mem_flatMap.2 ⟨u, hu, hi⟩)) n
    · rw [TypeTable.kindLevels, deepest_map_le]
  | array key i =>
    have hi : Readable src t₀ i := hin i (by simp [TypeKind.embedded])
    cases key with
    | int => exact kindReads_array_keyed hc (.inl ⟨rfl, rfl⟩) hi
    | string => exact kindReads_array_keyed hc (.inr ⟨rfl, rfl⟩) hi
    | mixed => exact kindReads_array_mixed hc hi
  | shape fields => exact kindReads_shape hc hwf hin
  | intLiteral m =>
    exact fun n _ _ ht hrest _ => (Reads.of_iff (reads_intLiteral ht.canonical hwf hrest)
      (by simp [TypeTable.kindLevels])).unmarked
  | stringLiteral s =>
    exact fun n _ _ ht _ _ => (Reads.of_iff (reads_stringLiteral ht.canonical)
      (by simp [TypeTable.kindLevels])).unmarked
  | callable sig => exact kindReads_callable hc hin
  | template s =>
    exact fun n _ _ ht hrest _ => (Reads.of_iff (reads_template ht.canonical hwf (htemplate s rfl)
      hrest) (by simp [TypeTable.kindLevels])).unmarked

/-- The names of the parts of a type are known: its templates, and no class where `self` occurs. -/
structure Knows (names : NameResolver) (t : TypeTable) (i : TypeId) : Prop where
  template : ∀ j e s, t.Within i j → t.entries[j]? = some e → e.type.kind = .template s →
    names.isTemplate s = true
  self : ∀ j e, t.Within i j → t.entries[j]? = some e → e.type.kind = .native .self →
    names.selfClass = none

theorem Knows.part {names : NameResolver} {i j : TypeId} {e : TypeEntry} (h : Knows names t i)
    (he : t.entries[i]? = some e) (hj : j ∈ e.type.kind.embedded) : Knows names t j :=
  ⟨fun k f s hk => h.template k f s (.part he hj hk), fun k f hk => h.self k f (.part he hj hk)⟩

/-- Every well-formed type whose names are known can be read, by induction on its place. -/
theorem readable (hc : t₀.Canonical) (i : TypeId) (hi : i < t₀.size)
    (hwf : ∀ (j : TypeId) (e : TypeEntry), t₀.Within i j → t₀.entries[j]? = some e →
      e.type.kind.WellFormed)
    (hk : Knows src.names t₀ i) : Readable src t₀ i := by
  induction i using Nat.strong_induction_on with
  | _ i ih =>
    obtain ⟨e, he⟩ := TypeTable.exists_entry hi
    refine ⟨e, he, kindReads hc (hwf i e (.self i) he) (fun j hj => ?_) (hk.self i e (.self i) he)
      fun s => hk.template i e s (.self i) he⟩
    exact ih j (TypeTable.embedded_lt he hj) ((TypeTable.embedded_lt he hj).trans hi)
      (fun k f hk => hwf k f (.part he hj hk)) (hk.part he hj)

/-! ### Whole texts -/

/-- The text of a union is read to its end. -/
theorem reads_whole (hc : t₀.Canonical) {u : UnionType} (hne : u.members ≠ [])
    (hu : ∀ i ∈ u.members, Readable src t₀ i) :
    Reads src (TypeTable.unionLevels t₀.levels u ≤ maxDepth) (whole src) (t₀.renderUnion u).toList []
      t₀ fun v _ => v.SameMembers u := by
  have hunion := reads_union hc hne hu maxDepth t₀ [] (.refl hc) closes_nil
  rw [List.append_nil] at hunion
  refine Reads.of_iff (Reads.bind hunion fun v t' hg hv => ?_) (Iff.of_eq (and_true _))
  refine Reads.after (gives_skipSpace (by simp [Dense])) (Reads.after gives_get ?_)
  exact Reads.of_gives (gives_pure v) (.refl hg.canonical) hv

theorem isBlankChar_of_isNumeralChar {c : Char} (h : isNumeralChar c = true) :
    Text.isBlankChar c = false := by
  simp only [isNumeralChar, Bool.or_eq_true, beq_iff_eq] at h
  rcases h with rfl | h
  · decide
  · simp only [Char.isDigit, Bool.and_eq_true, decide_eq_true_eq, UInt32.le_iff_toNat_le] at h
    have hcode : 48 ≤ c.toNat ∧ c.toNat ≤ 57 := h
    simp only [Text.isBlankChar, Text.inRanges, Text.blankRanges, List.any_cons, List.any_nil,
      Bool.or_false, Bool.or_eq_false_iff, decide_eq_false_iff_not]
    omega

/-- No well-formed kind is written with white space alone. -/
theorem not_isBlank_renderKind {kind : TypeKind} (hwf : kind.WellFormed) :
    ∃ c ∈ (t₀.renderKind kind).toList, Text.isBlankChar c = false := by
  cases kind with
  | native k =>
    have hname : k.name.toList.any (fun c => !Text.isBlankChar c) = true := by cases k <;> decide
    simpa [TypeTable.renderKind] using hname
  | object name args =>
    obtain ⟨w, hw⟩ := QualifiedName.WellFormed.text_eq_cons hwf.1
    refine ⟨'\\', ?_, by decide⟩
    rw [TypeTable.renderKind]
    by_cases hargs : args = []
    · rw [TypeTable.renderClass, hargs]; simp [hw]
    · rw [TypeTable.toList_renderClass _ hargs]; simp [hw]
  | array key i =>
    cases key with
    | int => exact ⟨'a', by rw [TypeTable.renderKind, TypeTable.toList_renderArray_int]; simp, by decide⟩
    | string =>
      exact ⟨'a', by rw [TypeTable.renderKind, TypeTable.toList_renderArray_string]; simp, by decide⟩
    | mixed =>
      exact ⟨'[', by rw [TypeTable.renderKind, TypeTable.toList_renderArray_mixed]; simp, by decide⟩
  | shape fields => exact ⟨'a', by rw [TypeTable.toList_renderShape]; simp, by decide⟩
  | intLiteral n =>
    obtain ⟨c, hmem⟩ := List.exists_mem_of_ne_nil _ (Text.decimal_ne_nil n)
    exact ⟨c, hmem, isBlankChar_of_isNumeralChar (Text.isNumeralChar_of_mem_decimal hmem)⟩
  | stringLiteral s =>
    exact ⟨'\'', by rw [TypeTable.renderKind, toList_quote]; simp, by decide⟩
  | callable sig => exact ⟨'(', by rw [TypeTable.toList_renderCallable]; simp, by decide⟩
  | template s =>
    have hblank := hwf.2.2
    rw [Text.isBlank, List.all_eq_false] at hblank
    simpa [TypeTable.renderKind] using hblank

theorem mem_intercalate {sep c : Char} {w : List Char} {ws : List (List Char)} (hw : w ∈ ws)
    (hc : c ∈ w) : c ∈ [sep].intercalate ws := by
  cases ws with
  | nil => cases hw
  | cons v ws =>
    rw [intercalate_eq_flatMap, List.mem_append, List.mem_flatMap]
    rcases List.mem_cons.1 hw with rfl | hw
    · exact .inl hc
    · exact .inr ⟨w, hw, by simp [hc]⟩

theorem not_isBlank_renderUnion (hc : t₀.Canonical) {u : UnionType} (hne : u.members ≠ [])
    (hu : ∀ i ∈ u.members, i < t₀.size)
    (hwf : ∀ i ∈ u.members, ∀ e, t₀.entries[i]? = some e → e.type.kind.WellFormed) :
    Text.isBlank (t₀.renderUnion u) = false := by
  obtain ⟨i, hi⟩ := List.exists_mem_of_ne_nil _ hne
  obtain ⟨e, he⟩ := TypeTable.exists_entry (hu i hi)
  obtain ⟨c, hmem, hblank⟩ := not_isBlank_renderKind (hwf i hi e he)
  rw [Text.isBlank, List.all_eq_false]
  refine ⟨c, ?_, by simp [hblank]⟩
  rw [TypeTable.toList_renderUnion]
  refine mem_intercalate (TypeTable.mem_memberTexts.2 ⟨i, hi, rfl⟩) ?_
  rw [TypeTable.key_eq he, hc.keyed i e he, TypeTable.toList_render]
  exact List.mem_append_right _ hmem

theorem parse_eq_of_gives {names : NameResolver} {input : String} {u : UnionType} {t' : TypeTable}
    (hblank : Text.isBlank input = false)
    (h : Gives (whole ⟨names, input⟩) input.toList t u rest t') :
    UnionType.parse names input t = .ok (.ok u, t') := by
  rw [UnionType.parse, hblank]
  exact TypeM.bind_eq_ok.2 ⟨.ok (u, rest), t', h, rfl⟩

theorem parse_eq_of_stops {names : NameResolver} {input : String}
    (hblank : Text.isBlank input = false)
    (h : StopsTooDeep ⟨names, input⟩ (whole ⟨names, input⟩) input.toList t) :
    ∃ t', UnionType.parse names input t = .ok (.error (.tooDeep input maxDepth), t') := by
  obtain ⟨t', h⟩ := h
  rw [UnionType.parse, hblank]
  exact ⟨t', TypeM.bind_eq_ok.2 ⟨_, t', h, rfl⟩⟩

end TypeParser

namespace TypeTable

open TypeParser

variable {t : TypeTable}

/-- It is enough that the types inside the union are well formed. -/
theorem Canonical.parse_display_within (hc : t.Canonical) {u : UnionType}
    (hu : ∀ i ∈ u.members, i < t.size)
    (hwf : ∀ i ∈ u.members, ∀ j e, t.Within i j → t.entries[j]? = some e → e.type.kind.WellFormed)
    {names : NameResolver} (hk : ∀ i ∈ u.members, Knows names t i) :
    (unionLevels t.levels u ≤ maxDepth → ∃ v t',
      UnionType.parse names (t.renderUnion u) t = .ok (.ok v, t') ∧ v.SameMembers u ∧ t.Extends t') ∧
    (maxDepth < unionLevels t.levels u → ∃ t',
      UnionType.parse names (t.renderUnion u) t =
        .ok (.error (.tooDeep (t.renderUnion u) maxDepth), t')) := by
  by_cases hne : u.members = []
  · have htext : t.renderUnion u = "" := by
      apply String.toList_inj.1
      rw [toList_renderUnion, memberTexts_eq_nil.2 hne]
      rfl
    have hlevels : unionLevels t.levels u = 1 := by rw [unionLevels, hne]; rfl
    rw [htext, hlevels]
    refine ⟨fun _ => ⟨.empty, t, rfl, fun a => by rw [hne]; rfl, Extends.refl t⟩, fun h => ?_⟩
    exact absurd h (by decide)
  · have hreadable : ∀ i ∈ u.members, Readable ⟨names, t.renderUnion u⟩ t i := fun i hi =>
      readable hc i (hu i hi) (hwf i hi) (hk i hi)
    have hread := reads_whole hc hne hreadable
    have hblank := not_isBlank_renderUnion hc hne hu fun i hi e he => hwf i hi i e (.self i) he
    constructor
    · intro hfits
      obtain ⟨v, t', hgives, hg, hv⟩ := hread.gives hfits
      exact ⟨v, t', parse_eq_of_gives hblank hgives, hv, hg.keeps⟩
    · exact fun hdeep => parse_eq_of_stops hblank (hread.stops (Nat.not_le.2 hdeep))

theorem Canonical.parse_display (hc : t.Canonical)
    (hwf : ∀ (i : TypeId) (e : TypeEntry), t.entries[i]? = some e → e.type.kind.WellFormed)
    {u : UnionType} (hu : ∀ i ∈ u.members, i < t.size) {names : NameResolver}
    (hk : ∀ i ∈ u.members, Knows names t i) :
    (unionLevels t.levels u ≤ maxDepth → ∃ v t',
      UnionType.parse names (t.renderUnion u) t = .ok (.ok v, t') ∧ v.SameMembers u ∧ t.Extends t') ∧
    (maxDepth < unionLevels t.levels u → ∃ t',
      UnionType.parse names (t.renderUnion u) t =
        .ok (.error (.tooDeep (t.renderUnion u) maxDepth), t')) :=
  hc.parse_display_within hu (fun _ _ j e _ he => hwf j e he) hk

theorem knows_of_mentions {u : UnionType} {names : NameResolver}
    (htemplate : ∀ s, t.Mentions u (.template s) → names.isTemplate s = true)
    (hself : t.Mentions u (.native .self) → names.selfClass = none) :
    ∀ i ∈ u.members, Knows names t i := fun i hi =>
  ⟨fun j e s hj he hs => htemplate s ⟨i, hi, j, e, hj, he, hs⟩,
    fun j e hj he hs => hself ⟨i, hi, j, e, hj, he, hs⟩⟩

/-- Writing and reading back is the identity. In a table that was asked for well-formed types only,
the text of a union is read as a union with the same members, whatever the names in it are resolved
with, as long as its templates are known and no class stands for `self` where it occurs; and it is
refused, as too deep, exactly if it takes more levels than allowed. A single type without templates
is read back at its place. -/
theorem parse_display_eq (h : Reachable TypeKind.WellFormed t) :
    (∀ (u : UnionType) (names : NameResolver), (∀ i ∈ u.members, i < t.size) →
      (∀ s, t.Mentions u (.template s) → names.isTemplate s = true) →
      (t.Mentions u (.native .self) → names.selfClass = none) →
      ∃ text, u.display t = .ok text ∧
        (unionLevels t.levels u ≤ maxDepth → ∃ v t',
          UnionType.parse names text t = .ok (.ok v, t') ∧ v.SameMembers u ∧ t.Extends t') ∧
        (maxDepth < unionLevels t.levels u → ∃ t',
          UnionType.parse names text t = .ok (.error (.tooDeep text maxDepth), t'))) ∧
    (∀ i < t.size, (∀ s, ¬ t.Mentions (.of i) (.template s)) →
      unionLevels t.levels (.of i) ≤ maxDepth →
      ∃ text t', t.typeKey i = .ok text ∧ UnionType.parseSingle text t = .ok (.ok i, t') ∧
        t.Extends t') := by
  have hc := h.canonical typeSort_wellFormed
  have hwf : ∀ (i : TypeId) (e : TypeEntry), t.entries[i]? = some e → e.type.kind.WellFormed :=
    fun i e he => h.kind_ok typeSort_wellFormed he
  constructor
  · intro u names hu htemplate hself
    exact ⟨t.renderUnion u, display_eq_ok hu,
      hc.parse_display hwf hu (knows_of_mentions htemplate hself)⟩
  · intro i hi htemplate hfits
    have hu : ∀ j ∈ (UnionType.of i).members, j < t.size := fun j hj => by
      rwa [UnionType.mem_of.1 hj]
    have hknows : ∀ j ∈ (UnionType.of i).members, Knows .fullyQualified t j :=
      knows_of_mentions (fun s hs => absurd hs (htemplate s)) fun _ => rfl
    obtain ⟨v, t', hparse, hv, hext⟩ := (hc.parse_display hwf hu hknows).1 hfits
    rw [renderUnion_of] at hparse
    refine ⟨t.key i, t', by rw [typeKey, if_pos hi], ?_, hext⟩
    refine TypeM.bind_eq_ok.2 ⟨.ok v, t', hparse, ?_⟩
    rw [sameMembers_of hv]
    simp only [UnionType.single?, UnionType.members_of]
    rfl

/-- A nullable array with integer keys is written and read back. -/
theorem parse_display_eq_array : ∃ i t,
    TypeM.array .int NativeKind.string.id true (initial false) = .ok (i, t) ∧
    (UnionType.of i).display t = .ok "?array<int,string>" ∧
    ∃ v t', UnionType.parse .fullyQualified "?array<int,string>" t = .ok (.ok v, t') ∧
      v.SameMembers (.of i) := by
  have hc := canonical_initial false
  have hin : ∀ e ∈ (TypeKind.array .int NativeKind.string.id).embedded, e < (initial false).size := by
    simpa [TypeKind.embedded] using lt_size_of_entry (hc.natives .string)
  have hkind : (TypeKind.array .int NativeKind.string.id).WellFormed := trivial
  obtain ⟨i, t, hrun, hgrows, hfinds⟩ :=
    TypeM.intern_spec hc true (by trivial) hkind hin
  have hreach : Reachable TypeKind.WellFormed t := by
    refine ⟨false, .step (r := .array .int NativeKind.string.id true) .refl ?_ hrun⟩
    rintro kind hkind
    cases hkind
    trivial
  -- the entry is the array itself, as no two arrays are alike
  have hw := writable_normalize true (fun e he => hgrows.keeps.lt_size (hin e he)) trivial
  obtain ⟨e, he, hid⟩ := hgrows.canonical.identity_of_finds hw hfinds
  have htype : e.type = ⟨.array .int NativeKind.string.id, true⟩ := by
    obtain ⟨hnull, halike⟩ := (hgrows.canonical.identity_eq_iff (hgrows.canonical.writable he) hw).1 hid
    obtain ⟨⟨kind, nullable⟩, key⟩ := e
    cases kind with
    | array key j =>
      obtain ⟨rfl, rfl⟩ := halike
      cases hnull
      rfl
    | _ => exact absurd halike id
  have hstring := hgrows.canonical.natives .string
  have hdisplay : (UnionType.of i).display t = .ok "?array<int,string>" := by
    rw [display_eq_ok fun j hj => UnionType.mem_of.1 hj ▸ lt_size_of_entry he, renderUnion_of,
      key_eq he, hgrows.canonical.keyed i e he, htype, render, renderKind, renderArray,
      key_eq hstring]
    rfl
  have hlevels : unionLevels t.levels (.of i) ≤ maxDepth := by
    rw [unionLevels_of, levels_eq he, htype, kindLevels, levels_native hgrows.canonical]
    · decide
    · simp
  have htemplate : ∀ s, ¬ t.Mentions (.of i) (.template s) := by
    rintro s ⟨j, hj, k, f, hk, hf, hs⟩
    rw [UnionType.mem_of.1 hj] at hk
    cases hk with
    | self => rw [he] at hf; cases hf; rw [htype] at hs; cases hs
    | part he' hj' hk =>
      rw [he] at he'
      cases he'
      rw [htype, TypeKind.embedded, List.mem_singleton] at hj'
      subst hj'
      cases hk with
      | self => rw [hstring] at hf; cases hf; cases hs
      | part hs' hl => rw [hstring] at hs'; cases hs'; cases hl
  obtain ⟨text, htext, hread, -⟩ := (parse_display_eq hreach).1 (.of i) .fullyQualified
    (fun j hj => UnionType.mem_of.1 hj ▸ lt_size_of_entry he)
    (fun s hs => absurd hs (htemplate s)) fun _ => rfl
  rw [hdisplay] at htext
  cases htext
  obtain ⟨v, t', hparse, hv, -⟩ := hread hlevels
  exact ⟨i, t, hrun, hdisplay, v, t', hparse, hv⟩

end TypeTable

end UnionInference
