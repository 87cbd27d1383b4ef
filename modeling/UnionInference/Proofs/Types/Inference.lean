import UnionInference.Proofs.Types.Binding
import UnionInference.Proofs.Types.Listing
import UnionInference.Proofs.Types.RoundTrip

/-!
Learning what placeholders stand for is sound for the argument it was learned from: the argument casts
to the declared type with what was learned in the places of the placeholders. A plain array among the
members of an argument hides what the arrays next to it hold, so nothing may be missed there.
-/

namespace UnionInference

open TypeTable UnionType

/-- Standard kinds in which integers have 64 bits. -/
def TypeKind.Exact (kind : TypeKind) : Prop :=
  kind.Standard ∧ ∀ v, kind = .intLiteral v → Text.isInteger v = true

theorem TypeKind.Exact.regular {kind : TypeKind} (h : kind.Exact) : kind.Regular .regular := by
  have hname : ∀ name args, kind = .object name args → name.Regular := by
    rintro name args rfl
    exact ⟨h.1.1.1, h.1.2 name args rfl⟩
  refine ⟨?_, hname⟩
  cases kind with
  | object name args => exact ⟨(hname name args rfl).typable, fun _ => hname name args rfl⟩
  | template s => exact fun _ => h.1.1
  | shape fields => exact fun _ => h.1.1.1
  | intLiteral v => exact fun _ => h.2 v rfl
  | stringLiteral s => exact fun _ hdependent => hdependent.elim
  | _ => trivial

namespace UnionType

open TypeM

variable {t : TypeTable} {d : TypeId} {a : UnionType}

/-- The work that replaces placeholders leads to a later table of standard types. -/
theorem later_substitute (h : Reachable TypeKind.Exact t) (hd : d < t.size) {m : TemplateMap}
    (hm : m.Held (fun _ => True) t) : ∃ v t₁, (of d).substitute m t = .ok (v, t₁) ∧
      t.Later t₁ ∧ ∃ w, t₁.Turns m.replacement d w ∧ v.SameMembers w := by
  have hproper := (h.mono fun _ hkind => hkind.1.1).proper
  have hin : ∀ i ∈ (of d).members, i < t.size := fun i hi => mem_of.1 hi ▸ hd
  obtain ⟨v, t₁, hrun, hext, ht₁, ⟨f, hf, hv⟩, -⟩ := delivers_substitute hproper hin hm
  obtain ⟨v', t₁', hrun', -, hsound, -⟩ := supplies_substitute (traces_true .regular)
    (h.mono fun _ hkind => hkind.regular).sound
    (fun i hi => holds_of_lt (p := fun _ => True) (hin i hi) fun _ => trivial) hm
    fun _ _ _ => trivial
  rw [hrun] at hrun'
  cases hrun'
  refine ⟨v, t₁, hrun, ⟨hproper.canonical, h.rooted, ht₁.canonical, hext.rooted h.rooted, hext.keeps,
    fun i ty hty => ⟨ht₁.kinds i ty hty, ?_⟩⟩, f d, hf d (mem_of.2 rfl), fun j => ?_⟩
  · rintro name args hk
    have hfit := hsound.fit i ty hty
    rw [hk] at hfit
    exact (hfit.2 (.inl trivial)).divided
  · rw [hv, mem_flatMap]
    simp

/-- An argument without null and shapes that casts to a type built from placeholders casts to that type
with what was learned from it in the places of the placeholders. For this no class may stand behind an
array of arrays in the declared type, or no plain array behind an array in the argument, unless the
outer array has keys of all kinds. -/
theorem canCast_bindTemplates (h : Reachable TypeKind.Exact t) (hd : t.IsPattern d)
    (ha : a.Inside t) (hne : a.members ≠ []) (hplain : ∀ x ∈ a.members, t.Plain x)
    (hrows : t.MixedRows (fun e => t.IsArrayAt e ∧ t.EndsIn TypeKind.IsObject e) d ∨
      ∀ x ∈ a.members, t.MixedRows (t.EndsIn TypeKind.IsOpen) x)
    (hcast : a.canCast (of d) t = .ok true) :
    ∃ m v t₁, (of d).bindTemplates a [] t = .ok (m, t) ∧ (of d).substitute m t = .ok (v, t₁) ∧
      a.canCast v t₁ = .ok true := by
  have hlt : d < t.size := by
    cases hd with
    | template hd | array hd | object hd => exact lt_size_of_get? hd
  have hc := (h.mono fun _ hkind => hkind.1.1).proper.canonical
  have hin : ∀ x ∈ a.members, x < t.size := fun x hx => (ha x hx).lt_size
  obtain ⟨m, hbind, -, hm, hlearns⟩ := gathers_bindType (m := []) hc h.rooted ha hplain nofun hlt
  obtain ⟨v, t₁, hrun, hlater, w, hturns, hsame⟩ := later_substitute h hlt hm
  refine ⟨m, v, t₁, bind_eq_ok.2 ⟨m, t, hbind, rfl⟩, hrun, ?_⟩
  have hkept : t.Unhidden a (· ∈ a.members) d := by
    rcases hrows with hrows | hrows
    · exact .declared hrows fun _ _ x hx _ => hx
    · exact .argument hrows fun x hx _ => hx
  have hsome : ∃ x, x ∈ a.members ∧ t.Casts x d := by
    have hdin : ∀ y ∈ (of d).members, y < t.size := fun y hy => mem_of.1 hy ▸ hlt
    rcases (decides_canCast h.rooted hin hdin).iff.1 hcast with hnil | hnil | ⟨x, hx, y, hy, hxy⟩
    · exact absurd hnil hne
    · rw [members_of] at hnil
      cases hnil
    · exact ⟨x, hx, mem_of.1 hy ▸ hxy⟩
  obtain ⟨x, hx, y, hy, hxy⟩ :=
    hlater.follows hd hlearns ha hplain
      (fun x hx => stands_of_mem h.rooted hx (hplain x hx) (hin x hx)) hkept hturns hsome
  refine (decides_canCast hlater.rooted₁ (fun x hx => hlater.keeps.lt_size (hin x hx)) fun y hy =>
    hturns.lt_size hlater.canonical₁ y ((hsame y).1 hy)).iff.2 ?_
  exact .inr (.inr ⟨x, hx, y, (hsame y).2 hy, hxy⟩)

/-- The argument casts to a type built from placeholders, but not to that type with what was learned. -/
def LosesCast (t : TypeTable) (d a : TypeId) : Prop :=
  t.IsPattern d ∧ t.Plain a ∧ (of a).canCast (of d) t = .ok true ∧
    ∃ m v t₁, (of d).bindTemplates (of a) [] t = .ok (m, t) ∧ (of d).substitute m t = .ok (v, t₁) ∧
      (of a).canCast v t₁ = .ok false

/-! ### Arrays next to a plain array -/

/-- Boxes of a placeholder in rows that are keyed by strings, next to the placeholder; and rows of plain
arrays that are keyed by integers or rows of boxes of integers, next to a string. -/
def pairRows : List TypeEntry :=
  [⟨⟨.template "T", false⟩, "T"⟩,
    ⟨⟨.object (.make "\\" "Box") [of 31], false⟩, "\\Box<T>"⟩,
    ⟨⟨.array .mixed 32, false⟩, "\\Box<T>[]"⟩,
    ⟨⟨.array .string 33, false⟩, "array<string,\\Box<T>[]>"⟩,
    ⟨⟨.object (.make "\\" "Pair") [of 34, of 31], false⟩, "\\Pair<array<string,\\Box<T>[]>,T>"⟩,
    ⟨⟨.object (.make "\\" "Box") [native .int], false⟩, "\\Box<int>"⟩,
    ⟨⟨.array .mixed 36, false⟩, "\\Box<int>[]"⟩,
    ⟨⟨.array .int NativeKind.array.id, false⟩, "array<int,array>"⟩,
    ⟨⟨.array .string 37, false⟩, "array<string,\\Box<int>[]>"⟩,
    ⟨⟨.object (.make "\\" "Pair") [.ofList [38, 39], native .string], false⟩,
      "\\Pair<array<int,array>|array<string,\\Box<int>[]>,string>"⟩]

theorem exact_template : (TypeKind.template "T").Exact :=
  ⟨⟨⟨⟨by decide, by rintro _ ⟨⟩; rfl⟩, fun k => by cases k <;> decide⟩, nofun⟩, nofun⟩

theorem exact_object {segment : String} (h : (.make "\\" segment : ClassName).WellFormed ∧
    (.make "\\" segment : ClassName).Normalized ∧ (.make "\\" segment : ClassName).Divided)
    (args : List UnionType) : (TypeKind.object (.make "\\" segment) args).Exact :=
  ⟨⟨⟨h.1, h.2.1⟩, fun _ _ heq => by cases heq; exact h.2.2⟩, nofun⟩

theorem exists_lists_pair : ∃ t names, Reachable TypeKind.Exact t ∧ t.Lists pairRows names := by
  have hbox : ∀ args, (TypeKind.object (.make "\\" "Box") args).Exact :=
    exact_object ⟨⟨["Box".toList], by decide, by decide, by decide⟩, by decide, rfl⟩
  have hpair : ∀ args, (TypeKind.object (.make "\\" "Pair") args).Exact :=
    exact_object ⟨⟨["Pair".toList], by decide, by decide, by decide⟩, by decide, rfl⟩
  have harray : ∀ key e, (TypeKind.array key e).Exact := fun _ _ => ⟨⟨trivial, nofun⟩, nofun⟩
  have hreach : Reachable TypeKind.Exact (initial false) := ⟨false, .refl⟩
  have hplain : ∀ {t : TypeTable} {i : TypeId} {name args},
      t.get? i = some ⟨.object name args, false⟩ → t.needsParens i = false := by
    intro t i name args hi
    rw [needsParens, hi]
  have hin : ∀ {t : TypeTable} {i : TypeId} {e : TypeEntry}, t.entries[i]? = some e →
      ∀ j ∈ (of i).members, j < t.size := fun he j hj => mem_of.1 hj ▸ lt_size_of_entry he
  have htext : ∀ {t : TypeTable} {i : TypeId} {e : TypeEntry}, t.entries[i]? = some e →
      t.renderUnion (of i) = e.key := fun he => (renderUnion_of _ _).trans (key_eq he)
  -- the declared type
  obtain ⟨t, h, l⟩ := (lists_initial false).reaches_new hreach exact_template (writes_template _ "T")
    (by decide) rfl
  have hT := l.entry (i := 31) rfl
  obtain ⟨t, h, l⟩ := l.reaches_new h (hbox _)
    (writes_class t (.make "\\" "Box") (hin hT) (htext hT)) (by decide) rfl
  obtain ⟨t, h, l⟩ := l.reaches_new h (harray _ _) (l.writes_arrayOf 32 rfl
    (hplain (get?_eq (l.entry (i := 32) rfl))) false) (by decide) rfl
  have hrow := l.entry (i := 33) rfl
  obtain ⟨t, h, l⟩ := l.reaches_new h (harray _ _) (t.writes_arrayBy .string
    (lt_size_of_entry hrow) (by rw [renderArray, key_eq hrow])) (by decide) rfl
  have hT := l.entry (i := 31) rfl
  have hrows := l.entry (i := 34) rfl
  obtain ⟨t, h, l⟩ := l.reaches_new h (hpair _) (t.writes_class₂ (.make "\\" "Pair")
    (hin hrows) (hin hT) (htext hrows) (htext hT)) (by decide) rfl
  -- the argument
  have hint := l.entry (i := NativeKind.int.id) rfl
  obtain ⟨t, h, l⟩ := l.reaches_new h (hbox _)
    (writes_class t (.make "\\" "Box") (hin hint) (htext hint)) (by decide) rfl
  obtain ⟨t, h, l⟩ := l.reaches_new h (harray _ _) (l.writes_arrayOf 36 rfl
    (hplain (get?_eq (l.entry (i := 36) rfl))) false) (by decide) rfl
  have hopen := l.entry (i := NativeKind.array.id) rfl
  obtain ⟨t, h, l⟩ := l.reaches_new h (harray _ _) (t.writes_arrayBy .int
    (lt_size_of_entry hopen) (by rw [renderArray, key_eq hopen])) (by decide) rfl
  have hrow := l.entry (i := 37) rfl
  obtain ⟨t, h, l⟩ := l.reaches_new h (harray _ _) (t.writes_arrayBy .string
    (lt_size_of_entry hrow) (by rw [renderArray, key_eq hrow])) (by decide) rfl
  have hopens := l.entry (i := 38) rfl
  have hrows := l.entry (i := 39) rfl
  have hstring := l.entry (i := NativeKind.string.id) rfl
  have hunion := t.renderUnion_pair (i := 38) (j := 39) (by decide)
    (by rw [key_eq hopens, key_eq hrows]; decide)
  rw [key_eq hopens, key_eq hrows] at hunion
  have hboth : ∀ e ∈ (UnionType.ofList [38, 39]).members, e < t.size := by
    intro e he
    rcases List.mem_pair.1 (mem_ofList.1 he) with rfl | rfl
    · exact lt_size_of_entry hopens
    · exact lt_size_of_entry hrows
  obtain ⟨t, h, l⟩ := l.reaches_new h (hpair _) (t.writes_class₂ (.make "\\" "Pair") hboth
    (hin hstring) hunion (htext hstring)) (by decide) rfl
  exact ⟨t, _, h, l⟩

/-- A placeholder stands for a type without null that is no literal when it meets it. -/
theorem bindType_template (ht : t.Rooted) {i : TypeId} {ty : Ty} (hi : t.get? i = some ty)
    (hty : ¬ ty.kind.IsLiteral) (hnull : ty.admitsNull = false) {s : String} {n : Bool}
    (hd : t.get? d = some ⟨.template s, n⟩) (m : TemplateMap) :
    bindType (of i) m d t = .ok (m.add s (of i), t) := by
  obtain ⟨v, hwithout, hv⟩ := ht.withoutNull (u := of i) fun j hj => ⟨ty, mem_of.1 hj ▸ hi, hnull⟩
  obtain rfl := eq_of_sameMembers_of hv
  obtain ⟨below, hfetch⟩ := TypeM.exists_fetchBelow hd
  rw [bindType]
  exact bind_eq_ok.2 ⟨_, t, hfetch, bind_eq_ok.2 ⟨_, t, widenLiterals_of ht hi hty,
    bind_eq_ok.2 ⟨_, t, hwithout, rfl⟩⟩⟩

/-- At an array what is learned is learned from the widened elements. -/
theorem bindType_array {u elements w : UnionType} (hne : u.members ≠ [])
    (helements : u.elementTypes t = .ok elements) (hw : elements.widenLiterals t = .ok (w, t))
    {k : KeyKind} {e : TypeId} {n : Bool} (hd : t.get? d = some ⟨.array k e, n⟩) {m : TemplateMap}
    {r : TemplateMap × TypeTable} (he : bindType w m e t = .ok r) : bindType u m d t = .ok r := by
  obtain ⟨below, hfetch⟩ := TypeM.exists_fetchBelow hd
  rw [bindType, if_neg (by rwa [isEmpty, List.isEmpty_iff])]
  refine bind_eq_ok.2 ⟨_, t, hfetch, bind_eq_ok.2 ⟨elements, t, ?_, bind_eq_ok.2 ⟨w, t, hw, he⟩⟩⟩
  rw [query, helements]
  rfl

/-- Of the boxes behind the plain array nothing is learned. -/
theorem bindTemplates_pair {names : List (String × TypeId)} (l : t.Lists pairRows names)
    (hc : t.Canonical) (ht : t.Rooted) :
    (of 35).bindTemplates (of 40) [] t = .ok ([("T", native .string)], t) := by
  have hmixed := ht.get?_native .mixed
  have hwiden : mixed.widenLiterals t = .ok (mixed, t) := widenLiterals_of ht hmixed id
  have hopens := get?_eq (l.entry (i := 38) rfl)
  have hboxes := get?_eq (l.entry (i := 39) rfl)
  -- the class finds no objects among all values
  have hbox : bindType mixed [] 32 t = .ok ([], t) := by
    obtain ⟨below, hfetch⟩ := TypeM.exists_fetchBelow (get?_eq (l.entry (i := 32) rfl))
    obtain ⟨e, he, hmixed⟩ := Option.map_eq_some_iff.1 hmixed
    rw [bindType]
    exact bind_eq_ok.2 ⟨_, _, hfetch, bind_eq_ok.2 ⟨[], t,
      bind_eq_ok.2 ⟨_, _, fetch_eq_ok.2 ⟨rfl, e, he, hmixed⟩, rfl⟩, rfl⟩⟩
  have hrow : ∀ u : UnionType, u.Inside t → HasOpen t u → bindType u [] 33 t = .ok ([], t) := by
    intro u hu hopen
    obtain ⟨x, hx, -⟩ := id hopen
    obtain ⟨elements, helements, hall, -⟩ := elementTypes_eq hu
    rw [hall hopen] at helements
    exact bindType_array (List.ne_nil_of_mem hx) helements hwiden (get?_eq (l.entry (i := 33) rfl)) hbox
  have hrows : bindType (ofList [38, 39]) [] 34 t = .ok ([], t) := by
    have hu : (ofList [38, 39]).Inside t := by
      intro e he
      rcases List.mem_pair.1 (mem_ofList.1 he) with rfl | rfl
      exacts [inside_of_get? hopens _ (mem_of.2 rfl), inside_of_get? hboxes _ (mem_of.2 rfl)]
    have hclosed : ¬ HasOpen t (ofList [38, 39]) := by
      rintro ⟨i, hi, ty, hty, hopen⟩
      rcases List.mem_pair.1 (mem_ofList.1 hi) with rfl | rfl
      · cases hty.symm.trans hopens
        simp at hopen
      · cases hty.symm.trans hboxes
        simp at hopen
    obtain ⟨elements, helements, -, helement⟩ := elementTypes_eq hu
    have helement := helement hclosed
    obtain ⟨w, hwiden, hw⟩ := image_widenLiterals hc ht fun x hx => ((helement x).1 hx).lt_size
    refine bindType_array (by decide) helements hwiden (get?_eq (l.entry (i := 34) rfl))
      (hrow w (fun y hy => ?_) ?_)
    · obtain ⟨x, -, hxy⟩ := (hw.mem y).1 hy
      exact holds_of_lt hxy.lt_size fun _ => trivial
    · have harray := ht.get?_native .array
      have hmem := (helement NativeKind.array.id).2
        ⟨38, by decide, _, hopens, List.mem_singleton_self _⟩
      exact ⟨_, (hw.mem _).2 ⟨_, hmem, widens_self harray id⟩, _, harray, .inl rfl⟩
  have hT : bindType (native .string) [] 31 t = .ok ([("T", native .string)], t) :=
    bindType_template ht (ht.get?_native .string) id rfl (get?_eq (l.entry (i := 31) rfl)) []
  obtain ⟨below, hfetch⟩ := TypeM.exists_fetchBelow (get?_eq (l.entry (i := 35) rfl))
  obtain ⟨e, he, hpair⟩ := Option.map_eq_some_iff.1 (get?_eq (l.entry (i := 40) rfl))
  refine bind_eq_ok.2 ⟨_, _, ?_, rfl⟩
  rw [bindType]
  refine bind_eq_ok.2 ⟨_, _, hfetch, bind_eq_ok.2 ⟨_, _,
    bind_eq_ok.2 ⟨_, _, fetch_eq_ok.2 ⟨rfl, e, he, hpair⟩, ?_⟩, rfl⟩⟩
  exact bind_eq_ok.2 ⟨_, _, bind_eq_ok.2 ⟨_, _, hrows, rfl⟩,
    bind_eq_ok.2 ⟨_, _, bind_eq_ok.2 ⟨_, _, hT, rfl⟩, rfl⟩⟩

theorem isPattern_pair {names : List (String × TypeId)} (l : t.Lists pairRows names) :
    t.IsPattern 34 ∧ t.IsPattern 35 := by
  have hof : ∀ {e i : TypeId}, of e = of i → e = i := fun he => mem_of.1 (he ▸ mem_of.2 rfl)
  have hT : t.IsPattern 31 := .template (get?_eq (l.entry (i := 31) rfl))
  have hbox : t.IsPattern 32 := .object (get?_eq (l.entry (i := 32) rfl))
    (fun p hp => ⟨31, List.mem_singleton.1 hp⟩) fun e he => hof (List.mem_singleton.1 he) ▸ hT
  have hrows : t.IsPattern 34 := .array (get?_eq (l.entry (i := 34) rfl))
    (.array (get?_eq (l.entry (i := 33) rfl)) hbox)
  refine ⟨hrows, .object (get?_eq (l.entry (i := 35) rfl)) (fun p hp => ?_) fun e he => ?_⟩
  · rcases List.mem_pair.1 hp with rfl | rfl
    exacts [⟨34, rfl⟩, ⟨31, rfl⟩]
  · rcases List.mem_pair.1 he with he | he
    exacts [hof he ▸ hrows, hof he ▸ hT]

theorem plain_pair {names : List (String × TypeId)} (l : t.Lists pairRows names) (ht : t.Rooted) :
    t.Plain 40 := by
  have hint : t.Plain NativeKind.int.id := plain_intro (ht.get?_native .int) rfl rfl nofun
  have hstring : t.Plain NativeKind.string.id := plain_intro (ht.get?_native .string) rfl rfl nofun
  have harray : t.Plain NativeKind.array.id := plain_intro (ht.get?_native .array) rfl rfl nofun
  have hbox : t.Plain 36 := plain_intro (get?_eq (l.entry (i := 36) rfl)) rfl rfl
    (List.forall_mem_singleton.2 hint)
  have hrow : t.Plain 37 := plain_intro (get?_eq (l.entry (i := 37) rfl)) rfl rfl
    (List.forall_mem_singleton.2 hbox)
  have hopens : t.Plain 38 := plain_intro (get?_eq (l.entry (i := 38) rfl)) rfl rfl
    (List.forall_mem_singleton.2 harray)
  have hrows : t.Plain 39 := plain_intro (get?_eq (l.entry (i := 39) rfl)) rfl rfl
    (List.forall_mem_singleton.2 hrow)
  refine plain_intro (get?_eq (l.entry (i := 40) rfl)) rfl rfl fun e he => ?_
  obtain ⟨u, hu, he⟩ := List.mem_flatMap.1 he
  rcases List.mem_pair.1 hu with rfl | rfl
  · rcases List.mem_pair.1 (mem_ofList.1 he) with rfl | rfl
    exacts [hopens, hrows]
  · exact mem_of.1 he ▸ hstring

/-- The types inside a plain one are plain: the rows of the argument, a row and its boxes. -/
theorem plain_pair_parts (hplain : t.Plain 40) (hpair : t.get? 40 = some pairRows[9].type)
    (hrows : t.get? 39 = some pairRows[8].type) (hrow : t.get? 37 = some pairRows[6].type) :
    t.Plain 38 ∧ t.Plain 39 ∧ t.Plain 37 ∧ t.Plain 36 := by
  have hplainrows : t.Plain 39 := hplain.part hpair (by decide)
  have hplainrow : t.Plain 37 := hplainrows.part hrows (List.mem_singleton_self _)
  exact ⟨hplain.part hpair (by decide), hplainrows, hplainrow,
    hplainrow.part hrow (List.mem_singleton_self _)⟩

/-- The boxes of integers fit the declared rows, and so does the whole argument. -/
theorem casts_pair {names : List (String × TypeId)} (l : t.Lists pairRows names) (ht : t.Rooted) :
    t.Casts 39 34 ∧ t.Casts 40 35 := by
  have hint := ht.get?_native .int
  have hstring := ht.get?_native .string
  have hT := get?_eq (l.entry (i := 31) rfl)
  have hrow' := get?_eq (l.entry (i := 37) rfl)
  have hrows' := get?_eq (l.entry (i := 39) rfl)
  have hpair' := get?_eq (l.entry (i := 40) rfl)
  have hplain := plain_pair l ht
  obtain ⟨-, hplainrows, hplainrow, hplainbox⟩ := plain_pair_parts hplain hpair' hrows' hrow'
  have hplainint : t.Plain NativeKind.int.id := plain_intro hint rfl rfl nofun
  have hplainstring : t.Plain NativeKind.string.id := plain_intro hstring rfl rfl nofun
  have hbox : t.Casts 36 32 := by
    refine (hplainbox.casts_iff ht (get?_eq (l.entry (i := 36) rfl))
      (get?_eq (l.entry (i := 32) rfl))).2 (.inr (.inr (.inr ⟨by decide, .inr (.inr ?_)⟩)))
    refine List.forall₂_cons.2 ⟨.inr (.inr ⟨_, mem_of.2 rfl, 31, mem_of.2 rfl, ?_⟩), .nil⟩
    exact (hplainint.casts_iff ht hint hT).2 (.inr (.inr (.inr rfl)))
  have hrows : t.Casts 39 34 := hplainrows.casts_array ht hrows' rfl
    (hplainrow.casts_array ht hrow' rfl hbox (get?_eq (l.entry (i := 33) rfl)))
    (get?_eq (l.entry (i := 34) rfl))
  refine ⟨hrows, (hplain.casts_iff ht hpair' (get?_eq (l.entry (i := 35) rfl))).2
    (.inr (.inr (.inr ⟨by decide, .inr (.inr ?_)⟩)))⟩
  refine List.forall₂_cons.2 ⟨?_, List.forall₂_cons.2 ⟨?_, .nil⟩⟩
  · exact .inr (.inr ⟨39, by decide, 34, mem_of.2 rfl, hrows⟩)
  · refine .inr (.inr ⟨_, mem_of.2 rfl, 31, mem_of.2 rfl, ?_⟩)
    exact (hplainstring.casts_iff ht hstring hT).2 (.inr (.inr (.inr rfl)))

theorem canCast_of_casts (ht : t.Rooted) {i j : TypeId} (hi : i < t.size) (hj : j < t.size)
    (h : t.Casts i j) : (of i).canCast (of j) t = .ok true :=
  (decides_canCast ht (fun _ ha => mem_of.1 ha ▸ hi) fun _ hb => mem_of.1 hb ▸ hj).iff.2
    (.inr (.inr ⟨i, mem_of.2 rfl, j, mem_of.2 rfl, h⟩))

/-- Rows of boxes of integers are passed where rows of boxes of a placeholder are expected. -/
theorem canCast_bindTemplates_boxes : ∃ t names, Reachable TypeKind.Exact t ∧ t.Lists pairRows names ∧
    (of 39).canCast (of 34) t = .ok true ∧ ∃ m v t₁, (of 34).bindTemplates (of 39) [] t = .ok (m, t) ∧
      (of 34).substitute m t = .ok (v, t₁) ∧ (of 39).canCast v t₁ = .ok true := by
  obtain ⟨t, names, h, l⟩ := exists_lists_pair
  have hbox := get?_eq (l.entry (i := 36) rfl)
  have hrow := get?_eq (l.entry (i := 37) rfl)
  have hrows := get?_eq (l.entry (i := 39) rfl)
  obtain ⟨-, hplain, -⟩ := plain_pair_parts (plain_pair l h.rooted)
    (get?_eq (l.entry (i := 40) rfl)) hrows hrow
  have hcan := canCast_of_casts h.rooted (lt_size_of_get? hrows)
    (lt_size_of_get? (get?_eq (l.entry (i := 34) rfl))) (casts_pair l h.rooted).1
  have hclosed : ¬ t.EndsIn TypeKind.IsOpen 37 := by
    rintro (⟨hi, hopen⟩ | ⟨hi, ⟨hi', hopen⟩ | ⟨hi', -⟩⟩)
    · cases hrow.symm.trans hi
      simp [TypeKind.IsOpen] at hopen
    all_goals cases hrow.symm.trans hi
    · cases hbox.symm.trans hi'
      simp [TypeKind.IsOpen] at hopen
    · cases hbox.symm.trans hi'
  have hmixed : t.MixedRows (t.EndsIn TypeKind.IsOpen) 39 := by
    refine mixedRows_intro hrows ?_ (List.forall_mem_singleton.2 (mixedRows_intro hrow ?_
      (List.forall_mem_singleton.2 (mixedRows_intro hbox nofun (List.forall_mem_singleton.2
        (mixedRows_intro (h.rooted.get?_native .int) nofun nofun))))))
    · rintro _ _ ⟨⟩ hends
      exact absurd hends hclosed
    · rintro _ _ ⟨⟩ -
      rfl
  exact ⟨t, names, h, l, hcan, canCast_bindTemplates h (isPattern_pair l).1 (inside_of_get? hrows)
    (List.cons_ne_nil _ _) (fun x hx => mem_of.1 hx ▸ hplain)
    (.inr fun x hx => mem_of.1 hx ▸ hmixed) hcan⟩

/-- Nothing that the declared type turns into accepts the type. -/
def Rejects (t : TypeTable) (m : TemplateMap) (i d : TypeId) : Prop :=
  ∀ v, t.Turns m.replacement d v → v.members ≠ [] ∧ ∀ y ∈ v.members, ¬ t.Casts i y

section

variable {t₁ : TypeTable} {m : TemplateMap} {i j e : TypeId} {n n₁ : Bool}

/-- Arrays are rejected if their keys do not cast or their elements are rejected. -/
theorem rejects_array (hc : t₁.Canonical) (ht : t₁.Rooted) {k k₁ : KeyKind}
    (hd : t₁.get? d = some ⟨.array k e, n⟩) (hi : t₁.get? i = some ⟨.array k₁ j, n₁⟩)
    (hplain : t₁.Plain i) (h : k₁.casts k = true → Rejects t₁ m j e) : Rejects t₁ m i d := by
  intro v hv
  obtain ⟨-, -, ⟨y, hy, -⟩, -⟩ := hv.exists_arrays hc hd
  refine ⟨List.ne_nil_of_mem hy, fun y hy hcast => ?_⟩
  obtain ⟨w, hw, himage⟩ := hv.of_array hd
  obtain ⟨x, hx, hfinds⟩ := (himage.mem y).1 hy
  have hy := hc.get?_of_finds_array (hc.orMixed_lt_size (hw.lt_size hc) x hx) hfinds
  rcases hplain.casts_array_cases ht hi hy hcast with ⟨k', j', n', hi', hkey, hcast⟩ | hloose
  · cases hi.symm.trans hi'
    obtain ⟨hne, hno⟩ := h hkey w hw
    rw [orMixed_of_members_ne_nil hne] at hx
    exact hno x hx hcast
  · simp [IsLoose, TypeKind.IsOpen] at hloose

/-- An object is rejected if all members of an argument are. -/
theorem rejects_object (h : t.Later t₁) {name other : ClassName} {args params : List UnionType}
    (hd : t₁.get? d = some ⟨.object name params, n⟩) (hi : t₁.get? i = some ⟨.object other args, n₁⟩)
    (hplain : t₁.Plain i) {a p : UnionType} (hap : (a, p) ∈ args.zip params) (ha : a.members ≠ [])
    (hp : p.members ≠ []) (hno : ∀ x ∈ a.members, ∀ e ∈ p.members, Rejects t₁ m x e) :
    Rejects t₁ m i d := by
  intro v hv
  obtain ⟨f, y, hf, hfinds, rfl⟩ := hv.of_rebuilds hd ⟨id, rfl⟩
  refine ⟨List.ne_nil_of_mem (mem_of.2 rfl), fun y' hy hcast => ?_⟩
  obtain rfl := mem_of.1 hy
  have hw := h.canonical₁.writable_turned hd ⟨id, rfl⟩ hf
  have hstd := (h.standard d _ hd).withArguments (params.map fun p => p.flatMap f)
  obtain ⟨ha', hp'⟩ := List.of_mem_zip hap
  rcases (h.casts_object_iff hstd hw hfinds hplain hi).1 hcast with hmixed | ⟨-, hnil | hnil | hall⟩
  · cases hmixed
  · exact List.ne_nil_of_mem ha' hnil
  · exact List.ne_nil_of_mem hp' (List.map_eq_nil_iff.1 hnil)
  rw [List.forall₂_map_right_iff, List.forall₂_iff_zip] at hall
  have hno : ∀ x ∈ a.members, ∀ e ∈ p.members,
      (f e).members ≠ [] ∧ ∀ y ∈ (f e).members, ¬ t₁.Casts x y :=
    fun x hx e he => hno x hx e he (f e) (hf e (List.mem_flatMap.2 ⟨p, hp', he⟩))
  rcases hall.2 hap with hnil | hnil | ⟨x, hx, y, hy, hcast⟩
  · exact ha hnil
  · obtain ⟨x, hx⟩ := List.exists_mem_of_ne_nil _ ha
    obtain ⟨e, he⟩ := List.exists_mem_of_ne_nil _ hp
    obtain ⟨y, hy⟩ := List.exists_mem_of_ne_nil _ (hno x hx e he).1
    exact List.ne_nil_of_mem (mem_flatMap.2 ⟨e, he, hy⟩) hnil
  · obtain ⟨e, he, hy⟩ := mem_flatMap.1 hy
    exact (hno x hx e he).2 y hy hcast

end

/-- Rows of plain arrays next to the rows of boxes hide the boxes: nothing is learned of them, and
the boxes of strings that the second argument asks for are none of the argument's. -/
theorem losesCast_pair : ∃ t names, Reachable TypeKind.Exact t ∧ t.Lists pairRows names ∧
    LosesCast t 35 40 := by
  obtain ⟨t, names, h, l⟩ := exists_lists_pair
  have hc := (h.mono fun _ hkind => hkind.1.1).proper.canonical
  have hplain := plain_pair l h.rooted
  have hpair := get?_eq (l.entry (i := 35) rfl)
  have hcan := canCast_of_casts h.rooted (lt_size_of_entry (l.entry (i := 40) rfl))
    (lt_size_of_get? hpair) (casts_pair l h.rooted).2
  have hm : TemplateMap.Held (fun _ => True) t [("T", native .string)] :=
    List.forall_mem_singleton.2 (inside_of_get? (h.rooted.get?_native .string))
  obtain ⟨v, t₁, hrun, hlater, w, hturns, hsame⟩ := later_substitute h (lt_size_of_get? hpair) hm
  refine ⟨t, names, h, l, (isPattern_pair l).2, hplain, hcan, _, v, t₁,
    bindTemplates_pair l hc h.rooted, hrun, ?_⟩
  have hc₁ := hlater.canonical₁
  have ht₁ := hlater.rooted₁
  have hget : ∀ {i : TypeId} {e : TypeEntry}, t.entries[i]? = some e → t₁.get? i = some e.type :=
    fun he => hlater.keeps.get? (get?_eq he)
  have hrow' := hget (l.entry (i := 37) rfl)
  have hopens := hget (l.entry (i := 38) rfl)
  have hrows' := hget (l.entry (i := 39) rfl)
  have hpair' := hget (l.entry (i := 40) rfl)
  have hplain := hplain.keeps hlater.keeps (lt_size_of_entry (l.entry (i := 40) rfl))
  obtain ⟨hplainopens, hplainrows, hplainrow, hplainbox⟩ :=
    plain_pair_parts hplain hpair' hrows' hrow'
  have hints : Rejects t₁ [("T", native .string)] NativeKind.int.id 31 := by
    intro u hu
    have himage := hu.of_bound (hget (l.entry (i := 31) rfl)) rfl
    have hstring := ht₁.get?_native .string
    have hfinds : t₁.Finds ⟨.native .string, false⟩ NativeKind.string.id := hc₁.finds_get? hstring
    obtain rfl := eq_of_sameMembers_of (himage.sameMembers (image_of ((withNull_iff hstring).2 hfinds)
      fun k hk => ((withNull_iff hstring).1 hk).unique hfinds))
    refine ⟨by decide, fun y hy hcast => ?_⟩
    rw [mem_of.1 hy, (hplainbox.part (hget (l.entry (i := 36) rfl)) (by decide)).casts_iff ht₁
      (ht₁.get?_native .int) hstring] at hcast
    rcases hcast with hsame | hmixed | hmixed | hkind
    · exact absurd hsame (by decide)
    · cases hmixed
    · cases hmixed
    · cases hkind
  have hbox := rejects_object hlater (hget (l.entry (i := 32) rfl)) (hget (l.entry (i := 36) rfl))
    hplainbox (a := native .int) (p := of 31) (by decide) (by decide) (by decide) fun x hx e he => by
      rwa [mem_of.1 hx, mem_of.1 he]
  have hrow := rejects_array hc₁ ht₁ (hget (l.entry (i := 33) rfl)) hrow' hplainrow fun _ => hbox
  have hrows := rejects_array hc₁ ht₁ (hget (l.entry (i := 34) rfl)) hrows' hplainrows fun _ => hrow
  have hopens := rejects_array hc₁ ht₁ (m := [("T", native .string)])
    (hget (l.entry (i := 34) rfl)) hopens hplainopens nofun
  have hpair := rejects_object hlater (hget (l.entry (i := 35) rfl)) hpair' hplain
    (a := .ofList [38, 39]) (p := of 34) (by decide) (by decide) (by decide) fun x hx e he => by
      rw [mem_of.1 he]
      rcases List.mem_pair.1 (mem_ofList.1 hx) with rfl | rfl
      exacts [hopens, hrows]
  obtain ⟨hne, hno⟩ := hpair w hturns
  refine (decides_canCast ht₁ (fun x hx => mem_of.1 hx ▸ lt_size_of_get? hpair') fun y hy =>
    hturns.lt_size hc₁ y ((hsame y).1 hy)).not ?_
  rintro (hnil | hnil | ⟨x, hx, y, hy, hcast⟩)
  · exact List.cons_ne_nil _ _ hnil
  · exact hne (hsame.members_eq_nil.1 hnil)
  · exact hno y ((hsame y).1 hy) (mem_of.1 hx ▸ hcast)

/-! ### Names that are no identifiers -/

/-- A class with the name of an array type, a placeholder and its arrays; and the class that the name
speaks of, with its arrays that are keyed by integers. -/
def oddClassRows : List TypeEntry :=
  [⟨⟨.object (.make "\\" "A[]") [], false⟩, "\\A[]"⟩, ⟨⟨.template "T", false⟩, "T"⟩,
    ⟨⟨.array .mixed 32, false⟩, "T[]"⟩, ⟨⟨.object (.make "\\" "A") [], false⟩, "\\A"⟩,
    ⟨⟨.array .int 34, false⟩, "array<int,\\A>"⟩]

/-- Where they are found. -/
def oddClassNames : List (String × TypeId) :=
  [("array<int,\\A>", 35), ("array<int,\\A>", 35), ("\\A", 34), ("\\a", 34), ("T[]", 33), ("T[]", 33),
    ("T", 32), ("T", 32), ("\\A[]", 31), ("\\a[]", 31)]

theorem exists_lists_oddClass :
    ∃ t, Reachable (fun _ => True) t ∧ t.Lists oddClassRows oddClassNames := by
  have hreach : Reachable (fun _ => True) (initial false) := ⟨false, .refl⟩
  obtain ⟨t, h, l⟩ := (lists_initial false).reaches_new hreach trivial
    (writes_object _ (.make "\\" "A[]") false) (by decide) rfl
  obtain ⟨t, h, l⟩ := l.reaches_new h trivial (writes_template t "T") (by decide) rfl
  have hplain : t.needsParens 32 = false := by
    rw [needsParens, get?_eq (l.entry (i := 32) rfl)]
  obtain ⟨t, h, l⟩ := l.reaches_new h trivial (l.writes_arrayOf 32 rfl hplain false) (by decide) rfl
  obtain ⟨t, h, l⟩ := l.reaches_new h trivial (writes_object t (.make "\\" "A") false) (by decide) rfl
  have hA := l.entry (i := 34) rfl
  obtain ⟨t, h, l⟩ := l.reaches_new h trivial (t.writes_arrayBy .int (lt_size_of_entry hA)
    (by rw [renderArray, key_eq hA])) (by decide) rfl
  exact ⟨t, h, l⟩

/-- The arrays of the placeholder turn into a class with an odd name, to which no array casts. -/
theorem losesCast_oddClass : ∃ t, Reachable (fun _ => True) t ∧ t.Lists oddClassRows oddClassNames ∧
    LosesCast t 33 35 := by
  obtain ⟨t, h, l⟩ := exists_lists_oddClass
  have ht := h.rooted
  have hodd := get?_eq (l.entry (i := 31) rfl)
  have hT := get?_eq (l.entry (i := 32) rfl)
  have hTs := get?_eq (l.entry (i := 33) rfl)
  have hA := get?_eq (l.entry (i := 34) rfl)
  have hAs := get?_eq (l.entry (i := 35) rfl)
  have hplainA : t.Plain 34 := plain_intro hA rfl rfl nofun
  have hplain : t.Plain 35 := plain_intro hAs rfl rfl (List.forall_mem_singleton.2 hplainA)
  have hcast : t.Casts 35 33 := hplain.casts_array ht hAs rfl
    ((hplainA.casts_iff ht hA hT).2 (.inr (.inr (.inr rfl)))) hTs
  have hlt : ∀ {i : TypeId} {ty : Ty}, t.get? i = some ty → ∀ j ∈ (of i).members, j < t.size :=
    fun hi j hj => mem_of.1 hj ▸ lt_size_of_get? hi
  have hcan : (of 35).canCast (of 33) t = .ok true := (decides_canCast ht (hlt hAs) (hlt hTs)).iff.2
    (.inr (.inr ⟨35, mem_of.2 rfl, 33, mem_of.2 rfl, hcast⟩))
  have hno : (of 35).canCast (of 31) t = .ok false := by
    refine (decides_canCast ht (hlt hAs) (hlt hodd)).not ?_
    rintro (hnil | hnil | ⟨x, hx, y, hy, hcast⟩)
    · exact List.cons_ne_nil _ _ hnil
    · exact List.cons_ne_nil _ _ hnil
    rw [mem_of.1 hx, mem_of.1 hy, hplain.casts_iff ht hAs hodd] at hcast
    rcases hcast with hsame | hmixed | hmixed | hkind
    · exact absurd hsame (by decide)
    · cases hmixed
    · cases hmixed
    · cases hkind
  have hbind : bindType (of 35) [] 33 t = .ok ([("T", of 34)], t) := by
    have helements : (of 35).elementTypes t = .ok (of 34) := by
      obtain ⟨e, he, hty⟩ := Option.map_eq_some_iff.1 hAs
      rw [elementTypes, members_of, elementTypesFrom, fetch_eq he, hty]
      rfl
    exact bindType_array (List.cons_ne_nil _ _) helements (widenLiterals_of ht hA id) hTs
      (bindType_template ht hA id rfl hT [])
  -- the arrays of the class are found under the name of the other class
  have harray : TypeM.array .mixed 34 false t = .ok (31, t) :=
    l.intern_found (l.writes_array 34 rfl false) (by decide) rfl
  have helement : TypeM.substitute [("T", of 34)] 32 t = .ok (of 34, t) := by
    obtain ⟨below, hfetch⟩ := TypeM.exists_fetchBelow hT
    rw [TypeM.substitute]
    exact bind_eq_ok.2 ⟨_, _, hfetch, rfl⟩
  have hsubstitute : TypeM.substitute [("T", of 34)] 33 t = .ok (of 31, t) := by
    obtain ⟨below, hfetch⟩ := TypeM.exists_fetchBelow hTs
    rw [TypeM.substitute]
    exact bind_eq_ok.2 ⟨_, _, hfetch, bind_eq_ok.2 ⟨_, _, helement,
      bind_eq_ok.2 ⟨[31], t, bind_eq_ok.2 ⟨31, t, harray, rfl⟩, rfl⟩⟩⟩
  exact ⟨t, h, l, .array hTs (.template hT), hplain, hcan, [("T", of 34)], of 31, t,
    bind_eq_ok.2 ⟨_, t, hbind, rfl⟩,
    bind_eq_ok.2 ⟨_, _, bind_eq_ok.2 ⟨_, _, hsubstitute, rfl⟩, rfl⟩, hno⟩

/-- Without the condition on rows, and without one on names, casts are lost. -/
theorem not_canCast_bindTemplates :
    (∃ t names, Reachable TypeKind.Exact t ∧ t.Lists pairRows names ∧ LosesCast t 35 40) ∧
      ∃ t, Reachable (fun _ => True) t ∧ t.Lists oddClassRows oddClassNames ∧ LosesCast t 33 35 :=
  ⟨losesCast_pair, losesCast_oddClass⟩

end UnionType

end UnionInference
