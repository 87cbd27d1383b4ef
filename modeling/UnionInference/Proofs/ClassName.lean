import UnionInference.Proofs.Name

/-!
Class names as programs have them: segments of letters, digits and underscores, divided by
backslashes. Whether a name is one does not depend on letter case, and such a name is all that a
class type asks of its name.
-/

namespace UnionInference

theorem mem_of_mem_trimList {p : Char → Bool} {cs : List Char} {c : Char} (h : c ∈ trimList p cs) :
    c ∈ cs := by
  rw [trimList, List.mem_reverse] at h
  have h := (List.dropWhile_sublist p).subset h
  exact (List.dropWhile_sublist p).subset (List.mem_reverse.1 h)

theorem trimList_cons_trimList {p : Char → Bool} {c : Char} (hc : p c = true) (cs : List Char) :
    trimList p (c :: trimList p cs) = trimList p cs := by
  rw [trimList, List.dropWhile_cons_of_pos hc, ← trimList, trimList_trimList]

namespace QualifiedName

/-- What a class type asks of its name. -/
structure Typable (q : QualifiedName) : Prop where
  normalized : make q.space q.name = q
  space_ne : q.space.isEmpty = false
  rooted : Text.startsWith q.space "\\" = true
  name_ne : q.name.isEmpty = false
  undivided : (Text.hasChar q.name '|' || Text.hasChar q.space '|') = false

/-- The name is made of segments and divided before the last one. -/
structure Regular (q : QualifiedName) : Prop where
  wellFormed : q.WellFormed
  divided : q.Divided

variable {q r : QualifiedName}

theorem Regular.readsBack (h : q.Regular) : ReadsBack q q := by
  have hback := h.wellFormed.readsBack
  rwa [h.divided] at hback

theorem Regular.typable (h : q.Regular) : q.Typable :=
  ⟨h.readsBack.normalized, h.readsBack.space_ne, h.readsBack.rooted, h.readsBack.name_ne,
    h.readsBack.undivided⟩

/-- Reading the text of a name made of segments gives a regular one. -/
theorem WellFormed.regular_ofFullName (h : q.WellFormed) : (ofFullName q.text).Regular := by
  have htext := h.readsBack.text_eq
  obtain ⟨segments, hne, hs, hq⟩ := h
  exact ⟨⟨segments, hne, hs, by rw [htext, hq]⟩, congrArg ofFullName htext⟩

theorem Typable.head?_foldedText (h : q.Typable) : q.foldedText.toList.head? = some '\\' := by
  have hspace : q.space.toList.head? = some '\\' := by
    have hroot := h.rooted
    rw [Text.startsWith] at hroot
    cases hcs : q.space.toList with
    | nil => rw [hcs] at hroot; cases hroot
    | cons c cs =>
      rw [hcs] at hroot
      obtain ⟨rfl, -⟩ : '\\' = c ∧ _ := by
        rwa [show "\\".toList = ['\\'] from rfl, List.isPrefixOf_cons_cons, Bool.and_eq_true,
          beq_iff_eq] at hroot
      rfl
  have htext : q.text.toList.head? = some '\\' := by
    rw [text]
    split
    · rw [String.toList_append]
      rfl
    · rw [String.toList_append, String.toList_append, List.append_assoc, List.head?_append, hspace]
      rfl
  rw [foldedText, Text.toList_fold, List.head?_map, htext]
  decide

/-! ### Letter case -/

theorem isSegmentChar_of_toLower {c : Char} (h : isSegmentChar c.toLower = true) :
    isSegmentChar c = true := by
  rw [isSegmentChar_iff] at h ⊢
  rw [toNat_toLower] at h
  split at h <;> omega

/-- A path in small letters is one in any letter case. -/
theorem exists_rootedPath_of_map_toLower {segments : List (List Char)}
    (hs : ∀ s ∈ segments, IsSegment s) :
    ∀ {cs : List Char}, cs.map Char.toLower = rootedPath segments →
      ∃ segments', segments'.length = segments.length ∧ (∀ s ∈ segments', IsSegment s) ∧
        cs = rootedPath segments' := by
  induction segments with
  | nil =>
    intro cs h
    exact ⟨[], rfl, hs, List.map_eq_nil_iff.1 h⟩
  | cons s segments ih =>
    intro cs h
    rw [rootedPath_cons] at h
    obtain ⟨c, cs₁, rfl, hc, hcs₁⟩ := List.map_eq_cons_iff.1 h
    obtain ⟨as, bs, rfl, has, hbs⟩ := List.map_eq_append_iff.1 hcs₁
    obtain ⟨segments', hlength, hs', rfl⟩ :=
      ih (fun r hr => hs r (List.mem_cons_of_mem s hr)) hbs
    have hsegment : IsSegment as := by
      obtain ⟨hne, hchars⟩ := hs s List.mem_cons_self
      refine ⟨fun hnil => hne (by rw [← has, hnil]; rfl), fun a ha => ?_⟩
      exact isSegmentChar_of_toLower (hchars _ (has ▸ List.mem_map_of_mem ha))
    refine ⟨as :: segments', by simp [hlength], ?_, ?_⟩
    · rintro r (_ | ⟨_, hr⟩)
      · exact hsegment
      · exact hs' r hr
    · rw [rootedPath_cons, toLower_eq_backslash.1 hc]

theorem foldedText_eq_of_fold_eq (h : q.fold = r.fold) : q.foldedText = r.foldedText := by
  rw [← text_fold, ← text_fold, h]

theorem WellFormed.of_foldedText_eq (h : q.foldedText = r.foldedText) (hr : r.WellFormed) :
    q.WellFormed := by
  obtain ⟨segments, hne, hs, htext⟩ := hr.fold
  have hmap : q.text.toList.map Char.toLower = rootedPath segments := by
    rw [← Text.toList_fold, ← htext, text_fold]
    exact congrArg String.toList h
  obtain ⟨segments', hlength, hs', hpath⟩ := exists_rootedPath_of_map_toLower hs hmap
  refine ⟨segments', fun hnil => hne ?_, hs', hpath⟩
  rw [hnil] at hlength
  exact List.length_eq_zero_iff.1 hlength.symm

theorem WellFormed.of_fold_eq (h : q.fold = r.fold) (hr : r.WellFormed) : q.WellFormed :=
  hr.of_foldedText_eq (foldedText_eq_of_fold_eq h)

theorem length_toList_fold (s : String) : (Text.fold s).toList.length = s.toList.length := by
  rw [Text.toList_fold, List.length_map]

/-- Names with the same text are the same if they are the same up to letter case. -/
theorem eq_of_text_eq (htext : q.text = r.text) (hfold : q.fold = r.fold) : q = r := by
  obtain ⟨space, name⟩ := q
  obtain ⟨space', name'⟩ := r
  obtain ⟨hspace, hname⟩ := QualifiedName.mk.inj hfold
  have hroot : space = "\\" ↔ space' = "\\" := by rw [← fold_eq_root, hspace, fold_eq_root]
  have hlength : space.toList.length = space'.toList.length := by
    rw [← length_toList_fold, ← length_toList_fold space', hspace]
  simp only [text] at htext
  by_cases h : space = "\\"
  · rw [if_pos (by simpa using h), if_pos (by simpa using hroot.1 h)] at htext
    have hnames := congrArg String.toList htext
    rw [String.toList_append, String.toList_append, List.append_cancel_left_eq] at hnames
    rw [h, hroot.1 h, String.toList_inj.1 hnames]
  · rw [if_neg (by simpa using h), if_neg (by simpa using fun h' => h (hroot.2 h'))] at htext
    have hparts := congrArg String.toList htext
    simp only [String.toList_append, List.append_assoc] at hparts
    obtain ⟨hspaces, hrest⟩ := List.append_inj hparts hlength
    rw [List.append_cancel_left_eq] at hrest
    rw [String.toList_inj.1 hspaces, String.toList_inj.1 hrest]

/-- Whether a name is regular does not depend on letter case. -/
theorem Regular.of_fold_eq (h : q.fold = r.fold) (hr : r.Regular) : q.Regular := by
  have hq := WellFormed.of_fold_eq h hr.wellFormed
  refine ⟨hq, ?_⟩
  -- what is read from the text of the name is the name up to letter case, so it is the name
  have hread := hq.regular_ofFullName
  have htext : (ofFullName q.text).text = q.text := hq.readsBack.text_eq
  refine eq_of_text_eq htext ?_
  rw [hread.divided.fold_eq, foldedText, htext, ← foldedText, foldedText_eq_of_fold_eq h,
    ← hr.divided.fold_eq, h]

/-- The text of a regular name starts with a backslash, and all its characters stand in names. -/
theorem Regular.foldedText_eq_cons (h : q.Regular) : ∃ cs, q.foldedText.toList = '\\' :: cs ∧
    ∀ c ∈ q.foldedText.toList, TypeParser.isNameChar c = true := by
  have hfold := h.wellFormed.fold
  rw [← text_fold]
  obtain ⟨cs, hcs⟩ := hfold.text_eq_cons
  exact ⟨cs, hcs, fun c => hfold.isNameChar⟩

/-! ### Texts that name classes -/

theorem normalizeNamespace_idem (s : String) :
    normalizeNamespace (normalizeNamespace s) = normalizeNamespace s := by
  rw [normalizeNamespace, normalizeNamespace, String.toList_ofList, trimList_cons_trimList rfl]

/-- The parts of a name that is read have the characters of its text. -/
theorem ofFullName_parts (x : String) :
    (∃ s : String, (ofFullName x).space = normalizeNamespace s ∧ ∀ c ∈ s.toList, c ∈ x.toList) ∧
      ∀ c ∈ (ofFullName x).name.toList, c ∈ x.toList := by
  have hdrop : ∀ c ∈ x.toList.dropWhile isSeparator, c ∈ x.toList := fun c hc =>
    (List.dropWhile_sublist _).subset hc
  simp only [ofFullName, splitFullName]
  split
  · exact ⟨⟨"", rfl, by simp⟩, by simpa using hdrop⟩
  · next d space hspace =>
    refine ⟨⟨_, rfl, fun c hc => hdrop c ?_⟩, fun c hc => hdrop c ?_⟩
    · have hmem : c ∈ d :: space := List.mem_cons_of_mem _ (by simpa using hc)
      rw [← hspace] at hmem
      exact List.mem_reverse.1 ((List.dropWhile_sublist _).subset hmem)
    · rw [String.toList_ofList, List.mem_reverse] at hc
      exact List.mem_reverse.1 ((List.takeWhile_sublist _).subset hc)

/-- A text without a bar whose last segment is not empty names a class that a type can have. -/
theorem typable_ofFullName {x : String} (hbar : Text.hasChar x '|' = false)
    (hname : (ofFullName x).name.isEmpty = false) : (ofFullName x).Typable := by
  obtain ⟨⟨s, hspace, hs⟩, hchars⟩ := ofFullName_parts x
  have hbar' : '|' ∉ x.toList := by simpa [Text.hasChar] using hbar
  refine ⟨?_, ?_, ?_, hname, ?_⟩
  · rw [make, hspace, normalizeNamespace_idem, ← hspace]
  · rw [hspace, normalizeNamespace]
    simp [String.ext_iff]
  · rw [hspace, normalizeNamespace, Text.startsWith]
    simp
  · have hfst : '|' ∉ (ofFullName x).name.toList := fun h => hbar' (hchars _ h)
    have hsnd : '|' ∉ (ofFullName x).space.toList := by
      rw [hspace, normalizeNamespace, String.toList_ofList]
      simp only [List.mem_cons, not_or]
      exact ⟨by decide, fun h => hbar' (hs _ (mem_of_mem_trimList h))⟩
    simp [Text.hasChar, hfst, hsnd]

/-- The last segment of a text is not empty if the text ends with no backslash. -/
theorem name_ofFullName_ne {x : String} {c : Char} (hlast : x.toList.getLast? = some c)
    (hc : isSeparator c = false) : (ofFullName x).name.isEmpty = false := by
  have hdrop : (x.toList.dropWhile isSeparator).getLast? = some c := by
    have hsuffix : x.toList.dropWhile isSeparator <:+ x.toList := List.dropWhile_suffix _
    obtain ⟨init, hinit⟩ := hsuffix
    have hne : x.toList.dropWhile isSeparator ≠ [] := by
      intro hnil
      have := List.dropWhile_eq_nil_iff.1 hnil c (List.mem_of_mem_getLast? hlast)
      rw [hc] at this
      cases this
    rw [← hinit, List.getLast?_append_of_ne_nil _ hne] at hlast
    exact hlast
  have hne : x.toList.dropWhile isSeparator ≠ [] := by
    intro hnil
    rw [hnil] at hdrop
    cases hdrop
  simp only [ofFullName, splitFullName]
  split
  · simpa [String.isEmpty_iff, String.ext_iff] using hne
  · have hhead : (x.toList.dropWhile isSeparator).reverse.head? = some c := by
      rw [List.head?_reverse, hdrop]
    cases hcs : (x.toList.dropWhile isSeparator).reverse with
    | nil => rw [hcs] at hhead; cases hhead
    | cons d ds =>
      rw [hcs] at hhead
      cases hhead
      rw [List.takeWhile_cons_of_pos (by simp [hc])]
      simp [String.ext_iff]

theorem ofFullName_congr {x y : String}
    (h : x.toList.dropWhile isSeparator = y.toList.dropWhile isSeparator) :
    ofFullName x = ofFullName y := by
  simp only [ofFullName, splitFullName, h]

/-- Segments, with or without a backslash in front, are read as a regular name. -/
theorem regular_ofFullName {x : String} {segments : List (List Char)} (hne : segments ≠ [])
    (hs : ∀ s ∈ segments, IsSegment s)
    (hx : x.toList.dropWhile isSeparator = (rootedPath segments).dropWhile isSeparator) :
    (ofFullName x).Regular := by
  have hread : ofFullName x = ofFullName (String.ofList (rootedPath segments)) :=
    ofFullName_congr (by rw [hx, String.toList_ofList])
  obtain ⟨init, last, rfl⟩ := (List.eq_nil_or_concat segments).resolve_left hne
  rw [List.concat_eq_append] at hs hread
  have hparts := hread.trans (ofFullName_rootedPath hs)
  have htext : (ofFullName x).text.toList = rootedPath (init ++ [last]) := by
    rw [hparts, text, rootedPath_append_singleton]
    by_cases hinit : init = []
    · subst hinit
      simp [rootedPath, String.toList_append]
    · have hroot : String.ofList (rootedPath init) ≠ "\\" := by
        obtain ⟨s, rest, rfl⟩ := List.exists_cons_of_ne_nil hinit
        intro heq
        have := congrArg String.toList heq
        rw [String.toList_ofList, rootedPath_cons] at this
        have hnil : s = [] := by
          have := List.cons.inj this
          exact (List.append_eq_nil_iff.1 this.2).1
        exact (hs s (by simp)).1 hnil
      rw [if_neg hinit]
      simp [hroot, String.toList_append]
  refine ⟨⟨init ++ [last], by simp, hs, htext⟩, ?_⟩
  rw [← htext, String.ofList_toList] at hread
  exact hread.symm

/-- The string that spells a regular name is read as the name. -/
theorem Regular.ofFullName_classString {q : QualifiedName} (h : q.Regular) :
    ofFullName q.classString = q := by
  refine (ofFullName_congr ?_).trans h.divided
  rw [classString, String.toList_ofList, List.dropWhile_idempotent]

end QualifiedName

end UnionInference
