import Mathlib.Data.List.DropRight
import UnionInference.Proofs.Text

/-!
Well-formed names. A segment is a row of letters, digits, underscores and characters outside ASCII;
a class name is well formed when it is a row of segments, each with a backslash in front. Reading
the text of a well-formed name gives a name with the same text, and folding keeps a name well
formed. What is read from any text, however many separators it has and wherever they stand, is
divided before the last separator of its own text, and so is its folded form.
-/

namespace UnionInference

/-- Whether the character can stand in a segment of a name. -/
def isSegmentChar (c : Char) : Bool := ShapeKey.isWordChar c || TypeParser.isWide c

/-- One or more letters, digits, underscores or characters outside ASCII. -/
def IsSegment (cs : List Char) : Prop := cs ≠ [] ∧ ∀ c ∈ cs, isSegmentChar c = true

instance (cs : List Char) : Decidable (IsSegment cs) :=
  decidable_of_iff (cs ≠ [] ∧ cs.all isSegmentChar = true) (and_congr_right' List.all_eq_true)

/-- A segment that starts with no digit. -/
def IsIdentifier (s : String) : Prop :=
  IsSegment s.toList ∧ ∀ c ∈ s.toList.head?, c.isDigit = false

/-- The segments, each with a backslash in front. -/
def rootedPath (segments : List (List Char)) : List Char := segments.flatMap fun s => '\\' :: s

/-- The full name is made of segments that are not empty. -/
def QualifiedName.WellFormed (q : QualifiedName) : Prop :=
  ∃ segments, segments ≠ [] ∧ (∀ s ∈ segments, IsSegment s) ∧ q.text.toList = rootedPath segments

/-! ### Characters -/

theorem toNat_toLower (c : Char) :
    c.toLower.toNat = if 65 ≤ c.toNat ∧ c.toNat ≤ 90 then c.toNat + 32 else c.toNat := by
  unfold Char.toLower
  by_cases h : c.val ≥ 'A'.val ∧ c.val ≤ 'Z'.val
  · rw [dif_pos h]
    simp [UInt32.le_iff_toNat_le] at h
    rw [if_pos h]
    show (c.val + _).toNat = _
    simp [UInt32.toNat_add]
    omega
  · rw [dif_neg h]
    simp [UInt32.le_iff_toNat_le] at h
    rw [if_neg (by simpa using h)]

theorem isWordChar_iff (c : Char) : ShapeKey.isWordChar c = true ↔
    (65 ≤ c.toNat ∧ c.toNat ≤ 90) ∨ (97 ≤ c.toNat ∧ c.toNat ≤ 122) ∨
      (48 ≤ c.toNat ∧ c.toNat ≤ 57) ∨ c.toNat = 95 := by
  have hunder : c = '_' ↔ c.toNat = 95 := by
    constructor
    · rintro rfl; rfl
    · intro h; exact Char.toNat_inj.1 h
  delta ShapeKey.isWordChar Char.isAlphanum Char.isAlpha Char.isUpper Char.isLower Char.isDigit
  simp [UInt32.le_iff_toNat_le, hunder, or_assoc]

theorem isSegmentChar_iff (c : Char) : isSegmentChar c = true ↔
    (65 ≤ c.toNat ∧ c.toNat ≤ 90) ∨ (97 ≤ c.toNat ∧ c.toNat ≤ 122) ∨
      (48 ≤ c.toNat ∧ c.toNat ≤ 57) ∨ c.toNat = 95 ∨ 128 ≤ c.toNat := by
  rw [isSegmentChar, Bool.or_eq_true, isWordChar_iff, TypeParser.isWide, decide_eq_true_iff]
  omega

theorem isSegmentChar_toLower {c : Char} (h : isSegmentChar c = true) :
    isSegmentChar c.toLower = true := by
  rw [isSegmentChar_iff] at h ⊢
  rw [toNat_toLower]
  split <;> omega

theorem toLower_eq_backslash {c : Char} : c.toLower = '\\' ↔ c = '\\' := by
  have hcode : '\\'.toNat = 92 := rfl
  rw [← Char.toNat_inj, ← Char.toNat_inj, toNat_toLower, hcode]
  split <;> omega

/-- A separator is no part of a segment. -/
theorem not_isSeparator_of_isSegmentChar {c : Char} (h : isSegmentChar c = true) :
    isSeparator c = false := by
  rw [isSeparator, beq_eq_false_iff_ne]
  rintro rfl
  exact absurd h (by decide)

theorem isNameChar_of_isSegmentChar {c : Char} (h : isSegmentChar c = true) :
    TypeParser.isNameChar c = true := by
  rw [isSegmentChar, Bool.or_eq_true] at h
  rcases h with h | h <;> simp [TypeParser.isNameChar, h]

/-! ### Paths -/

theorem rootedPath_cons (s : List Char) (segments : List (List Char)) :
    rootedPath (s :: segments) = '\\' :: (s ++ rootedPath segments) := by
  simp [rootedPath]

theorem rootedPath_append_singleton (segments : List (List Char)) (s : List Char) :
    rootedPath (segments ++ [s]) = rootedPath segments ++ '\\' :: s := by
  simp [rootedPath]

theorem mem_rootedPath {segments : List (List Char)} {c : Char} (hs : ∀ s ∈ segments, IsSegment s)
    (hc : c ∈ rootedPath segments) : c = '\\' ∨ isSegmentChar c = true := by
  rw [rootedPath, List.mem_flatMap] at hc
  obtain ⟨s, hmem, hc⟩ := hc
  rcases List.mem_cons.1 hc with rfl | hc
  · exact Or.inl rfl
  · exact Or.inr ((hs s hmem).2 c hc)

/-- Folding a path folds its segments. -/
theorem map_toLower_rootedPath (segments : List (List Char)) :
    (rootedPath segments).map Char.toLower = rootedPath (segments.map (List.map Char.toLower)) := by
  induction segments with
  | nil => rfl
  | cons s segments ih =>
    rw [List.map_cons, rootedPath_cons, rootedPath_cons, List.map_cons, List.map_append, ih]
    rfl

theorem IsSegment.fold {s : List Char} (h : IsSegment s) : IsSegment (s.map Char.toLower) := by
  refine ⟨by simpa using h.1, ?_⟩
  intro c hc
  obtain ⟨d, hd, rfl⟩ := List.mem_map.1 hc
  exact isSegmentChar_toLower (h.2 d hd)

namespace QualifiedName

theorem fold_eq_root {s : String} : Text.fold s = "\\" ↔ s = "\\" := by
  have hchars : ∀ cs : List Char, cs.map Char.toLower = ['\\'] ↔ cs = ['\\'] := by
    intro cs
    cases cs with
    | nil => simp
    | cons c cs => simp [toLower_eq_backslash]
  rw [← String.toList_inj, ← String.toList_inj, Text.toList_fold]
  exact hchars s.toList

theorem fold_fold (q : QualifiedName) : q.fold.fold = q.fold := by
  rw [fold, fold, Text.fold_fold, Text.fold_fold]

/-- The text of the folded name is the folded text. -/
theorem text_fold (q : QualifiedName) : q.fold.text = q.foldedText := by
  rw [foldedText, text, text]
  by_cases h : q.space = "\\"
  · simp only [fold, h, beq_self_eq_true, if_true, Text.fold_append]
    rw [if_pos (by decide)]
    rfl
  · have hf : (q.fold.space == "\\") = false := by
      rw [beq_eq_false_iff_ne]
      exact fun heq => h (fold_eq_root.1 heq)
    rw [hf, beq_eq_false_iff_ne.2 h]
    simp only [Bool.false_eq_true, if_false, Text.fold_append, fold]
    rfl

theorem WellFormed.fold {q : QualifiedName} (h : q.WellFormed) : q.fold.WellFormed := by
  obtain ⟨segments, hne, hs, htext⟩ := h
  refine ⟨segments.map (List.map Char.toLower), by simpa using hne, ?_, ?_⟩
  · intro s hmem
    obtain ⟨r, hr, rfl⟩ := List.mem_map.1 hmem
    exact (hs r hr).fold
  · rw [text_fold, foldedText, Text.toList_fold, htext, map_toLower_rootedPath]

theorem WellFormed.isNameChar {q : QualifiedName} (h : q.WellFormed) {c : Char}
    (hc : c ∈ q.text.toList) : TypeParser.isNameChar c = true := by
  obtain ⟨segments, -, hs, htext⟩ := h
  rw [htext] at hc
  rcases mem_rootedPath hs hc with rfl | hc
  · decide
  · exact isNameChar_of_isSegmentChar hc

theorem WellFormed.text_eq_cons {q : QualifiedName} (h : q.WellFormed) :
    ∃ cs, q.text.toList = '\\' :: cs := by
  obtain ⟨segments, hne, -, htext⟩ := h
  cases segments with
  | nil => exact absurd rfl hne
  | cons s segments => exact ⟨_, by rw [htext, rootedPath_cons]⟩

end QualifiedName

/-! ### Reading a full name -/

theorem trimList_eq_self {p : Char → Bool} {cs : List Char} (hh : ∀ c ∈ cs.head?, p c = false)
    (hl : ∀ c ∈ cs.getLast?, p c = false) : trimList p cs = cs := by
  have hdrop : ∀ ds : List Char, (∀ c ∈ ds.head?, p c = false) → ds.dropWhile p = ds := by
    intro ds hd
    cases ds with
    | nil => rfl
    | cons d ds => rw [List.dropWhile_cons_of_neg (by simp [hd d (by simp)])]
  rw [trimList, hdrop cs hh, hdrop cs.reverse (by simpa using hl), List.reverse_reverse]

/-- What is trimmed starts with a character that stays. -/
theorem head?_trimList {p : Char → Bool} {cs : List Char} {c : Char}
    (hc : c ∈ (trimList p cs).head?) : p c = false := by
  have hprefix : trimList p cs <+: cs.dropWhile p := List.rdropWhile_prefix p _
  obtain ⟨rest, hrest⟩ := hprefix
  have hhead : (cs.dropWhile p).head? = some c := by
    rw [← hrest, List.head?_append, hc]
    rfl
  have := List.head?_dropWhile_not p cs
  rw [hhead] at this
  simpa using this

/-- What is trimmed ends with a character that stays. -/
theorem getLast?_trimList {p : Char → Bool} {cs : List Char} {c : Char}
    (hc : c ∈ (trimList p cs).getLast?) : p c = false := by
  rw [trimList, List.getLast?_reverse] at hc
  have := List.head?_dropWhile_not p (cs.dropWhile p).reverse
  rw [hc] at this
  simpa using this

theorem trimList_trimList (p : Char → Bool) (cs : List Char) :
    trimList p (trimList p cs) = trimList p cs :=
  trimList_eq_self (fun _ => head?_trimList) fun _ => getLast?_trimList

/-- What does not start with a separator is left by trimming, unless it is empty. -/
theorem trimList_ne_nil {p : Char → Bool} {c : Char} {cs : List Char} (hc : p c = false) :
    trimList p (c :: cs) ≠ [] := by
  intro hnil
  rw [trimList, List.dropWhile_cons_of_neg (by simp [hc]), List.reverse_eq_nil_iff,
    List.dropWhile_eq_nil_iff] at hnil
  have := hnil c (by simp)
  rw [hc] at this
  cases this

theorem isSeparator_toLower (c : Char) : isSeparator c.toLower = isSeparator c := by
  rw [Bool.eq_iff_iff, isSeparator, isSeparator, beq_iff_eq, beq_iff_eq, toLower_eq_backslash]

/-- Letter case makes no difference to what is trimmed. -/
theorem trimList_map_toLower (cs : List Char) :
    trimList isSeparator (cs.map Char.toLower) = (trimList isSeparator cs).map Char.toLower := by
  have hdrop : ∀ ds : List Char,
      (ds.map Char.toLower).dropWhile isSeparator = (ds.dropWhile isSeparator).map Char.toLower := by
    intro ds
    rw [List.dropWhile_map, show isSeparator ∘ Char.toLower = isSeparator from
      funext isSeparator_toLower]
  rw [trimList, trimList, hdrop, ← List.map_reverse, hdrop, List.map_reverse]

/-- A path ends with a segment. -/
theorem getLast?_tail_rootedPath {s : List Char} {segments : List (List Char)}
    (hs : ∀ r ∈ s :: segments, IsSegment r) {c : Char} (hc : c ∈ (s ++ rootedPath segments).getLast?) :
    isSeparator c = false := by
  have hmem : ∀ r ∈ s :: segments, ∀ c ∈ r, isSeparator c = false := fun r hr c hc =>
    not_isSeparator_of_isSegmentChar ((hs r hr).2 c hc)
  rcases List.eq_nil_or_concat segments with rfl | ⟨init, last, rfl⟩
  · simp only [rootedPath, List.flatMap_nil, List.append_nil] at hc
    exact hmem s (by simp) c (List.mem_of_mem_getLast? hc)
  · have hlast : last ≠ [] := (hs last (by simp)).1
    rw [List.concat_eq_append, rootedPath_append_singleton, ← List.append_assoc,
      List.getLast?_append_of_ne_nil _ (by simp), List.getLast?_cons_of_ne_nil hlast] at hc
    exact hmem last (by simp) c (List.mem_of_mem_getLast? hc)

/-- Both ends of a path without its first backslash belong to segments. -/
theorem trimList_tail_rootedPath {s : List Char} {segments : List (List Char)}
    (hs : ∀ r ∈ s :: segments, IsSegment r) :
    trimList isSeparator (s ++ rootedPath segments) = s ++ rootedPath segments := by
  refine trimList_eq_self (fun c hc => ?_) fun c => getLast?_tail_rootedPath hs
  have hseg := hs s (by simp)
  rw [List.head?_append_of_ne_nil _ hseg.1] at hc
  exact not_isSeparator_of_isSegmentChar (hseg.2 c (List.mem_of_mem_head? hc))

namespace QualifiedName

theorem dropWhile_rootedPath {s : List Char} {segments : List (List Char)} (hs : IsSegment s) :
    (rootedPath (s :: segments)).dropWhile isSeparator = s ++ rootedPath segments := by
  obtain ⟨hne, hchars⟩ := hs
  cases s with
  | nil => exact absurd rfl hne
  | cons c s =>
    have hc : isSeparator c = false := not_isSeparator_of_isSegmentChar (hchars c (by simp))
    rw [rootedPath_cons, List.dropWhile_cons_of_pos rfl, List.cons_append,
      List.dropWhile_cons_of_neg (by simp [hc])]

/-- Reading divides a text before its last separator. -/
theorem ofFullName_divided {space name : List Char} (hne : space ≠ [])
    (htrim : trimList isSeparator space = space) (hname : ∀ c ∈ name, isSeparator c = false) :
    ofFullName (String.ofList ('\\' :: (space ++ '\\' :: name))) =
      ⟨String.ofList ('\\' :: space), String.ofList name⟩ := by
  obtain ⟨c, before, rfl⟩ := List.exists_cons_of_ne_nil hne
  have hhead : isSeparator c = false := head?_trimList (by rw [htrim]; rfl)
  have hnot : ∀ c ∈ name.reverse, (!isSeparator c) = true := by
    intro c hc
    rw [hname c (List.mem_reverse.1 hc)]
    rfl
  have hcs : ('\\' :: (c :: before ++ '\\' :: name)).dropWhile isSeparator =
      c :: before ++ '\\' :: name := by
    rw [List.dropWhile_cons_of_pos rfl, List.cons_append,
      List.dropWhile_cons_of_neg (by simp [hhead])]
  have hrev : (c :: before ++ '\\' :: name).reverse =
      name.reverse ++ '\\' :: (c :: before).reverse := by
    simp
  have hdrop : (c :: before ++ '\\' :: name).reverse.dropWhile (fun c => !isSeparator c) =
      '\\' :: (c :: before).reverse := by
    rw [hrev, List.dropWhile_append_of_pos hnot, List.dropWhile_cons_of_neg (by decide)]
  have htake : (c :: before ++ '\\' :: name).reverse.takeWhile (fun c => !isSeparator c) =
      name.reverse := by
    rw [hrev, List.takeWhile_append_of_pos hnot, List.takeWhile_cons_of_neg (by decide),
      List.append_nil]
  rw [ofFullName, splitFullName, String.toList_ofList, hcs]
  simp only [hdrop, htake, normalizeNamespace, String.toList_ofList, List.reverse_reverse, htrim]

/-- Reading divides no text that has a separator in front only. -/
theorem ofFullName_undivided {name : List Char} (hname : ∀ c ∈ name, isSeparator c = false) :
    ofFullName (String.ofList ('\\' :: name)) = ⟨"\\", String.ofList name⟩ := by
  have hcs : ('\\' :: name).dropWhile isSeparator = name := by
    rw [List.dropWhile_cons_of_pos rfl]
    cases name with
    | nil => rfl
    | cons c name => rw [List.dropWhile_cons_of_neg (by simp [hname c])]
  have hnone : name.reverse.dropWhile (fun c => !isSeparator c) = [] := by
    rw [List.dropWhile_eq_nil_iff]
    intro c hc
    rw [hname c (List.mem_reverse.1 hc)]
    rfl
  rw [ofFullName, splitFullName, String.toList_ofList, hcs]
  simp only [hnone]

/-- Reading the text of a name splits it before its last segment. -/
theorem ofFullName_rootedPath {init : List (List Char)} {last : List Char}
    (hs : ∀ s ∈ init ++ [last], IsSegment s) :
    ofFullName (String.ofList (rootedPath (init ++ [last]))) =
      ⟨if init = [] then "\\" else String.ofList (rootedPath init), String.ofList last⟩ := by
  have hlast : ∀ c ∈ last, isSeparator c = false := fun c hc =>
    not_isSeparator_of_isSegmentChar ((hs last (by simp)).2 c hc)
  rw [rootedPath_append_singleton]
  cases init with
  | nil => exact ofFullName_undivided hlast
  | cons s init =>
    have hinit : ∀ r ∈ s :: init, IsSegment r := fun r hr =>
      hs r (List.mem_append_left [last] hr)
    have hne : s ++ rootedPath init ≠ [] := by simp [(hinit s (by simp)).1]
    rw [rootedPath_cons, List.cons_append, if_neg (by simp)]
    exact ofFullName_divided hne (trimList_tail_rootedPath hinit) hlast

theorem normalizeNamespace_rootedPath {s : List Char} {segments : List (List Char)}
    (hs : ∀ r ∈ s :: segments, IsSegment r) :
    normalizeNamespace (String.ofList (rootedPath (s :: segments))) =
      String.ofList (rootedPath (s :: segments)) := by
  have hdrop : (rootedPath (s :: segments)).dropWhile isSeparator = s ++ rootedPath segments :=
    dropWhile_rootedPath (hs s (by simp))
  have htrim := trimList_tail_rootedPath hs
  have hidem : (s ++ rootedPath segments).dropWhile isSeparator = s ++ rootedPath segments := by
    rw [← hdrop, List.dropWhile_idempotent]
  rw [trimList, hidem] at htrim
  rw [normalizeNamespace, String.toList_ofList, trimList, hdrop, htrim, rootedPath_cons]

/-- The name is divided before its last segment, as reading its text divides it. -/
def Divided (q : QualifiedName) : Prop := ofFullName q.text = q

/-- A name as it is read: in the root, or in a namespace that goes from the root and is trimmed; and
there is no separator in its last segment. -/
inductive IsRead : QualifiedName → Prop
  | inRoot {name : List Char} (hname : ∀ c ∈ name, isSeparator c = false) :
      IsRead ⟨"\\", String.ofList name⟩
  | nested {space name : List Char} (hne : space ≠ []) (htrim : trimList isSeparator space = space)
      (hname : ∀ c ∈ name, isSeparator c = false) :
      IsRead ⟨String.ofList ('\\' :: space), String.ofList name⟩

theorem isRead_ofFullName (x : String) : (ofFullName x).IsRead := by
  simp only [ofFullName, splitFullName]
  have hhead := List.head?_dropWhile_not isSeparator x.toList
  generalize x.toList.dropWhile isSeparator = cs at hhead ⊢
  have htake : ∀ c ∈ (cs.reverse.takeWhile fun c => !isSeparator c).reverse,
      isSeparator c = false := by
    intro c hc
    simpa using List.mem_takeWhile_imp (List.mem_reverse.1 hc)
  split
  · next hnone =>
    refine .inRoot fun c hc => ?_
    simpa using List.dropWhile_eq_nil_iff.1 hnone c (List.mem_reverse.2 hc)
  · next d space hspace =>
    rw [normalizeNamespace, String.toList_ofList]
    refine .nested ?_ (trimList_trimList _ _) htake
    have hd : isSeparator d = true := by
      have := List.head?_dropWhile_not (fun c => !isSeparator c) cs.reverse
      rw [hspace] at this
      simpa using this
    -- the characters before the last separator start as the name does
    obtain ⟨after, hsplit⟩ : ∃ after, cs = space.reverse ++ d :: after := by
      have h := List.takeWhile_append_dropWhile (p := fun c => !isSeparator c) (l := cs.reverse)
      rw [hspace] at h
      exact ⟨(cs.reverse.takeWhile fun c => !isSeparator c).reverse,
        by simpa using (congrArg List.reverse h).symm⟩
    cases hrev : space.reverse with
    | nil =>
      rw [hsplit, hrev] at hhead
      simp [hd] at hhead
    | cons c before =>
      rw [hsplit, hrev] at hhead
      exact trimList_ne_nil (by simpa using hhead)

/-- The text of a name that is read is read as the name. -/
theorem IsRead.divided {q : QualifiedName} (h : q.IsRead) : q.Divided := by
  cases h with
  | @inRoot name hname =>
    have htext : text ⟨"\\", String.ofList name⟩ = String.ofList ('\\' :: name) := by
      rw [text, if_pos (by simp)]
      exact String.toList_inj.1 (by simp)
    rw [Divided, htext, ofFullName_undivided hname]
  | @nested space name hne htrim hname =>
    have hroot : String.ofList ('\\' :: space) ≠ "\\" := by
      intro heq
      have := congrArg String.toList heq
      rw [String.toList_ofList] at this
      exact hne (List.cons.inj this).2
    have htext : text ⟨String.ofList ('\\' :: space), String.ofList name⟩ =
        String.ofList ('\\' :: (space ++ '\\' :: name)) := by
      rw [text, if_neg (by simpa using hroot)]
      exact String.toList_inj.1 (by simp)
    rw [Divided, htext, ofFullName_divided hne htrim hname]

/-- A name that is read is also one in small letters. -/
theorem IsRead.fold {q : QualifiedName} (h : q.IsRead) : q.fold.IsRead := by
  have hofList : ∀ cs : List Char,
      Text.fold (String.ofList cs) = String.ofList (cs.map Char.toLower) := by
    intro cs
    rw [Text.fold, String.toList_ofList]
  have hlower : ∀ {name : List Char}, (∀ c ∈ name, isSeparator c = false) →
      ∀ c ∈ name.map Char.toLower, isSeparator c = false := by
    intro name hname c hc
    obtain ⟨d, hd, rfl⟩ := List.mem_map.1 hc
    rw [isSeparator_toLower, hname d hd]
  cases h with
  | @inRoot name hname =>
    have hroot : Text.fold "\\" = "\\" := by decide
    show IsRead ⟨Text.fold "\\", Text.fold (String.ofList name)⟩
    rw [hroot, hofList]
    exact .inRoot (hlower hname)
  | nested hne htrim hname =>
    rw [QualifiedName.fold, hofList, hofList]
    refine .nested (by simpa using hne) ?_ (hlower hname)
    rw [trimList_map_toLower, htrim]

theorem divided_ofFullName (x : String) : (ofFullName x).Divided := (isRead_ofFullName x).divided

theorem Divided.isRead {q : QualifiedName} (h : q.Divided) : q.IsRead := h ▸ isRead_ofFullName q.text

/-- Folding a divided name is reading its folded text. -/
theorem Divided.fold_eq {q : QualifiedName} (h : q.Divided) : q.fold = ofFullName q.foldedText := by
  rw [← text_fold]
  exact h.isRead.fold.divided.symm

/-- Divided names with the same text up to letter case are the same up to letter case. -/
theorem fold_eq_of_foldedText_eq {q r : QualifiedName} (hq : q.Divided) (hr : r.Divided)
    (h : q.foldedText = r.foldedText) : q.fold = r.fold := by
  rw [hq.fold_eq, hr.fold_eq, h]

/-- What reading the text of a well-formed name gives: a name with the same text that fulfils what
class types ask of their names. -/
structure ReadsBack (q r : QualifiedName) : Prop where
  text_eq : r.text = q.text
  normalized : make r.space r.name = r
  space_ne : r.space.isEmpty = false
  rooted : Text.startsWith r.space "\\" = true
  name_ne : r.name.isEmpty = false
  undivided : (Text.hasChar r.name '|' || Text.hasChar r.space '|') = false

theorem WellFormed.readsBack {q : QualifiedName} (h : q.WellFormed) :
    ReadsBack q (ofFullName q.text) := by
  obtain ⟨segments, hne, hs, htext⟩ := h
  obtain ⟨init, last, rfl⟩ := (List.eq_nil_or_concat segments).resolve_left hne
  rw [List.concat_eq_append] at hs htext
  have hq : q.text = String.ofList (rootedPath (init ++ [last])) := by
    rw [← htext, String.ofList_toList]
  have hbar : ∀ c, c = '\\' ∨ isSegmentChar c = true → c ≠ '|' := by
    rintro c h rfl; revert h; decide
  have hlast : '|' ∉ last := fun hc => hbar '|' (Or.inr ((hs last (by simp)).2 '|' hc)) rfl
  have hname : (String.ofList last).isEmpty = false := by
    rw [← Bool.not_eq_true, String.isEmpty_iff, ← String.toList_inj, String.toList_ofList]
    exact (hs last (by simp)).1
  rw [hq, ofFullName_rootedPath hs]
  cases init with
  | nil =>
    have hroot : normalizeNamespace "\\" = "\\" := by decide
    rw [if_pos rfl]
    refine ⟨?_, by rw [make, hroot], show "\\".isEmpty = false by decide,
      show Text.startsWith "\\" "\\" = true by decide, hname, ?_⟩
    · apply String.toList_inj.1
      rw [htext]
      simp [text, rootedPath]
    · have hspace : Text.hasChar "\\" '|' = false := by decide
      rw [hspace, Bool.or_false, Text.hasChar, String.toList_ofList]
      simpa using hlast
  | cons s init =>
    have hinit : ∀ r ∈ s :: init, IsSegment r := fun r hr =>
      hs r (List.mem_append_left [last] hr)
    have hspace : rootedPath (s :: init) ≠ ['\\'] := by
      rw [rootedPath_cons]
      simp [(hs s (by simp)).1]
    rw [if_neg (by simp)]
    refine ⟨?_, ?_, ?_, ?_, hname, ?_⟩
    · have hroot : (String.ofList (rootedPath (s :: init)) == "\\") = false := by
        rw [beq_eq_false_iff_ne]
        intro h
        exact hspace (by simpa using congrArg String.toList h)
      apply String.toList_inj.1
      rw [htext, rootedPath_append_singleton]
      simp [text, hroot]
    · rw [make, normalizeNamespace_rootedPath hinit]
    · rw [← Bool.not_eq_true, String.isEmpty_iff, ← String.toList_inj, String.toList_ofList,
        rootedPath_cons]
      simp
    · simp [Text.startsWith, rootedPath_cons]
    · have hspaceBar : '|' ∉ rootedPath (s :: init) := fun hc =>
        hbar '|' (mem_rootedPath hinit hc) rfl
      simp only [Text.hasChar, String.toList_ofList, Bool.or_eq_false_iff]
      exact ⟨by simpa using hlast, by simpa using hspaceBar⟩

end QualifiedName

end UnionInference
