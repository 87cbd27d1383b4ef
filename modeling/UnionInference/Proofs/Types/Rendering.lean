import UnionInference.Proofs.Types.Canonical
import UnionInference.Proofs.Types.Scan

/-!
Written types can be told apart. Every text that a canonical table holds is neutral, so the parts of
a written type can be found in its text: the kind by how the text begins and ends, the members of a
union at its bars, arguments, fields and parameters at their commas. Main statement: two types of a
canonical table are written the same exactly when they are alike.
-/

namespace UnionInference

open TypeText

namespace TypeText

variable {stop : Char → Bool}

/-- The characters that mean something to a scan. -/
def special : List Char := ['(', '<', '\x7b', ')', '>', '\x7d', '\'', '|', ',', '.', '=']

theorem eq_false_of_any {p : Char → Bool} {cs : List Char} (h : cs.any p = false) {c : Char}
    (hc : c ∈ cs) : p c = false := by
  simpa using List.any_eq_false.1 h c hc

/-- A class of characters without special ones is passed over. -/
theorem flat_of_class {p : Char → Bool} (hp : special.any p = false) {c : Char}
    (hc : p c = true) : isFlat c = true ∧ isDivider c = false := by
  have hne : ∀ d ∈ special, c ≠ d := by
    rintro d hd rfl
    rw [eq_false_of_any hp hd] at hc
    cases hc
  simp only [special, List.mem_cons, List.not_mem_nil, or_false, forall_eq_or_imp, forall_eq] at hne
  simp [isFlat, isDivider, isOpening, isClosing, hne]

theorem Neutral.of_class {p : Char → Bool} (hstop : ∀ c, stop c = true → isDivider c = true)
    (hp : special.any p = false) {cs : List Char} (h : ∀ c ∈ cs, p c = true) :
    Neutral stop cs := by
  apply Neutral.of_all
  intro c hc
  obtain ⟨hflat, hdiv⟩ := flat_of_class hp (h c hc)
  refine ⟨hflat, ?_⟩
  rw [← Bool.not_eq_true]
  intro hs
  rw [hstop c hs] at hdiv
  cases hdiv

theorem isNameChar_special : special.any TypeParser.isNameChar = false := by decide

theorem isNumeralChar_special : special.any TypeParser.isNumeralChar = false := by decide

theorem isKeyChar_special : special.any TypeParser.isKeyChar = false := by decide

end TypeText

theorem NativeKind.isSegment_name (k : NativeKind) : IsSegment k.name.toList := by
  cases k <;> decide

theorem NativeKind.not_isDigit_head (k : NativeKind) :
    ∀ c ∈ k.name.toList.head?, c.isDigit = Bool.false := by
  intro c hc
  cases k <;> cases hc <;> decide

theorem NativeKind.name_injective {j k : NativeKind} (h : j.name = k.name) : j = k := by
  revert h
  cases j <;> cases k <;> decide

namespace TypeTable

variable {t : TypeTable} {stop : Char → Bool}

/-! ### Unions -/

theorem mem_sortTexts {texts : List String} {s : String} : s ∈ sortTexts texts ↔ s ∈ texts :=
  (List.mergeSort_perm texts _).mem_iff

theorem sortTexts_eq_of_perm {as bs : List String} (h : as.Perm bs) :
    sortTexts as = sortTexts bs := by
  have hsorted : ∀ l : List String, (sortTexts l).Pairwise fun a b => (!decide (b < a)) = true := by
    intro l
    apply List.pairwise_mergeSort
    · intro a b c hab hbc
      simp only [Bool.not_eq_true', decide_eq_false_iff_not, String.not_lt] at hab hbc ⊢
      exact String.le_trans hab hbc
    · intro a b
      simp only [Bool.or_eq_true, Bool.not_eq_true', decide_eq_false_iff_not, String.not_lt]
      exact String.le_total a b
  refine List.Perm.eq_of_pairwise ?_ (hsorted as) (hsorted bs) ?_
  · intro a b _ _ hab hba
    simp only [Bool.not_eq_true', decide_eq_false_iff_not, String.not_lt] at hab hba
    exact String.le_antisymm hab hba
  · exact (List.mergeSort_perm as _).trans (h.trans (List.mergeSort_perm bs _).symm)

/-- The texts of the members in the order in which they are written. -/
def memberTexts (t : TypeTable) (u : UnionType) : List (List Char) :=
  (sortTexts (u.members.map t.key)).map String.toList

theorem toList_renderUnion (u : UnionType) :
    (t.renderUnion u).toList = ['|'].intercalate (t.memberTexts u) := by
  rw [renderUnion, Text.toList_join]; rfl

theorem mem_memberTexts {u : UnionType} {cs : List Char} :
    cs ∈ t.memberTexts u ↔ ∃ i ∈ u.members, (t.key i).toList = cs := by
  simp [memberTexts, mem_sortTexts]

theorem memberTexts_eq_nil {u : UnionType} : t.memberTexts u = [] ↔ u.members = [] := by
  rw [← List.length_eq_zero_iff, ← List.length_eq_zero_iff, memberTexts, List.length_map, sortTexts,
    (List.mergeSort_perm _ _).length_eq, List.length_map]

/-- The order of members does not show. -/
theorem renderUnion_congr {u v : UnionType} (h : u.SameMembers v) :
    t.renderUnion u = t.renderUnion v := by
  rw [renderUnion, renderUnion, sortTexts_eq_of_perm (h.perm.map t.key)]

theorem inner_renderUnion {u : UnionType} (h : ∀ i ∈ u.members, Neutral stop (t.key i).toList) :
    Inner stop (t.renderUnion u).toList := by
  rw [toList_renderUnion]
  refine Inner.intercalate (by decide) fun cs hcs => ?_
  obtain ⟨i, hi, rfl⟩ := mem_memberTexts.1 hcs
  exact (h i hi).inner

theorem neutral_renderUnion (hbar : stop '|' = false) {u : UnionType}
    (h : ∀ i ∈ u.members, Neutral stop (t.key i).toList) :
    Neutral stop (t.renderUnion u).toList := by
  rw [toList_renderUnion]
  refine Neutral.intercalate (by decide) hbar fun cs hcs => ?_
  obtain ⟨i, hi, rfl⟩ := mem_memberTexts.1 hcs
  exact h i hi

/-! ### The texts of types as characters -/

/-- The texts of the arguments of a class type. -/
def argTexts (t : TypeTable) (args : List UnionType) : List (List Char) :=
  args.map fun u => (t.renderUnion u).toList

/-- The texts of the fields of a shape. -/
def fieldTexts (t : TypeTable) (fields : ShapeFields) : List (List Char) :=
  fields.map fun f => (t.renderField f.1 f.2).toList

/-- The texts of the parameters of a callable type. -/
def paramTexts (t : TypeTable) (params : List CallableParam) : List (List Char) :=
  params.map fun p => (t.renderParam p).toList

theorem toList_renderClass (name : String) {args : List UnionType} (h : args ≠ []) :
    (t.renderClass name args).toList =
      name.toList ++ '<' :: ([','].intercalate (t.argTexts args) ++ ['>']) := by
  have hargs : args.isEmpty = false := by simpa using h
  rw [renderClass, hargs]
  simp [Text.toList_join, argTexts, Function.comp_def]

theorem toList_renderArray_int (i : TypeId) : (t.renderArray .int i).toList =
    "array".toList ++ '<' :: (("int".toList ++ ',' :: (t.key i).toList) ++ ['>']) := by
  simp [renderArray]

theorem toList_renderArray_string (i : TypeId) : (t.renderArray .string i).toList =
    "array".toList ++ '<' :: (("string".toList ++ ',' :: (t.key i).toList) ++ ['>']) := by
  simp [renderArray]

theorem toList_renderArray_mixed (i : TypeId) : (t.renderArray .mixed i).toList =
    (if t.needsParens i then '(' :: ((t.key i).toList ++ [')']) else (t.key i).toList) ++
      ['[', ']'] := by
  rw [renderArray]
  split <;> simp

theorem toList_renderShape (fields : ShapeFields) : (t.renderKind (.shape fields)).toList =
    "array".toList ++ '\x7b' :: ([','].intercalate (t.fieldTexts fields) ++ ['\x7d']) := by
  simp [renderKind, Text.toList_join, fieldTexts, Function.comp_def]

/-- The word with which a callable type starts. -/
def callableWord (isClosure : Bool) : String := if isClosure then "Closure" else "callable"

theorem toList_renderCallable (sig : CallableSignature) : (t.renderKind (.callable sig)).toList =
    (callableWord sig.isClosure).toList ++ '(' :: ([','].intercalate (t.paramTexts sig.params) ++
      ')' :: (t.renderResult sig.result).toList) := by
  simp [renderKind, Text.toList_join, paramTexts, callableWord, Function.comp_def]

theorem toList_renderField (key : ShapeKey) (field : ShapeField) :
    (t.renderField key field).toList = key.text.toList ++
      ((if field.optional then ['?'] else []) ++ ':' :: (t.renderUnion field.type).toList) := by
  rw [renderField]
  cases field.optional <;> simp

theorem renderUnion_orMixed (hc : t.Canonical) (u : UnionType) :
    t.renderUnion u.orMixed =
      if u.isEmpty then NativeKind.mixed.name else t.renderUnion u := by
  cases h : u.isEmpty with
  | true =>
    rw [UnionType.orMixed_of_isEmpty h, renderUnion, UnionType.mixed, UnionType.members_native,
      List.map_singleton, key_eq (hc.natives .mixed), sortTexts, List.mergeSort_singleton,
      Text.join, String.intercalate_singleton, if_pos rfl]
  | false => rw [UnionType.orMixed_of_not_isEmpty h]; rfl

theorem toList_renderParam (hc : t.Canonical) (p : CallableParam) : (t.renderParam p).toList =
    (if p.byRef then ['&'] else []) ++ ((t.renderUnion p.type.orMixed).toList ++
      ((if p.variadic then ['.', '.', '.'] else []) ++ (if p.optional then ['='] else []))) := by
  rw [renderParam, renderUnion_orMixed hc]
  cases p.byRef <;> cases p.variadic <;> cases p.optional <;> simp

theorem toList_render (ty : Ty) : (t.render ty).toList =
    (if ty.nullable then ['?'] else []) ++ (t.renderKind ty.kind).toList := by
  rw [render, nullMark]
  cases ty.nullable <;> simp

/-! ### Written types are neutral -/

theorem stop_eq_false (hstop : ∀ c, stop c = true → isDivider c = true) {c : Char}
    (h : isDivider c = false) : stop c = false := by
  rw [← Bool.not_eq_true]
  intro hs
  rw [hstop c hs] at h
  cases h

/-- The key of a field is passed over wherever a scan stops neither in it nor at its quotes. -/
theorem neutral_shapeKey (hkey : ∀ c, TypeParser.isKeyChar c = true → stop c = false)
    (hquote : stop '\'' = false) (key : ShapeKey) : Neutral stop key.text.toList := by
  have hflat : ∀ cs : List Char, (∀ c ∈ cs, TypeParser.isKeyChar c = true) → Neutral stop cs := by
    intro cs h
    refine Neutral.of_all fun c hc => ⟨?_, hkey c (h c hc)⟩
    exact (flat_of_class isKeyChar_special (h c hc)).1
  cases key with
  | int n => exact hflat _ fun c => Text.isKeyChar_of_mem_decimal
  | str s =>
    rw [ShapeKey.text]
    split
    · next h =>
      simp only [ShapeKey.isBare, Bool.and_eq_true, List.all_eq_true] at h
      exact hflat _ fun c hc => by simp [TypeParser.isKeyChar, h.1.2 c hc]
    · exact Neutral.quoted hquote s

theorem inner_renderField {key : ShapeKey} {field : ShapeField}
    (hstop : ∀ c, stop c = true → isDivider c = true)
    (h : ∀ i ∈ field.type.members, Neutral stop (t.key i).toList) :
    Inner stop (t.renderField key field).toList := by
  rw [toList_renderField]
  have hkey : Neutral stop key.text.toList := neutral_shapeKey
    (fun c hc => stop_eq_false hstop (flat_of_class isKeyChar_special hc).2)
    (stop_eq_false hstop (by decide)) key
  refine hkey.inner.append (Inner.append ?_ ?_)
  · split
    · exact Inner.char (by decide)
    · exact Inner.nil
  · exact (Inner.char (c := ':') (by decide)).append (inner_renderUnion h)

theorem inner_renderParam (hc : t.Canonical) {p : CallableParam}
    (hstop : ∀ c, stop c = true → isDivider c = true)
    (h : ∀ i ∈ p.type.members, Neutral stop (t.key i).toList) :
    Inner stop (t.renderParam p).toList := by
  have hunion : Inner stop (t.renderUnion p.type.orMixed).toList := by
    rw [renderUnion_orMixed hc]
    split
    · exact (Neutral.of_class hstop isNameChar_special (List.all_eq_true.1 (by decide))).inner
    · exact inner_renderUnion h
  rw [toList_renderParam hc]
  refine Inner.append ?_ (hunion.append (Inner.append ?_ ?_))
  · split
    · exact Inner.char (by decide)
    · exact Inner.nil
  · have hdot : Inner stop ['.'] := Inner.char (by decide)
    split
    · exact hdot.append (hdot.append hdot)
    · exact Inner.nil
  · split
    · exact Inner.char (by decide)
    · exact Inner.nil

theorem neutral_renderResult (hstop : ∀ c, stop c = true → isDivider c = true) {u : UnionType}
    (h : ∀ i ∈ u.members, Neutral stop (t.key i).toList) :
    Neutral stop (t.renderResult u).toList := by
  have hcolon : Neutral stop [':'] := Neutral.char (by decide) (stop_eq_false hstop (by decide))
  rw [renderResult.eq_def]
  split
  · exact Neutral.nil
  · next i hm =>
    have hi : (t.renderUnion u).toList = (t.key i).toList := by
      rw [toList_renderUnion, memberTexts, hm]
      simp [sortTexts, List.intercalate]
    rw [String.toList_append, hi]
    exact hcolon.append (h i (by simp [hm]))
  · have hparen := (inner_renderUnion h).bracketed (a := '(') (b := ')') (by decide) (by decide)
      (stop_eq_false hstop (by decide))
    rw [String.toList_append, String.toList_append,
      show (":(" : String).toList = [':'] ++ ['('] by rfl, List.append_assoc, List.append_assoc]
    exact hcolon.append hparen

theorem neutral_word (hstop : ∀ c, stop c = true → isDivider c = true) (x : String)
    (h : ∀ c ∈ x.toList, TypeParser.isNameChar c = true) : Neutral stop x.toList :=
  Neutral.of_class hstop isNameChar_special h

theorem neutral_renderArray (hstop : ∀ c, stop c = true → isDivider c = true) (key : KeyKind)
    {i : TypeId} (h : Neutral stop (t.key i).toList) :
    Neutral stop (t.renderArray key i).toList := by
  have hopen : ∀ c, isDivider c = false → stop c = false := fun c => stop_eq_false hstop
  have harray := neutral_word hstop "array" (List.all_eq_true.1 (by decide))
  have hcomma : Inner stop [','] := Inner.char (by decide)
  cases key with
  | int =>
    have hint := neutral_word hstop "int" (List.all_eq_true.1 (by decide))
    rw [toList_renderArray_int]
    exact harray.append (Inner.bracketed (hint.inner.append (hcomma.append h.inner))
      (by decide) (by decide) (hopen _ (by decide)))
  | string =>
    have hstring := neutral_word hstop "string" (List.all_eq_true.1 (by decide))
    rw [toList_renderArray_string]
    exact harray.append (Inner.bracketed (hstring.inner.append (hcomma.append h.inner))
      (by decide) (by decide) (hopen _ (by decide)))
  | mixed =>
    rw [toList_renderArray_mixed]
    have hpair : Neutral stop ['[', ']'] := Neutral.of_all fun c hc => by
      rcases List.mem_pair.1 hc with rfl | rfl
      · exact ⟨by decide, hopen _ (by decide)⟩
      · exact ⟨by decide, hopen _ (by decide)⟩
    refine Neutral.append ?_ hpair
    split
    · exact h.inner.bracketed (by decide) (by decide) (hopen _ (by decide))
    · exact h

theorem neutral_renderCallable (hc : t.Canonical)
    (hstop : ∀ c, stop c = true → isDivider c = true) {sig : CallableSignature}
    (h : ∀ i ∈ (TypeKind.callable sig).embedded, Neutral stop (t.key i).toList) :
    Neutral stop (t.renderKind (.callable sig)).toList := by
  rw [toList_renderCallable]
  have hparams : Inner stop ([','].intercalate (t.paramTexts sig.params)) := by
    refine Inner.intercalate (by decide) fun cs hcs => ?_
    obtain ⟨p, hp, rfl⟩ := List.mem_map.1 hcs
    exact inner_renderParam hc hstop fun i hi =>
      h i (List.mem_append_left _ (List.mem_flatMap.2 ⟨p, hp, hi⟩))
  have hbrackets := hparams.bracketed (a := '(') (b := ')') (by decide) (by decide)
    (stop_eq_false hstop (by decide))
  have hresult : Neutral stop (t.renderResult sig.result).toList :=
    neutral_renderResult hstop fun i hi => h i (List.mem_append_right _ hi)
  have hname : Neutral stop (callableWord sig.isClosure).toList := by
    cases sig.isClosure
    · exact neutral_word hstop "callable" (List.all_eq_true.1 (by decide))
    · exact neutral_word hstop "Closure" (List.all_eq_true.1 (by decide))
  have := hname.append (hbrackets.append hresult)
  simpa using this

/-- A kind is written neutrally if the types it is made of are. -/
theorem neutral_renderKind (hc : t.Canonical) (hstop : ∀ c, stop c = true → isDivider c = true)
    {kind : TypeKind} (hn : kind.WellNamed)
    (h : ∀ i ∈ kind.embedded, Neutral stop (t.key i).toList) :
    Neutral stop (t.renderKind kind).toList := by
  have hword := neutral_word hstop
  have hopen : ∀ c, isDivider c = false → stop c = false := fun c => stop_eq_false hstop
  cases kind with
  | native k =>
    exact hword k.name fun c hc => isNameChar_of_isSegmentChar (k.isSegment_name.2 c hc)
  | object name args =>
    have hname := hword name.text fun c hc => QualifiedName.WellFormed.isNameChar hn hc
    rw [renderKind]
    by_cases hargs : args = []
    · rw [renderClass, hargs]; exact hname
    · rw [toList_renderClass _ hargs]
      refine hname.append (Inner.bracketed ?_ (by decide) (by decide) (hopen _ (by decide)))
      refine Inner.intercalate (by decide) fun cs hcs => ?_
      obtain ⟨u, hu, rfl⟩ := List.mem_map.1 hcs
      exact inner_renderUnion fun i hi => h i (List.mem_flatMap.2 ⟨u, hu, hi⟩)
  | array key i =>
    rw [renderKind]
    exact neutral_renderArray hstop key (h i (by simp [TypeKind.embedded]))
  | shape fields =>
    rw [toList_renderShape]
    refine (hword "array" (List.all_eq_true.1 (by decide))).append
      (Inner.bracketed ?_ (by decide) (by decide) (hopen _ (by decide)))
    refine Inner.intercalate (by decide) fun cs hcs => ?_
    obtain ⟨f, hf, rfl⟩ := List.mem_map.1 hcs
    exact inner_renderField hstop fun i hi => h i (List.mem_flatMap.2 ⟨f, hf, hi⟩)
  | intLiteral n =>
    exact Neutral.of_class hstop isNumeralChar_special fun c => Text.isNumeralChar_of_mem_decimal
  | stringLiteral s => exact Neutral.quoted (hopen _ (by decide)) s
  | callable sig => exact neutral_renderCallable hc hstop h
  | template name =>
    exact hword name fun c hc => isNameChar_of_isSegmentChar (hn.1.1.2 c hc)

/-- Every text that a canonical table holds is neutral. -/
theorem Canonical.neutral_key (hc : t.Canonical) (hstop : ∀ c, stop c = true → isDivider c = true)
    (i : TypeId) (hi : i < t.size) : Neutral stop (t.key i).toList := by
  induction i using Nat.strong_induction_on with
  | _ i ih =>
    obtain ⟨e, he⟩ := exists_entry hi
    rw [key_eq he, hc.keyed i e he, toList_render]
    refine Neutral.append ?_ (neutral_renderKind hc hstop (hc.named i e he) fun j hj => ?_)
    · split
      · exact Neutral.char (by decide) (stop_eq_false hstop (by decide))
      · exact Neutral.nil
    · exact ih j (embedded_lt he hj) ((embedded_lt he hj).trans hi)

/-! ### How texts begin -/

/-- The mark of a reference, the closing bracket and the blanks, with which no written type
begins. -/
def nonStarts : List Char := ['&', ')', ' ', '\t', '\n', '\r']

/-- The text has a first character, which is no mark and no blank. -/
def PlainStart (cs : List Char) : Prop := ∃ c rest, cs = c :: rest ∧ c ≠ '?' ∧ c ∉ nonStarts

/-- The text does not begin as a callable type does. -/
def NotCallable (cs : List Char) : Prop := ∀ b, ¬ (callableWord b).toList ++ ['('] <+: cs

theorem PlainStart.append {cs : List Char} (h : PlainStart cs) (ds : List Char) :
    PlainStart (cs ++ ds) := by
  obtain ⟨c, rest, rfl, hc⟩ := h
  exact ⟨c, rest ++ ds, rfl, hc⟩

theorem plainStart_of_class {p : Char → Bool} (hp : ('?' :: nonStarts).any p = false)
    {cs : List Char} (hne : cs ≠ []) (h : ∀ c ∈ cs, p c = true) : PlainStart cs := by
  cases cs with
  | nil => exact absurd rfl hne
  | cons c cs =>
    have hc : ∀ d ∈ '?' :: nonStarts, c ≠ d := by
      rintro d hd rfl
      exact absurd (h c (by simp)) (by simp [eq_false_of_any hp hd])
    exact ⟨c, cs, rfl, hc '?' (by simp), fun hmem => hc c (by simp [hmem]) rfl⟩

theorem notCallable_of_not_mem {cs : List Char} (h : '(' ∉ cs) : NotCallable cs :=
  fun _ hp => h (hp.subset (by simp))

theorem notCallable_of_head {cs : List Char} (h : ∀ c ∈ cs.head?, c ≠ 'C' ∧ c ≠ 'c') :
    NotCallable cs := by
  intro b hp
  obtain ⟨rest, rfl⟩ := hp
  cases b
  · exact (h 'c' (by simp [callableWord])).2 rfl
  · exact (h 'C' (by simp [callableWord])).1 rfl

/-- Square brackets behind a text do not make it begin like a callable type. -/
theorem NotCallable.append_brackets {cs : List Char} (h : NotCallable cs) (rest : List Char) :
    NotCallable (cs ++ '[' :: rest) := by
  intro b hp
  rcases List.prefix_or_prefix_of_prefix hp (List.prefix_append cs ('[' :: rest)) with hw | ⟨l, hl⟩
  · exact h b hw
  · rw [← hl, List.prefix_append_right_inj] at hp
    cases l with
    | nil => exact h b (by rw [← hl]; simp)
    | cons c l =>
      obtain ⟨r, hr⟩ := hp
      have hmem : '[' ∈ (callableWord b).toList ++ ['('] := by
        rw [← hl, (List.cons.inj hr).1]; simp
      cases b <;> revert hmem <;> decide

theorem needsParens_eq {i : TypeId} {e : TypeEntry} (he : t.entries[i]? = some e)
    (h : t.needsParens i = false) :
    e.type.nullable = false ∧ ∀ sig, e.type.kind ≠ .callable sig := by
  obtain ⟨⟨kind, nullable⟩, key⟩ := e
  rw [needsParens, get?_eq he] at h
  cases kind <;> simp_all

/-- How a kind begins, if the types it is made of begin as they should. -/
theorem start_renderKind {kind : TypeKind} (hn : kind.WellNamed)
    (h : ∀ i ∈ kind.embedded, t.needsParens i = false →
      PlainStart (t.key i).toList ∧ NotCallable (t.key i).toList) :
    PlainStart (t.renderKind kind).toList ∧
      ((∀ sig, kind ≠ .callable sig) → NotCallable (t.renderKind kind).toList) := by
  have hword : ∀ cs : List Char, IsSegment cs → PlainStart cs ∧ NotCallable cs := by
    intro cs hcs
    refine ⟨plainStart_of_class (p := isSegmentChar) (by decide) hcs.1 hcs.2, ?_⟩
    exact notCallable_of_not_mem fun hmem => absurd (hcs.2 '(' hmem) (by decide)
  cases kind with
  | native k => exact ⟨(hword _ k.isSegment_name).1, fun _ => (hword _ k.isSegment_name).2⟩
  | template name => exact ⟨(hword _ hn.1.1).1, fun _ => (hword _ hn.1.1).2⟩
  | object name args =>
    obtain ⟨cs, hcs⟩ := QualifiedName.WellFormed.text_eq_cons hn
    have htext : ∃ rest, (t.renderKind (.object name args)).toList = '\\' :: rest := by
      rw [renderKind]
      by_cases hargs : args = []
      · exact ⟨cs, by rw [renderClass, hargs]; exact hcs⟩
      · exact ⟨_, by rw [toList_renderClass _ hargs, hcs]; rfl⟩
    obtain ⟨rest, hrest⟩ := htext
    rw [hrest]
    exact ⟨⟨'\\', rest, rfl, by decide, by decide⟩, fun _ => notCallable_of_head (by simp)⟩
  | array key i =>
    rw [renderKind]
    cases key with
    | int =>
      rw [toList_renderArray_int]
      exact ⟨⟨'a', _, rfl, by decide, by decide⟩, fun _ => notCallable_of_head (by simp)⟩
    | string =>
      rw [toList_renderArray_string]
      exact ⟨⟨'a', _, rfl, by decide, by decide⟩, fun _ => notCallable_of_head (by simp)⟩
    | mixed =>
      rw [toList_renderArray_mixed]
      split
      · exact ⟨⟨'(', _, rfl, by decide, by decide⟩, fun _ => notCallable_of_head (by simp)⟩
      · next hp =>
        obtain ⟨hstart, hnot⟩ := h i (by simp [TypeKind.embedded]) (by simpa using hp)
        exact ⟨hstart.append _, fun _ => hnot.append_brackets _⟩
  | shape fields =>
    rw [toList_renderShape]
    exact ⟨⟨'a', _, rfl, by decide, by decide⟩, fun _ => notCallable_of_head (by simp)⟩
  | intLiteral n =>
    have hchars : ∀ c ∈ (t.renderKind (.intLiteral n)).toList, TypeParser.isNumeralChar c = true :=
      fun c => Text.isNumeralChar_of_mem_decimal
    refine ⟨plainStart_of_class (by decide) (Text.decimal_ne_nil n) hchars, fun _ => ?_⟩
    exact notCallable_of_not_mem fun hmem => absurd (hchars '(' hmem) (by decide)
  | stringLiteral s =>
    rw [renderKind, toList_quote]
    exact ⟨⟨'\'', _, rfl, by decide, by decide⟩, fun _ => notCallable_of_head (by simp)⟩
  | callable sig =>
    rw [toList_renderCallable]
    refine ⟨PlainStart.append ?_ _, fun hne => absurd rfl (hne sig)⟩
    cases sig.isClosure
    · exact ⟨'c', _, rfl, by decide, by decide⟩
    · exact ⟨'C', _, rfl, by decide, by decide⟩

theorem Canonical.start_key (hc : t.Canonical) (i : TypeId) (hi : i < t.size)
    (hp : t.needsParens i = false) : PlainStart (t.key i).toList ∧ NotCallable (t.key i).toList := by
  induction i using Nat.strong_induction_on with
  | _ i ih =>
    obtain ⟨e, he⟩ := exists_entry hi
    obtain ⟨hnull, hcall⟩ := needsParens_eq he hp
    obtain ⟨hstart, hnot⟩ := start_renderKind (hc.named i e he) fun j hj =>
      ih j (embedded_lt he hj) ((embedded_lt he hj).trans hi)
    rw [key_eq he, hc.keyed i e he, toList_render, hnull]
    exact ⟨hstart, hnot hcall⟩

theorem Canonical.start_kind (hc : t.Canonical) {ty : Ty} (hw : t.Writable ty) :
    PlainStart (t.renderKind ty.kind).toList ∧
      ((∀ sig, ty.kind ≠ .callable sig) → NotCallable (t.renderKind ty.kind).toList) :=
  start_renderKind hw.named fun j hj => hc.start_key j (hw.inside j hj)

/-- The text of a type is not empty and starts with neither a mark of a reference nor a blank. -/
theorem Canonical.key_eq_cons (hc : t.Canonical) {i : TypeId} (hi : i < t.size) :
    ∃ c rest, (t.key i).toList = c :: rest ∧ c ∉ nonStarts := by
  obtain ⟨e, he⟩ := exists_entry hi
  obtain ⟨c, rest, hcs, -, hand⟩ := (hc.start_kind (hc.writable he)).1
  rw [key_eq he, hc.keyed i e he, toList_render, hcs]
  split
  · exact ⟨'?', _, rfl, by decide⟩
  · exact ⟨c, rest, rfl, hand⟩

end TypeTable

end UnionInference
