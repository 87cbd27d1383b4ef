import UnionInference.Proofs.Types.Rendering

/-!
Two types of a canonical table are written the same exactly when they are alike. How a text begins
and ends tells what kind of type it writes; the text is then taken apart at its dividers, and its
parts are texts that the table holds, which tell the types apart.
-/

namespace UnionInference

open TypeText

/-- What the text of a kind looks like from outside. -/
inductive TypeText.Form where
  | callable (isClosure : Bool)
  | list | object | string | int | shape | intKeyed | stringKeyed | word
  deriving DecidableEq

/-- What a text looks like from outside. Callable types come first: theirs may end like a list. -/
def TypeText.formOf (cs : List Char) : Form :=
  if "Closure(".toList <+: cs then .callable true
  else if "callable(".toList <+: cs then .callable false
  else if cs.getLast? = some ']' then .list
  else if cs.head? = some '\\' then .object
  else if cs.head? = some '\'' then .string
  else if cs.head?.any TypeParser.isNumeralChar then .int
  else if "array\x7b".toList <+: cs then .shape
  else if "array<int,".toList <+: cs then .intKeyed
  else if "array<string,".toList <+: cs then .stringKeyed
  else .word

/-- What the text of a kind should look like from outside. -/
def TypeKind.form : TypeKind → Form
  | .native _ | .template _ => .word
  | .object .. => .object
  | .array .int _ => .intKeyed
  | .array .string _ => .stringKeyed
  | .array .mixed _ => .list
  | .shape _ => .shape
  | .intLiteral _ => .int
  | .stringLiteral _ => .string
  | .callable sig => .callable sig.isClosure

/-- Kinds that look the same from outside. They are built in the same way, but a template looks like a
built-in type. -/
inductive TypeKind.LookAlike : TypeKind → TypeKind → Prop
  | native (j k : NativeKind) : LookAlike (.native j) (.native k)
  | nativeTemplate (k : NativeKind) (name : String) : LookAlike (.native k) (.template name)
  | templateNative (name : String) (k : NativeKind) : LookAlike (.template name) (.native k)
  | template (name name' : String) : LookAlike (.template name) (.template name')
  | object (name name' : ClassName) (args args' : List UnionType) :
      LookAlike (.object name args) (.object name' args')
  | array (key : KeyKind) (i j : TypeId) : LookAlike (.array key i) (.array key j)
  | shape (fields fields' : ShapeFields) : LookAlike (.shape fields) (.shape fields')
  | intLiteral (m n : Int) : LookAlike (.intLiteral m) (.intLiteral n)
  | stringLiteral (x y : String) : LookAlike (.stringLiteral x) (.stringLiteral y)
  | callable (r s : CallableSignature) (h : r.isClosure = s.isClosure) :
      LookAlike (.callable r) (.callable s)

theorem TypeKind.lookAlike_of_form_eq {a b : TypeKind} (h : a.form = b.form) : a.LookAlike b := by
  cases a with
  | array key i =>
    cases b with
    | array key' j => cases key <;> cases key' <;> first | exact .array _ i j | cases h
    | _ => cases key <;> cases h
  | callable r =>
    cases b with
    | callable s => exact .callable r s (Form.callable.inj h)
    | array key i => cases key <;> cases h
    | _ => cases h
  | _ =>
    cases b with
    | array key i => cases key <;> cases h
    | _ => first | constructor | cases h

namespace TypeTable

variable {t : TypeTable}

theorem formOf_of_notCallable {cs : List Char} (h : NotCallable cs) : formOf cs =
    if cs.getLast? = some ']' then .list
    else if cs.head? = some '\\' then .object
    else if cs.head? = some '\'' then .string
    else if cs.head?.any TypeParser.isNumeralChar then .int
    else if "array\x7b".toList <+: cs then .shape
    else if "array<int,".toList <+: cs then .intKeyed
    else if "array<string,".toList <+: cs then .stringKeyed
    else .word := by
  have hclosure : ¬ "Closure(".toList <+: cs := h true
  have hcallable : ¬ "callable(".toList <+: cs := h false
  rw [formOf, if_neg hclosure, if_neg hcallable]

theorem formOf_word {cs : List Char} (h : IsSegment cs)
    (hd : ∀ c ∈ cs.head?, c.isDigit = false) : formOf cs = .word := by
  have hmem : ∀ d, isSegmentChar d = false → d ∉ cs := by
    intro d hd hmem
    rw [h.2 d hmem] at hd
    cases hd
  have hstart : ∀ (w : List Char) (d : Char), d ∈ w → isSegmentChar d = false → ¬ w <+: cs :=
    fun w d hw hd hp => hmem d hd (hp.subset hw)
  rw [formOf_of_notCallable (notCallable_of_not_mem (hmem '(' (by decide)))]
  rw [if_neg fun hl => hmem ']' (by decide) (List.mem_of_getLast? hl),
    if_neg fun hh => hmem '\\' (by decide) (List.mem_of_head? hh),
    if_neg fun hh => hmem '\'' (by decide) (List.mem_of_head? hh), if_neg ?_,
    if_neg (hstart _ '\x7b' (by decide) (by decide)), if_neg (hstart _ '<' (by decide) (by decide)),
    if_neg (hstart _ '<' (by decide) (by decide))]
  cases cs with
  | nil => exact absurd rfl h.1
  | cons c cs =>
    have hminus : c ≠ '-' := by rintro rfl; exact hmem '-' (by decide) (by simp)
    simp [TypeParser.isNumeralChar, hminus, hd c (by simp)]

theorem getLast?_bracketed (as cs : List Char) (b d : Char) :
    (as ++ b :: (cs ++ [d])).getLast? = some d := by
  rw [← List.cons_append, ← List.append_assoc, List.getLast?_concat]

/-- A text shows what kind of type it writes. -/
theorem Canonical.formOf_renderKind (hc : t.Canonical) {ty : Ty} (hw : t.Writable ty) :
    formOf (t.renderKind ty.kind).toList = ty.kind.form := by
  have hstart := (hc.start_kind hw).2
  have hn := hw.named
  obtain ⟨kind, nullable⟩ := ty
  cases kind with
  | native k => exact formOf_word k.isSegment_name k.not_isDigit_head
  | template name => exact formOf_word hn.1.1 hn.1.2
  | object name args =>
    obtain ⟨cs, hcs⟩ := QualifiedName.WellFormed.text_eq_cons hn
    rw [formOf_of_notCallable (hstart (by simp)), renderKind]
    by_cases hargs : args = []
    · have hlast : name.text.toList.getLast? ≠ some ']' := fun hl =>
        absurd (QualifiedName.WellFormed.isNameChar hn (List.mem_of_getLast? hl)) (by decide)
      rw [renderClass, hargs, List.isEmpty_nil, if_pos rfl, if_neg hlast, if_pos (by rw [hcs]; rfl)]
      rfl
    · rw [toList_renderClass _ hargs, if_neg (by rw [getLast?_bracketed]; decide),
        if_pos (by rw [hcs]; rfl)]
      rfl
  | array key i =>
    rw [formOf_of_notCallable (hstart (by simp)), renderKind]
    cases key with
    | int =>
      rw [toList_renderArray_int, if_neg (by rw [getLast?_bracketed]; decide)]
      simp [TypeKind.form, TypeParser.isNumeralChar]
    | string =>
      rw [toList_renderArray_string, if_neg (by rw [getLast?_bracketed]; decide)]
      simp [TypeKind.form, TypeParser.isNumeralChar]
    | mixed => rw [toList_renderArray_mixed, if_pos (by simp [List.getLast?_append])]; rfl
  | shape fields =>
    rw [formOf_of_notCallable (hstart (by simp)), toList_renderShape,
      if_neg (by rw [getLast?_bracketed]; decide)]
    simp [TypeKind.form, TypeParser.isNumeralChar]
  | intLiteral n =>
    have hchars : ∀ c ∈ (Text.decimal n).toList, TypeParser.isNumeralChar c = true :=
      fun c => Text.isNumeralChar_of_mem_decimal
    rw [formOf_of_notCallable (hstart (by simp)), renderKind]
    rw [if_neg fun hl => absurd (hchars ']' (List.mem_of_getLast? hl)) (by decide),
      if_neg fun hh => absurd (hchars '\\' (List.mem_of_head? hh)) (by decide),
      if_neg fun hh => absurd (hchars '\'' (List.mem_of_head? hh)) (by decide), if_pos ?_]
    · rfl
    · cases hcs : (Text.decimal n).toList with
      | nil => exact absurd hcs (Text.decimal_ne_nil n)
      | cons c cs => simp [hchars c (by simp [hcs])]
  | stringLiteral s =>
    rw [formOf_of_notCallable (hstart (by simp)), renderKind, toList_quote]
    have hlast := getLast?_bracketed [] (s.toList.flatMap quoteChar) '\'' '\''
    rw [List.nil_append] at hlast
    rw [if_neg (by rw [hlast]; decide), if_neg (by simp), if_pos (by simp)]
    rfl
  | callable sig =>
    rw [toList_renderCallable, formOf]
    cases h : sig.isClosure
    · rw [if_neg (by simp [callableWord]), if_pos (by simp [callableWord])]
      simp [TypeKind.form, h]
    · rw [if_pos (by simp [callableWord])]
      simp [TypeKind.form, h]

/-! ### Taking texts apart -/

/-- Stops at one character. -/
def stopAt (c : Char) : Char → Bool := fun d => d == c

theorem stopAt_isDivider {c : Char} (h : isDivider c = true) :
    ∀ d, stopAt c d = true → isDivider d = true := by
  intro d hd
  rw [stopAt, beq_iff_eq] at hd
  rw [hd, h]

/-- Unions of a canonical table are written the same only if they have the same members. -/
theorem Canonical.sameMembers_of_renderUnion_eq (hc : t.Canonical) {u v : UnionType}
    (hu : ∀ i ∈ u.members, i < t.size) (hv : ∀ i ∈ v.members, i < t.size)
    (h : t.renderUnion u = t.renderUnion v) : u.SameMembers v := by
  have htexts : ∀ w : UnionType, (∀ i ∈ w.members, i < t.size) →
      ∀ cs ∈ t.memberTexts w, Neutral (stopAt '|') cs ∧ cs ≠ [] := by
    intro w hw cs hcs
    obtain ⟨i, hi, rfl⟩ := mem_memberTexts.1 hcs
    obtain ⟨c, rest, hcons, -⟩ := hc.key_eq_cons (hw i hi)
    exact ⟨hc.neutral_key (stopAt_isDivider (by decide)) i (hw i hi), by simp [hcons]⟩
  have hjoined : ['|'].intercalate (t.memberTexts u) = ['|'].intercalate (t.memberTexts v) := by
    rw [← toList_renderUnion, ← toList_renderUnion, h]
  have heq : t.memberTexts u = t.memberTexts v :=
    intercalate_inj_of_ne_nil (by decide) (htexts u hu) (htexts v hv) hjoined
  have hsub : ∀ {w x : UnionType}, (∀ i ∈ w.members, i < t.size) → (∀ i ∈ x.members, i < t.size) →
      t.memberTexts w = t.memberTexts x → ∀ i ∈ w.members, i ∈ x.members := by
    intro w x hw hx hwx i hi
    have hmem : (t.key i).toList ∈ t.memberTexts x := hwx ▸ mem_memberTexts.2 ⟨i, hi, rfl⟩
    obtain ⟨j, hj, hkey⟩ := mem_memberTexts.1 hmem
    rwa [hc.key_injective (hw i hi) (hx j hj) (String.toList_inj.1 hkey.symm)]
  exact fun i => ⟨hsub hu hv heq i, hsub hv hu heq.symm i⟩

theorem Canonical.renderUnion_eq_iff (hc : t.Canonical) {u v : UnionType}
    (hu : ∀ i ∈ u.members, i < t.size) (hv : ∀ i ∈ v.members, i < t.size) :
    t.renderUnion u = t.renderUnion v ↔ u.SameMembers v :=
  ⟨hc.sameMembers_of_renderUnion_eq hu hv, renderUnion_congr⟩

theorem Canonical.neutral_union (hc : t.Canonical) {stop : Char → Bool}
    (hstop : ∀ c, stop c = true → isDivider c = true) (hbar : stop '|' = false) {u : UnionType}
    (hu : ∀ i ∈ u.members, i < t.size) : Neutral stop (t.renderUnion u).toList :=
  neutral_renderUnion hbar fun i hi => hc.neutral_key hstop i (hu i hi)

/-- Texts of members that are equal one by one come from members that are alike one by one. -/
theorem forall₂_of_map_eq {α β : Type} {R : α → α → Prop} {f : α → β} :
    ∀ {as bs : List α}, (∀ a ∈ as, ∀ b ∈ bs, f a = f b → R a b) → as.map f = bs.map f →
      List.Forall₂ R as bs
  | [], [], _, _ => .nil
  | [], _ :: _, _, h => by simp at h
  | _ :: _, [], _, h => by simp at h
  | a :: as, b :: bs, hR, h => by
    rw [List.map_cons, List.map_cons, List.cons.injEq] at h
    exact .cons (hR a (by simp) b (by simp) h.1)
      (forall₂_of_map_eq (fun x hx y hy => hR x (by simp [hx]) y (by simp [hy])) h.2)

theorem Canonical.args_of_texts_eq (hc : t.Canonical) {as bs : List UnionType}
    (ha : ∀ u ∈ as, ∀ i ∈ u.members, i < t.size) (hb : ∀ u ∈ bs, ∀ i ∈ u.members, i < t.size)
    (hnil : as = [] ↔ bs = [])
    (h : [','].intercalate (t.argTexts as) = [','].intercalate (t.argTexts bs)) :
    List.Forall₂ UnionType.SameMembers as bs := by
  have hneutral : ∀ us : List UnionType, (∀ u ∈ us, ∀ i ∈ u.members, i < t.size) →
      ∀ cs ∈ t.argTexts us, Neutral (stopAt ',') cs := by
    intro us hus cs hcs
    obtain ⟨u, hu, rfl⟩ := List.mem_map.1 hcs
    exact hc.neutral_union (stopAt_isDivider (by decide)) (by decide) (hus u hu)
  have heq : t.argTexts as = t.argTexts bs :=
    intercalate_inj (by decide) (hneutral as ha) (hneutral bs hb)
      (by simpa [argTexts] using hnil) h
  exact forall₂_of_map_eq (fun u hu v hv huv => hc.sameMembers_of_renderUnion_eq (ha u hu)
    (hb v hv) (String.toList_inj.1 huv)) heq

/-- A key without quotes is no number, so keys are written differently. -/
theorem ShapeKey.text_injective {j k : ShapeKey}
    (hj : ∀ n, j = .int n → Text.isInteger n = true) (hk : ∀ n, k = .int n → Text.isInteger n = true)
    (h : j.text = k.text) : j = k := by
  have hquote : ∀ (cs : List Char) (s : String), (∀ c ∈ cs, TypeParser.isKeyChar c = true) →
      cs ≠ (quote s).toList := by
    intro cs s hcs heq
    rw [toList_quote] at heq
    exact absurd (hcs '\'' (by simp [heq])) (by decide)
  have hbare : ∀ s, ShapeKey.isBare s = true →
      (∀ c ∈ s.toList, TypeParser.isKeyChar c = true) ∧ Text.integer? s.toList = none := by
    intro s hs
    simp only [ShapeKey.isBare, Bool.and_eq_true, List.all_eq_true, Option.isNone_iff_eq_none] at hs
    exact ⟨fun c hc => by simp [TypeParser.isKeyChar, hs.1.2 c hc], hs.2⟩
  have hmix : ∀ (n : Int) (s : String), Text.isInteger n = true →
      (ShapeKey.int n).text ≠ (ShapeKey.str s).text := by
    intro n s hn heq
    rw [ShapeKey.text, ShapeKey.text] at heq
    split at heq
    · next hs =>
      have hread := Text.integer?_decimal hn
      rw [heq, (hbare s hs).2] at hread
      cases hread
    · exact hquote _ s (fun c => Text.isKeyChar_of_mem_decimal) (congrArg String.toList heq)
  cases j with
  | int m =>
    cases k with
    | int n => rw [Text.decimal_injective h]
    | str s => exact absurd h (hmix m s (hj m rfl))
  | str r =>
    cases k with
    | int n => exact absurd h.symm (hmix n r (hk n rfl))
    | str s =>
      rw [ShapeKey.text, ShapeKey.text] at h
      split at h <;> split at h
      · rw [h]
      · next hr _ => exact absurd (congrArg String.toList h) (hquote _ s (hbare r hr).1)
      · next _ hs => exact absurd (congrArg String.toList h).symm (hquote _ r (hbare s hs).1)
      · rw [quote_injective h]

/-- A field is taken apart after its key, which holds neither mark that can follow it. -/
theorem Canonical.field_of_text_eq (hc : t.Canonical) {f g : ShapeKey × ShapeField}
    (hf : ∀ n, f.1 = .int n → Text.isInteger n = true)
    (hg : ∀ n, g.1 = .int n → Text.isInteger n = true)
    (hfu : ∀ i ∈ f.2.type.members, i < t.size) (hgu : ∀ i ∈ g.2.type.members, i < t.size)
    (h : t.renderField f.1 f.2 = t.renderField g.1 g.2) : ShapeField.Alike f g := by
  have hstop : ∀ c, TypeParser.isKeyChar c = true → (c == '?' || c == ':') = false := by
    intro c hc
    rw [← Bool.not_eq_true]
    intro hm
    simp only [Bool.or_eq_true, beq_iff_eq] at hm
    rcases hm with rfl | rfl <;> revert hc <;> decide
  have h := congrArg String.toList h
  rw [toList_renderField, toList_renderField] at h
  obtain ⟨hkey, hrest⟩ := Neutral.append_inj
    (neutral_shapeKey hstop (by decide) f.1) (neutral_shapeKey hstop (by decide) g.1)
    (by cases f.2.optional <;> simp) (by cases g.2.optional <;> simp) h
  have hopt : f.2.optional = g.2.optional := by
    revert hrest
    cases f.2.optional <;> cases g.2.optional <;> simp
  rw [hopt, List.append_cancel_left_eq, List.cons.injEq] at hrest
  exact ⟨ShapeKey.text_injective hf hg (String.toList_inj.1 hkey), hopt,
    hc.sameMembers_of_renderUnion_eq hfu hgu (String.toList_inj.1 hrest.2)⟩

theorem Canonical.orMixed_lt (hc : t.Canonical) {u : UnionType} (hu : ∀ i ∈ u.members, i < t.size) :
    ∀ i ∈ u.orMixed.members, i < t.size := by
  cases h : u.isEmpty with
  | true =>
    intro i hi
    rw [UnionType.orMixed_of_isEmpty h, UnionType.mixed, UnionType.members_native,
      List.mem_singleton] at hi
    exact hi ▸ lt_size_of_entry (hc.natives .mixed)
  | false => rwa [UnionType.orMixed_of_not_isEmpty h]

/-- The text of a union that is not empty starts like one of its members. -/
theorem Canonical.renderUnion_eq_cons (hc : t.Canonical) {u : UnionType} (hne : u.members ≠ [])
    (hu : ∀ i ∈ u.members, i < t.size) :
    ∃ c rest, (t.renderUnion u).toList = c :: rest ∧ c ∉ nonStarts := by
  rw [toList_renderUnion]
  cases htexts : t.memberTexts u with
  | nil => exact absurd (memberTexts_eq_nil.1 htexts) hne
  | cons cs texts =>
    obtain ⟨i, hi, rfl⟩ := mem_memberTexts.1 (show cs ∈ t.memberTexts u by simp [htexts])
    obtain ⟨c, rest, hcons, hand⟩ := hc.key_eq_cons (hu i hi)
    rw [intercalate_cons, hcons]
    exact ⟨c, _, rfl, hand⟩

/-- A parameter is taken apart behind its type, which holds none of the marks outside brackets. -/
theorem Canonical.param_of_text_eq (hc : t.Canonical) {p q : CallableParam}
    (hp : ∀ i ∈ p.type.members, i < t.size) (hq : ∀ i ∈ q.type.members, i < t.size)
    (h : t.renderParam p = t.renderParam q) : CallableParam.Alike p q := by
  have h := congrArg String.toList h
  rw [toList_renderParam hc, toList_renderParam hc] at h
  have hp' := hc.orMixed_lt hp
  have hq' := hc.orMixed_lt hq
  have hand : p.byRef = q.byRef := by
    obtain ⟨c, cs, hc1, hand1⟩ := hc.renderUnion_eq_cons (UnionType.orMixed_members_ne_nil _) hp'
    obtain ⟨d, ds, hc2, hand2⟩ := hc.renderUnion_eq_cons (UnionType.orMixed_members_ne_nil _) hq'
    have hne : ∀ {e : Char}, e ∉ nonStarts → e ≠ '&' := by rintro e he rfl; exact he (by decide)
    rw [hc1, hc2] at h
    revert h
    cases p.byRef <;> cases q.byRef <;> simp [hne hand1, Ne.symm (hne hand2)]
  rw [hand, List.append_cancel_left_eq] at h
  have hstop : ∀ c, (c == '.' || c == '=') = true → isDivider c = true := by
    intro c hc
    simp only [Bool.or_eq_true, beq_iff_eq] at hc
    rcases hc with rfl | rfl <;> decide
  obtain ⟨htype, hmarks⟩ := Neutral.append_inj
    (hc.neutral_union hstop (by decide) hp') (hc.neutral_union hstop (by decide) hq')
    (by cases p.variadic <;> cases p.optional <;> simp)
    (by cases q.variadic <;> cases q.optional <;> simp) h
  have hflags : p.variadic = q.variadic ∧ p.optional = q.optional := by
    revert hmarks
    cases p.variadic <;> cases q.variadic <;> cases p.optional <;> cases q.optional <;> simp
  exact ⟨hc.sameMembers_of_renderUnion_eq hp' hq' (String.toList_inj.1 htype), hand, hflags⟩

/-- Only lists begin with a bracket, and they end with a square one. -/
theorem Canonical.key_ne_parens (hc : t.Canonical) {i : TypeId} (hi : i < t.size) (cs : List Char) :
    (t.key i).toList ≠ '(' :: (cs ++ [')']) := by
  obtain ⟨e, he⟩ := exists_entry hi
  have hform := hc.formOf_renderKind (hc.writable he)
  intro h
  rw [key_eq he, hc.keyed i e he, toList_render] at h
  have hnull : e.type.nullable = false := by
    rw [← Bool.not_eq_true]
    intro hn
    rw [hn] at h
    simp at h
  rw [hnull, if_neg (by decide), List.nil_append] at h
  -- a text in brackets looks like a word from outside, and words have no brackets
  rw [h, formOf_of_notCallable (notCallable_of_head (by simp))] at hform
  have hlast := getLast?_bracketed [] cs '(' ')'
  rw [List.nil_append] at hlast
  rw [hlast] at hform
  have hn := hc.named i e he
  obtain ⟨⟨kind, nullable⟩, key⟩ := e
  cases kind with
  | native k =>
    have hmem : '(' ∈ k.name.toList := by rw [show k.name.toList = _ from h]; simp
    exact absurd (k.isSegment_name.2 '(' hmem) (by decide)
  | template name =>
    have hmem : '(' ∈ name.toList := by rw [show name.toList = _ from h]; simp
    exact absurd (hn.1.1.2 '(' hmem) (by decide)
  | array key j => cases key <;> simp [TypeKind.form, TypeParser.isNumeralChar] at hform
  | _ => simp [TypeKind.form, TypeParser.isNumeralChar] at hform

theorem renderUnion_of_single {u : UnionType} {i : TypeId} (h : u.members = [i]) :
    t.renderUnion u = t.key i := by
  rw [renderUnion, h, List.map_singleton, sortTexts, List.mergeSort_singleton, Text.join,
    String.intercalate_singleton]

theorem renderUnion_of (t : TypeTable) (i : TypeId) : t.renderUnion (.of i) = t.key i :=
  renderUnion_of_single (UnionType.members_of i)

/-- How a result is written: not at all, as it is, or in brackets. -/
theorem renderResult_cases (u : UnionType) :
    (u.members = [] ∧ (t.renderResult u).toList = []) ∨
      (∃ i, u.members = [i] ∧ (t.renderResult u).toList = ':' :: (t.key i).toList) ∨
      (2 ≤ u.members.length ∧
        (t.renderResult u).toList = ':' :: '(' :: ((t.renderUnion u).toList ++ [')'])) := by
  rw [renderResult.eq_def]
  split
  · next h => exact Or.inl ⟨h, rfl⟩
  · next i h => exact Or.inr (Or.inl ⟨i, h, by rw [renderUnion_of_single h]; simp⟩)
  · next h h' =>
    refine Or.inr (Or.inr ⟨?_, by simp⟩)
    rcases hm : u.members with _ | ⟨i, _ | ⟨j, rest⟩⟩
    · exact absurd hm h
    · exact absurd hm (h' i)
    · simp

theorem Canonical.result_of_text_eq (hc : t.Canonical) {u v : UnionType}
    (hu : ∀ i ∈ u.members, i < t.size) (hv : ∀ i ∈ v.members, i < t.size)
    (h : t.renderResult u = t.renderResult v) : u.SameMembers v := by
  have h := congrArg String.toList h
  rcases renderResult_cases (t := t) u with ⟨hm, hr⟩ | ⟨i, hm, hr⟩ | ⟨-, hr⟩ <;>
    rcases renderResult_cases (t := t) v with ⟨hm', hr'⟩ | ⟨j, hm', hr'⟩ | ⟨-, hr'⟩ <;>
    rw [hr, hr'] at h
  · intro a; rw [hm, hm']
  · simp at h
  · simp at h
  · simp at h
  · rw [List.cons.injEq] at h
    have hij := hc.key_injective (hu i (by simp [hm])) (hv j (by simp [hm']))
      (String.toList_inj.1 h.2)
    intro a; rw [hm, hm', hij]
  · rw [List.cons.injEq] at h
    exact absurd h.2 (hc.key_ne_parens (hu i (by simp [hm])) _)
  · simp at h
  · rw [List.cons.injEq] at h
    exact absurd h.2.symm (hc.key_ne_parens (hv j (by simp [hm'])) _)
  · simp only [List.cons.injEq, true_and, List.append_cancel_right_eq] at h
    exact hc.sameMembers_of_renderUnion_eq hu hv (String.toList_inj.1 h)

/-- The elements of lists that are written the same are the same. -/
theorem Canonical.element_of_text_eq (hc : t.Canonical) {i j : TypeId} (hi : i < t.size)
    (hj : j < t.size) (h : t.renderArray .mixed i = t.renderArray .mixed j) : i = j := by
  have h := congrArg String.toList h
  rw [toList_renderArray_mixed, toList_renderArray_mixed, List.append_cancel_right_eq] at h
  split at h <;> split at h
  · rw [List.cons.injEq, List.append_cancel_right_eq] at h
    exact hc.key_injective hi hj (String.toList_inj.1 h.2)
  · exact absurd h.symm (hc.key_ne_parens hj _)
  · exact absurd h (hc.key_ne_parens hi _)
  · exact hc.key_injective hi hj (String.toList_inj.1 h)

/-- Class types are taken apart behind their names. -/
theorem Canonical.object_of_text_eq (hc : t.Canonical) {a b : ClassName} {as bs : List UnionType}
    (ha : a.WellFormed) (hb : b.WellFormed) (has : ∀ u ∈ as, ∀ i ∈ u.members, i < t.size)
    (hbs : ∀ u ∈ bs, ∀ i ∈ u.members, i < t.size)
    (h : t.renderClass a.text as = t.renderClass b.text bs) :
    a.text = b.text ∧ List.Forall₂ UnionType.SameMembers as bs := by
  have hname : ∀ q : ClassName, q.WellFormed → Neutral (stopAt '<') q.text.toList := by
    intro q hq
    refine Neutral.of_all fun c hc => ?_
    have hchar := hq.isNameChar hc
    refine ⟨(flat_of_class isNameChar_special hchar).1, ?_⟩
    rw [stopAt, beq_eq_false_iff_ne]
    rintro rfl
    revert hchar; decide
  have htext : ∀ (q : ClassName) (us : List UnionType), (t.renderClass q.text us).toList =
      q.text.toList ++
        if us = [] then [] else '<' :: ([','].intercalate (t.argTexts us) ++ ['>']) := by
    intro q us
    by_cases hus : us = []
    · rw [renderClass, hus]; simp
    · rw [toList_renderClass _ hus, if_neg hus]
  have hstops : ∀ us : List UnionType, ∀ c ∈ (if us = [] then []
      else '<' :: ([','].intercalate (t.argTexts us) ++ ['>'])).head?, stopAt '<' c = true := by
    intro us
    split <;> simp [stopAt]
  have h := congrArg String.toList h
  rw [htext, htext] at h
  obtain ⟨htxt, hargs⟩ := Neutral.append_inj (hname a ha) (hname b hb) (hstops as) (hstops bs) h
  refine ⟨String.toList_inj.1 htxt, ?_⟩
  by_cases hnil : as = [] <;> by_cases hnil' : bs = []
  · rw [hnil, hnil']; exact .nil
  · rw [if_pos hnil, if_neg hnil'] at hargs; simp at hargs
  · rw [if_neg hnil, if_pos hnil'] at hargs; simp at hargs
  · rw [if_neg hnil, if_neg hnil', List.cons.injEq, List.append_cancel_right_eq] at hargs
    exact hc.args_of_texts_eq has hbs (by simp [hnil, hnil']) hargs.2

theorem Canonical.fields_of_text_eq (hc : t.Canonical) {fs gs : ShapeFields}
    (hf : (TypeKind.shape fs).WellNamed) (hg : (TypeKind.shape gs).WellNamed)
    (hfu : ∀ f ∈ fs, ∀ i ∈ f.2.type.members, i < t.size)
    (hgu : ∀ g ∈ gs, ∀ i ∈ g.2.type.members, i < t.size)
    (h : t.renderKind (.shape fs) = t.renderKind (.shape gs)) :
    List.Forall₂ ShapeField.Alike fs gs := by
  have hneutral : ∀ ks : ShapeFields, (∀ f ∈ ks, ∀ i ∈ f.2.type.members, i < t.size) →
      ∀ cs ∈ t.fieldTexts ks, Neutral (stopAt ',') cs ∧ cs ≠ [] := by
    intro ks hks cs hcs
    obtain ⟨f, hf, rfl⟩ := List.mem_map.1 hcs
    have hstop := stopAt_isDivider (c := ',') (by decide)
    rw [toList_renderField]
    refine ⟨Neutral.append ?_ (Neutral.append ?_ ?_), by simp⟩
    · exact neutral_shapeKey
        (fun c hc => stop_eq_false hstop (flat_of_class isKeyChar_special hc).2) (by decide) f.1
    · split
      · exact Neutral.char (by decide) (by decide)
      · exact Neutral.nil
    · exact (Neutral.char (c := ':') (by decide) (by decide)).append
        (hc.neutral_union hstop (by decide) (hks f hf))
  have h := congrArg String.toList h
  rw [toList_renderShape, toList_renderShape, List.append_cancel_left_eq, List.cons.injEq,
    List.append_cancel_right_eq] at h
  have heq : t.fieldTexts fs = t.fieldTexts gs :=
    intercalate_inj_of_ne_nil (by decide) (hneutral fs hfu) (hneutral gs hgu) h.2
  exact forall₂_of_map_eq (fun f hmf g hmg hfg => hc.field_of_text_eq (hf f hmf) (hg g hmg)
    (hfu f hmf) (hgu g hmg) (String.toList_inj.1 hfg)) heq

theorem Canonical.neutral_param (hc : t.Canonical) {stop : Char → Bool}
    (hstop : ∀ c, stop c = true → isDivider c = true) (hbar : stop '|' = false)
    (hmarks : stop '.' = false ∧ stop '=' = false) {p : CallableParam}
    (hp : ∀ i ∈ p.type.members, i < t.size) : Neutral stop (t.renderParam p).toList := by
  rw [toList_renderParam hc]
  refine Neutral.append ?_ ((hc.neutral_union hstop hbar (hc.orMixed_lt hp)).append
    (Neutral.append ?_ ?_))
  · split
    · exact Neutral.char (by decide) (stop_eq_false hstop (by decide))
    · exact Neutral.nil
  · have hdot : Neutral stop ['.'] := Neutral.char (by decide) hmarks.1
    split
    · exact hdot.append (hdot.append hdot)
    · exact Neutral.nil
  · split
    · exact Neutral.char (by decide) hmarks.2
    · exact Neutral.nil

/-- Callable types are taken apart at the bracket that closes their parameters. -/
theorem Canonical.callable_of_text_eq (hc : t.Canonical) {r s : CallableSignature}
    (hr : ∀ p ∈ r.params, ∀ i ∈ p.type.members, i < t.size)
    (hs : ∀ p ∈ s.params, ∀ i ∈ p.type.members, i < t.size)
    (hru : ∀ i ∈ r.result.members, i < t.size) (hsu : ∀ i ∈ s.result.members, i < t.size)
    (hclosure : r.isClosure = s.isClosure)
    (h : t.renderKind (.callable r) = t.renderKind (.callable s)) :
    List.Forall₂ CallableParam.Alike r.params s.params ∧ r.result.SameMembers s.result := by
  have hparams : ∀ ps : List CallableParam, (∀ p ∈ ps, ∀ i ∈ p.type.members, i < t.size) →
      Neutral (stopAt ')') ([','].intercalate (t.paramTexts ps)) ∧
        ∀ cs ∈ t.paramTexts ps, Neutral (stopAt ',') cs ∧ cs ≠ [] := by
    intro ps hps
    refine ⟨Neutral.intercalate (by decide) (by decide) fun cs hcs => ?_, fun cs hcs => ?_⟩
    · obtain ⟨p, hp, rfl⟩ := List.mem_map.1 hcs
      exact hc.neutral_param (stopAt_isDivider (by decide)) (by decide) (by decide) (hps p hp)
    · obtain ⟨p, hp, rfl⟩ := List.mem_map.1 hcs
      obtain ⟨c, rest, hcons, -⟩ := hc.renderUnion_eq_cons
        (UnionType.orMixed_members_ne_nil p.type) (hc.orMixed_lt (hps p hp))
      refine ⟨hc.neutral_param (stopAt_isDivider (by decide)) (by decide) (by decide) (hps p hp), ?_⟩
      rw [toList_renderParam hc, hcons]
      simp
  have h := congrArg String.toList h
  rw [toList_renderCallable, toList_renderCallable, hclosure, List.append_cancel_left_eq,
    List.cons.injEq] at h
  obtain ⟨hps, hres⟩ := Neutral.append_inj (hparams r.params hr).1 (hparams s.params hs).1
    (by simp [stopAt]) (by simp [stopAt]) h.2
  have heq : t.paramTexts r.params = t.paramTexts s.params :=
    intercalate_inj_of_ne_nil (by decide) (hparams r.params hr).2
      (hparams s.params hs).2 hps
  refine ⟨forall₂_of_map_eq (fun p hp q hq hpq => ?_) heq, ?_⟩
  · exact hc.param_of_text_eq (hr p hp) (hs q hq) (String.toList_inj.1 hpq)
  · rw [List.cons.injEq] at hres
    exact hc.result_of_text_eq hru hsu (String.toList_inj.1 hres.2)

/-! ### The main statement -/

theorem Canonical.array_of_text_eq (hc : t.Canonical) {key : KeyKind} {i j : TypeId}
    (hi : i < t.size) (hj : j < t.size)
    (h : t.renderKind (.array key i) = t.renderKind (.array key j)) : i = j := by
  cases key with
  | mixed => exact hc.element_of_text_eq hi hj h
  | int =>
    have h := congrArg String.toList h
    rw [renderKind, renderKind, toList_renderArray_int, toList_renderArray_int] at h
    exact hc.key_injective hi hj (String.toList_inj.1 (by simpa using h))
  | string =>
    have h := congrArg String.toList h
    rw [renderKind, renderKind, toList_renderArray_string, toList_renderArray_string] at h
    exact hc.key_injective hi hj (String.toList_inj.1 (by simpa using h))

/-- Kinds that are written the same are alike. -/
theorem Canonical.alike_of_renderKind_eq (hc : t.Canonical) {a b : Ty} (ha : t.Writable a)
    (hb : t.Writable b) (h : t.renderKind a.kind = t.renderKind b.kind) :
    a.kind.Alike (fun x y => x.text = y.text) b.kind := by
  have hform : a.kind.form = b.kind.form := by
    rw [← hc.formOf_renderKind ha, h, hc.formOf_renderKind hb]
  obtain ⟨hain, -, han⟩ := ha
  obtain ⟨hbin, -, hbn⟩ := hb
  obtain ⟨a, _⟩ := a
  obtain ⟨b, _⟩ := b
  dsimp only at h hform hain hbin han hbn ⊢
  cases TypeKind.lookAlike_of_form_eq hform with
  | native j k => exact NativeKind.name_injective h
  | nativeTemplate k name => exact absurd h.symm (hbn.2 k)
  | templateNative name k => exact absurd h (han.2 k)
  | template name name' => exact h
  | object name name' args args' =>
    exact hc.object_of_text_eq han hbn
      (fun u hu i hi => hain i (List.mem_flatMap.2 ⟨u, hu, hi⟩))
      (fun u hu i hi => hbin i (List.mem_flatMap.2 ⟨u, hu, hi⟩)) h
  | array key i j =>
    have hi : i < t.size := hain i (by simp [TypeKind.embedded])
    have hj : j < t.size := hbin j (by simp [TypeKind.embedded])
    exact ⟨rfl, hc.array_of_text_eq hi hj h⟩
  | shape fields fields' =>
    exact hc.fields_of_text_eq han hbn
      (fun f hf i hi => hain i (List.mem_flatMap.2 ⟨f, hf, hi⟩))
      (fun f hf i hi => hbin i (List.mem_flatMap.2 ⟨f, hf, hi⟩)) h
  | intLiteral m n => exact Text.decimal_injective h
  | stringLiteral x y => exact quote_injective h
  | callable r s hclosure =>
    exact ⟨hclosure, hc.callable_of_text_eq
      (fun p hp i hi => hain i (List.mem_append_left _ (List.mem_flatMap.2 ⟨p, hp, hi⟩)))
      (fun p hp i hi => hbin i (List.mem_append_left _ (List.mem_flatMap.2 ⟨p, hp, hi⟩)))
      (fun i hi => hain i (List.mem_append_right _ hi))
      (fun i hi => hbin i (List.mem_append_right _ hi)) hclosure h⟩

theorem map_eq_of_forall₂ {α β : Type} {R : α → α → Prop} {f : α → β} {as bs : List α}
    (hR : ∀ x y, R x y → f x = f y) (h : List.Forall₂ R as bs) : as.map f = bs.map f := by
  induction h with
  | nil => rfl
  | cons hxy _ ih => rw [List.map_cons, List.map_cons, hR _ _ hxy, ih]

theorem renderResult_congr {u v : UnionType} (h : u.SameMembers v) :
    t.renderResult u = t.renderResult v := by
  have hlen := h.perm.length_eq
  rw [renderResult.eq_def, renderResult.eq_def, renderUnion_congr h]
  -- only the number of members decides how a result is written
  rcases hu : u.members with _ | ⟨i, _ | ⟨i', is⟩⟩ <;>
    rcases hv : v.members with _ | ⟨j, _ | ⟨j', js⟩⟩ <;>
    first
      | rfl
      | simp [hu, hv] at hlen

theorem renderParam_congr (hc : t.Canonical) {p q : CallableParam} (h : CallableParam.Alike p q) :
    t.renderParam p = t.renderParam q := by
  obtain ⟨htype, href, hvar, hopt⟩ := h
  apply String.toList_inj.1
  rw [toList_renderParam hc, toList_renderParam hc, renderUnion_congr htype, href, hvar, hopt]

/-- Kinds that are alike are written the same. -/
theorem Canonical.renderKind_eq_of_alike (hc : t.Canonical) {a b : TypeKind}
    (h : a.Alike (fun x y => x.text = y.text) b) : t.renderKind a = t.renderKind b := by
  match a, b, h with
  | .native j, .native k, h => exact congrArg NativeKind.name h
  | .object x as, .object y bs, h =>
    have hempty : as.isEmpty = bs.isEmpty := by
      cases h.2 <;> rfl
    have hargs : as.map t.renderUnion = bs.map t.renderUnion :=
      map_eq_of_forall₂ (fun _ _ hxy => renderUnion_congr hxy) h.2
    rw [renderKind, renderKind, renderClass, renderClass, show x.text = y.text from h.1, hempty, hargs]
  | .array .., .array .., h => rw [h.1, h.2]
  | .shape fs, .shape gs, h =>
    have hfields : fs.map (fun f => t.renderField f.1 f.2) = gs.map fun f => t.renderField f.1 f.2 := by
      refine map_eq_of_forall₂ (fun f g hfg => ?_) h
      rw [renderField, renderField, hfg.1, hfg.2.1, renderUnion_congr hfg.2.2]
    rw [renderKind, renderKind, hfields]
  | .intLiteral m, .intLiteral n, h => exact congrArg Text.decimal h
  | .stringLiteral r, .stringLiteral s, h => exact congrArg quote h
  | .callable r, .callable s, h =>
    obtain ⟨hclosure, hparams, hresult⟩ := h
    have hparams : r.params.map t.renderParam = s.params.map t.renderParam :=
      map_eq_of_forall₂ (fun _ _ hpq => renderParam_congr hc hpq) hparams
    rw [renderKind, renderKind, hclosure, renderResult_congr hresult, hparams]
  | .template r, .template s, h => exact h

/-- Two types are written the same exactly when they are alike. -/
theorem Canonical.render_eq_iff (hc : t.Canonical) {a b : Ty} (ha : t.Writable a)
    (hb : t.Writable b) : t.render a = t.render b ↔ a.Alike (fun x y => x.text = y.text) b := by
  constructor
  · intro h
    have h := congrArg String.toList h
    rw [toList_render, toList_render] at h
    obtain ⟨c, cs, hcs, hc1, -⟩ := (hc.start_kind ha).1
    obtain ⟨d, ds, hds, hd1, -⟩ := (hc.start_kind hb).1
    have hnull : a.nullable = b.nullable := by
      rw [hcs, hds] at h
      revert h
      cases a.nullable <;> cases b.nullable <;> simp [hc1, Ne.symm hd1]
    rw [hnull, List.append_cancel_left_eq] at h
    exact ⟨hnull, hc.alike_of_renderKind_eq ha hb (String.toList_inj.1 h)⟩
  · rintro ⟨hnull, hkind⟩
    rw [render, render, hnull, hc.renderKind_eq_of_alike hkind]

/-- Two types are looked for under the same text exactly when they are alike up to the letter case
of class names. -/
theorem Canonical.identity_eq_iff (hc : t.Canonical) {a b : Ty} (ha : t.Writable a)
    (hb : t.Writable b) : t.identity a = t.identity b ↔
      a.Alike (fun x y => x.foldedText = y.foldedText) b := by
  rw [identity_eq_render_fold, identity_eq_render_fold, hc.render_eq_iff ha.fold hb.fold]
  obtain ⟨a, m⟩ := a
  obtain ⟨b, n⟩ := b
  cases a <;> cases b <;>
    simp [Ty.Alike, Ty.fold, TypeKind.Alike, TypeKind.fold, QualifiedName.text_fold]

end TypeTable

end UnionInference
