import UnionInference.Proofs.Types.Interning

/-!
How readers run. A reader that goes from one text to another either comes to the end of what it
reads, with a larger table, or it stops because brackets nest too deeply; which of the two happens
is said by a condition that is put together as readers are put together. No other error occurs in
what these lemmas describe.
-/

namespace UnionInference

/-- The key is written so that it denotes itself: integers have 64 bits, and a string is not the
decimal form of one. -/
def ShapeKey.WellFormed : ShapeKey → Prop
  | .int n => Text.isInteger n = true
  | .str s => ShapeKey.ofText s = .str s

theorem ShapeFields.insert_of_not_mem {fs : ShapeFields} {key : ShapeKey} {field : ShapeField}
    (h : key ∉ fs.map Prod.fst) : insert fs key field = fs ++ [(key, field)] := by
  induction fs with
  | nil => rfl
  | cons f fs ih =>
    rw [List.map_cons, List.mem_cons, not_or] at h
    rw [insert, if_neg (Ne.symm h.1), ih h.2, List.cons_append]

theorem ShapeFields.mem_insert {fields : ShapeFields} {key : ShapeKey} {field : ShapeField}
    {f : ShapeKey × ShapeField} (h : f ∈ insert fields key field) :
    f ∈ fields ∨ f = (key, field) := by
  induction fields with
  | nil => exact .inr (List.mem_singleton.1 h)
  | cons g fields ih =>
    rw [insert] at h
    split at h
    · rcases List.mem_cons.1 h with rfl | h
      · exact .inr rfl
      · exact .inl (List.mem_cons_of_mem _ h)
    · rcases List.mem_cons.1 h with rfl | h
      · exact .inl List.mem_cons_self
      · exact (ih h).imp_left (List.mem_cons_of_mem _)

/-- Each key stays once. -/
theorem ShapeFields.nodup_insert {fields : ShapeFields} (h : (fields.map Prod.fst).Nodup)
    (key : ShapeKey) (field : ShapeField) : ((insert fields key field).map Prod.fst).Nodup := by
  induction fields with
  | nil => simp [insert]
  | cons g fields ih =>
    rw [List.map_cons, List.nodup_cons] at h
    rw [insert]
    split
    · next heq => exact List.nodup_cons.2 ⟨heq ▸ h.1, h.2⟩
    · next hne =>
      refine List.nodup_cons.2 ⟨fun hmem => ?_, ih h.2⟩
      obtain ⟨f, hf, hfst⟩ := List.mem_map.1 hmem
      rcases mem_insert hf with hf | rfl
      · exact h.1 (List.mem_map.2 ⟨f, hf, hfst⟩)
      · exact hne hfst.symm

namespace TypeParser

open TypeText

variable {α β : Type} {src : Source} {t t' : TypeTable} {cs mid rest : List Char}

/-! ### Single steps -/

/-- From the text and the table the reader gives the value and leaves the second text and table. -/
def Gives (p : ParseM α) (cs : List Char) (t : TypeTable) (a : α) (rest : List Char)
    (t' : TypeTable) : Prop := p cs t = .ok (.ok (a, rest), t')

/-- The reader stops because brackets nest too deeply. -/
def StopsTooDeep (src : Source) (p : ParseM α) (cs : List Char) (t : TypeTable) : Prop :=
  ∃ t', p cs t = .ok (.error (.tooDeep src.input maxDepth), t')

theorem bind_of_gives {p : ParseM α} {f : α → ParseM β} {a : α} (h : Gives p cs t a rest t') :
    (p >>= f) cs t = f a rest t' := by
  show Except.bind (p cs t) _ = _
  rw [h]
  rfl

/-- An error ends the reading. -/
theorem bind_of_error {p : ParseM α} {f : α → ParseM β} {e : TypeParseError}
    (h : p cs t = .ok (.error e, t')) : (p >>= f) cs t = .ok (.error e, t') := by
  show Except.bind (p cs t) _ = _
  rw [h]
  rfl

theorem StopsTooDeep.bind {p : ParseM α} {f : α → ParseM β} (h : StopsTooDeep src p cs t) :
    StopsTooDeep src (p >>= f) cs t := by
  obtain ⟨t', h⟩ := h
  exact ⟨t', bind_of_error h⟩

theorem gives_pure (a : α) : Gives (pure a) cs t a cs t := rfl

theorem gives_get : Gives get cs t cs cs t := rfl

theorem gives_set (ds : List Char) : Gives (set ds) cs t ⟨⟩ ds t := rfl

theorem gives_peek? : Gives peek? cs t cs.head? cs t := rfl

theorem gives_advance (c : Char) : Gives advance (c :: cs) t ⟨⟩ cs t := rfl

theorem gives_types {work : TypeM α} {a : α} (h : work t = .ok (a, t')) :
    Gives (types work) cs t a cs t' := by
  show Except.bind (Except.bind (work t) _) _ = _
  rw [h]
  rfl

theorem stopsTooDeep_tooDeep : StopsTooDeep src (tooDeep (α := α) src) cs t := ⟨t, rfl⟩

/-- The text starts with no blank. -/
def Dense (cs : List Char) : Prop := ∀ c ∈ cs.head?, isSpace c = false

theorem Dense.dropWhile (h : Dense cs) : cs.dropWhile isSpace = cs := by
  cases cs with
  | nil => rfl
  | cons c cs => rw [List.dropWhile_cons_of_neg (by simp [h c (by simp)])]

theorem gives_skipSpace (h : Dense cs) : Gives skipSpace cs t ⟨⟩ cs t := by
  have hskip : Gives skipSpace cs t ⟨⟩ (cs.dropWhile isSpace) t := rfl
  rwa [h.dropWhile] at hskip

/-- A run of characters ends where the next one fails the test. -/
theorem gives_takeWhile {p : Char → Bool} (h : ∀ c ∈ cs, p c = true)
    (hr : ∀ c ∈ rest.head?, p c = false) : Gives (takeWhile p) (cs ++ rest) t cs rest t := by
  have htake : Gives (takeWhile p) (cs ++ rest) t ((cs ++ rest).takeWhile p)
      ((cs ++ rest).dropWhile p) t := rfl
  have hstop : rest.takeWhile p = [] ∧ rest.dropWhile p = rest := by
    cases rest with
    | nil => exact ⟨rfl, rfl⟩
    | cons c rest => simp [hr c (by simp)]
  rwa [List.takeWhile_append_of_pos h, List.dropWhile_append_of_pos h, hstop.1, hstop.2,
    List.append_nil] at htake

/-! ### Tokens -/

theorem gives_eat_true {c : Char} {token : List Char} (hc : isSpace c = false) :
    Gives (eat (c :: token)) (c :: (token ++ rest)) t true rest t := by
  have hp : (c :: token).isPrefixOf (c :: (token ++ rest)) = true := by simp
  have hdrop : (c :: (token ++ rest)).drop (c :: token).length = rest := by simp
  rw [Gives, eat, bind_of_gives (gives_skipSpace fun d hd => by simp_all), bind_of_gives gives_get,
    if_pos hp, hdrop, bind_of_gives (gives_set rest)]
  rfl

theorem gives_eat_false {c : Char} {token : List Char} (hcs : Dense cs)
    (hne : ∀ d ∈ cs.head?, d ≠ c) : Gives (eat (c :: token)) cs t false cs t := by
  have hp : ¬ (c :: token).isPrefixOf cs = true := by
    cases cs with
    | nil => simp
    | cons d cs => simp [Ne.symm (hne d (by simp))]
  rw [Gives, eat, bind_of_gives (gives_skipSpace hcs), bind_of_gives gives_get, if_neg hp]
  rfl

theorem gives_eat_char {c : Char} (hc : isSpace c = false) :
    Gives (eat [c]) (c :: rest) t true rest t := gives_eat_true hc

theorem gives_expect {c : Char} (hc : isSpace c = false) :
    Gives (expect src c) (c :: rest) t ⟨⟩ rest t := by
  rw [Gives, expect, bind_of_gives (gives_eat_char hc)]
  rfl

/-- A mark that is there or not. -/
theorem gives_eat_mark {b : Bool} {c : Char} {token : List Char} (hc : isSpace c = false)
    (hrest : Dense rest) (hne : ∀ d ∈ rest.head?, d ≠ c) :
    Gives (eat (c :: token)) ((if b then c :: token else []) ++ rest) t b rest t := by
  cases b with
  | false => exact gives_eat_false hrest hne
  | true => exact gives_eat_true hc

/-! ### Readers that reach an end or stop at too many brackets -/

/-- If the condition holds, the reader comes to the second text with a value of the given sort;
otherwise it stops because brackets nest too deeply. -/
structure Reads (src : Source) (fits : Prop) (p : ParseM α) (cs rest : List Char) (t : TypeTable)
    (Q : α → TypeTable → Prop) : Prop where
  gives : fits → ∃ a t', Gives p cs t a rest t' ∧ t.Grows TypeKind.WellNamed t' ∧ Q a t'
  stops : ¬ fits → StopsTooDeep src p cs t

section

variable {fits fits' : Prop} {p : ParseM α} {f : α → ParseM β} {Q Q' : α → TypeTable → Prop}
  {R : β → TypeTable → Prop}

theorem Reads.of_gives {a : α} (h : Gives p cs t a rest t') (hg : t.Grows TypeKind.WellNamed t')
    (hQ : Q a t') : Reads src True p cs rest t Q :=
  ⟨fun _ => ⟨a, t', h, hg, hQ⟩, fun hn => absurd trivial hn⟩

theorem Reads.bind (hp : Reads src fits p cs mid t Q)
    (hf : ∀ a t', t.Grows TypeKind.WellNamed t' → Q a t' → Reads src fits' (f a) mid rest t' R) :
    Reads src (fits ∧ fits') (p >>= f) cs rest t R := by
  constructor
  · rintro ⟨hfits, hfits'⟩
    obtain ⟨a, t₁, hgives, hg₁, hQ⟩ := hp.gives hfits
    obtain ⟨b, t₂, hgives₂, hg₂, hR⟩ := (hf a t₁ hg₁ hQ).gives hfits'
    exact ⟨b, t₂, by rwa [Gives, bind_of_gives hgives], hg₁.trans hg₂, hR⟩
  · intro hn
    by_cases hfits : fits
    · obtain ⟨a, t₁, hgives, hg₁, hQ⟩ := hp.gives hfits
      obtain ⟨t₂, hstop⟩ := (hf a t₁ hg₁ hQ).stops fun h => hn ⟨hfits, h⟩
      exact ⟨t₂, by rwa [bind_of_gives hgives]⟩
    · exact (hp.stops hfits).bind

/-- A first step that does not touch the table. -/
theorem Reads.after {a : α} (hp : Gives p cs t a mid t) (hf : Reads src fits (f a) mid rest t R) :
    Reads src fits (p >>= f) cs rest t R := by
  constructor
  · intro h
    obtain ⟨b, t', hgives, hg, hR⟩ := hf.gives h
    exact ⟨b, t', by rwa [Gives, bind_of_gives hp], hg, hR⟩
  · intro h
    obtain ⟨t', hstop⟩ := hf.stops h
    exact ⟨t', by rwa [bind_of_gives hp]⟩

theorem Reads.imp (h : Reads src fits p cs rest t Q)
    (hQ : ∀ a t', t.Grows TypeKind.WellNamed t' → Q a t' → Q' a t') :
    Reads src fits p cs rest t Q' := by
  refine ⟨fun hfits => ?_, h.stops⟩
  obtain ⟨a, t', hgives, hg, ha⟩ := h.gives hfits
  exact ⟨a, t', hgives, hg, hQ a t' hg ha⟩

/-- Only what the reader does with the text and the table counts. -/
theorem Reads.of_run_eq {q : ParseM α} {ds : List Char} (heq : p cs t = q ds t)
    (h : Reads src fits q ds rest t Q) : Reads src fits p cs rest t Q := by
  constructor
  · intro hfits
    obtain ⟨a, t', hgives, hg, hQ⟩ := h.gives hfits
    exact ⟨a, t', heq.trans hgives, hg, hQ⟩
  · intro hfits
    obtain ⟨t', hstop⟩ := h.stops hfits
    exact ⟨t', heq.trans hstop⟩

theorem Reads.of_iff (h : Reads src fits p cs rest t Q) (hiff : fits ↔ fits') :
    Reads src fits' p cs rest t Q := propext hiff ▸ h

theorem Reads.of_true (h : Reads src True p cs rest t Q) (hfits : fits) :
    Reads src fits p cs rest t Q := h.of_iff (iff_of_true trivial hfits)

/-- A reader followed by a last step that cannot fail. -/
theorem Reads.map {g : α → β} (h : Reads src fits p cs rest t Q) (hQ : ∀ a t', Q a t' → R (g a) t') :
    Reads src fits (p >>= fun a => pure (g a)) cs rest t R := by
  constructor
  · intro hfits
    obtain ⟨a, t', hgives, hg, ha⟩ := h.gives hfits
    exact ⟨g a, t', by rw [Gives, bind_of_gives hgives]; rfl, hg, hQ a t' ha⟩
  · exact fun hfits => (h.stops hfits).bind

end

/-! ### What may follow a type -/

/-- The text is empty or starts with a character that can follow a written type. -/
def Ends (rest : List Char) : Prop := ∀ c ∈ rest.head?, isDivider c = true

theorem ends_nil : Ends [] := by simp [Ends]

theorem ends_cons {c : Char} (h : isDivider c = true) : Ends (c :: rest) := by
  simpa [Ends] using h

/-- What follows a type starts with none of the other characters. -/
theorem Ends.ne (h : Ends rest) {c : Char} (hc : isDivider c = false) : ∀ d ∈ rest.head?, d ≠ c := by
  rintro d hd rfl
  rw [h d hd] at hc
  cases hc

theorem Ends.class_false (h : Ends rest) {p : Char → Bool} (hp : special.any p = false) :
    ∀ c ∈ rest.head?, p c = false := by
  intro c hc
  rw [← Bool.not_eq_true]
  intro hpc
  have hdiv := (flat_of_class hp hpc).2
  rw [h c hc] at hdiv
  cases hdiv

theorem Ends.dense (h : Ends rest) : Dense rest := h.class_false (by decide)

/-- The text can follow a written union: it can follow a type and does not go on with a bar. -/
structure Closes (rest : List Char) : Prop where
  ends : Ends rest
  no_bar : ∀ d ∈ rest.head?, d ≠ '|'

theorem closes_nil : Closes [] := ⟨ends_nil, by simp⟩

theorem closes_cons {c : Char} (h : isDivider c = true) (hbar : c ≠ '|') : Closes (c :: rest) :=
  ⟨ends_cons h, by simpa using hbar⟩

/-- Whatever follows it, the text is read from every table that has grown from the first. -/
def ReadsText (src : Source) (t₀ : TypeTable) (follow : List Char → Prop) (fits : Prop)
    (p : ParseM α) (text : List Char) (Q : α → Prop) : Prop :=
  ∀ t rest, t₀.Grows TypeKind.WellNamed t → follow rest →
    Reads src fits p (text ++ rest) rest t fun a _ => Q a

/-! ### Rows -/

theorem intercalate_eq_flatMap (sep : Char) (w : List Char) (ws : List (List Char)) :
    [sep].intercalate (w :: ws) = w ++ ws.flatMap fun v => sep :: v := by
  induction ws generalizing w with
  | nil => simp [List.intercalate]
  | cons v ws ih => rw [intercalate_cons, if_neg (by simp), ih, List.flatMap_cons, List.cons_append]

theorem length_le_flatMap {γ : Type} (c : Char) (w : γ → List Char) (as : List γ) :
    as.length ≤ (as.flatMap fun a => c :: w a).length := by
  induction as with
  | nil => simp
  | cons a as ih => simp only [List.flatMap_cons, List.length_append, List.length_cons]; omega

theorem ends_flatMap {γ : Type} {c : Char} (hc : isDivider c = true) (w : γ → List Char)
    (as : List γ) (h : Ends rest) : Ends ((as.flatMap fun a => c :: w a) ++ rest) := by
  cases as with
  | nil => exact h
  | cons a as => exact ends_cons hc

section

variable {t₀ : TypeTable} {fits : TypeId → Prop} {member : ParseM UnionType}

/-- No further members are read where no bar follows. -/
theorem gives_moreMembers (hrest : Closes rest) (n : Nat) (u : UnionType) :
    Gives (moreMembers member n u) rest t u rest t := by
  cases n with
  | zero => rfl
  | succ n =>
    rw [Gives, moreMembers, bind_of_gives (gives_eat_false hrest.ends.dense hrest.no_bar)]
    rfl

/-- Members are read one after the other, up to something that is no bar. -/
theorem reads_moreMembers {ids : List TypeId}
    (hmember : ∀ i ∈ ids, ReadsText src t₀ Ends (fits i) member (t₀.key i).toList (· = .of i))
    (hrest : Closes rest) {n : Nat} (hn : ids.length ≤ n)
    (ht : t₀.Grows TypeKind.WellNamed t) (u : UnionType) :
    Reads src (∀ i ∈ ids, fits i) (moreMembers member n u)
      ((ids.flatMap fun i => '|' :: (t₀.key i).toList) ++ rest) rest t
      fun v _ => ∀ a, a ∈ v.members ↔ a ∈ u.members ∨ a ∈ ids := by
  induction ids generalizing n u t with
  | nil =>
    exact (Reads.of_gives (gives_moreMembers hrest n u) (.refl ht.canonical) (by simp)).of_iff
      (by simp)
  | cons i ids ih =>
    obtain ⟨n, rfl⟩ : ∃ m, n = m + 1 := ⟨n - 1, by simp at hn; omega⟩
    rw [moreMembers, List.flatMap_cons, List.cons_append, List.cons_append, List.append_assoc,
      List.forall_mem_cons]
    refine Reads.after (gives_eat_char (by decide)) (Reads.bind
      (hmember i (by simp) t _ ht (ends_flatMap (by decide) _ ids hrest.ends)) ?_)
    rintro a t' hg rfl
    refine (ih (fun j hj => hmember j (by simp [hj])) (by simpa using hn) (ht.trans hg) _).imp ?_
    intro v _ _ hv a
    rw [hv a, UnionType.mem_union, UnionType.mem_of, List.mem_cons, or_assoc]

/-- Members divided by bars are read as the union of them all. -/
theorem reads_alternatives {i : TypeId} {ids : List TypeId}
    (hmember : ∀ j ∈ i :: ids, ReadsText src t₀ Ends (fits j) member (t₀.key j).toList (· = .of j))
    (hrest : Closes rest) (ht : t₀.Grows TypeKind.WellNamed t) :
    Reads src (∀ j ∈ i :: ids, fits j) (alternatives member)
      (['|'].intercalate ((i :: ids).map fun j => (t₀.key j).toList) ++ rest) rest t
      fun v _ => ∀ a, a ∈ v.members ↔ a ∈ i :: ids := by
  rw [List.map_cons, intercalate_eq_flatMap, List.flatMap_map, List.append_assoc, alternatives,
    List.forall_mem_cons]
  refine Reads.bind (hmember i (by simp) t _ ht (ends_flatMap (by decide) _ ids hrest.ends)) ?_
  rintro a t' hg rfl
  refine Reads.after gives_get ?_
  refine (reads_moreMembers (fun j hj => hmember j (by simp [hj])) hrest ?_ (ht.trans hg) _).imp ?_
  · rw [List.length_append]
    exact (length_le_flatMap _ _ ids).trans (Nat.le_add_right _ _)
  · intro v _ _ hv a
    rw [hv a, UnionType.mem_of, List.mem_cons]

end

theorem closes_row {γ : Type} {w : γ → List Char} {as : List γ} :
    Closes ((as.flatMap fun a => ',' :: w a) ++ '>' :: rest) := by
  cases as with
  | nil => exact closes_cons (by decide) (by decide)
  | cons a as => exact closes_cons (by decide) (by decide)

section

variable {t₀ : TypeTable} {fits : UnionType → Prop} {union : ParseM UnionType}

/-- Unions are read one after the other, up to the closing bracket. -/
theorem reads_moreUnions {us : List UnionType}
    (hunion : ∀ u ∈ us, ReadsText src t₀ Closes (fits u) union (t₀.renderUnion u).toList
      (UnionType.SameMembers · u)) {n : Nat} (hn : us.length ≤ n)
    (ht : t₀.Grows TypeKind.WellNamed t) :
    Reads src (∀ u ∈ us, fits u) (moreUnions union n)
      ((us.flatMap fun u => ',' :: (t₀.renderUnion u).toList) ++ '>' :: rest) ('>' :: rest) t
      fun vs _ => List.Forall₂ UnionType.SameMembers vs us := by
  induction us generalizing n t with
  | nil =>
    have hgives : Gives (moreUnions union n) ('>' :: rest) t [] ('>' :: rest) t := by
      cases n with
      | zero => rfl
      | succ n =>
        rw [Gives, moreUnions, bind_of_gives (gives_eat_false (by simp [Dense, isSpace]) (by simp))]
        rfl
    exact (Reads.of_gives hgives (.refl ht.canonical) .nil).of_iff (by simp)
  | cons u us ih =>
    obtain ⟨n, rfl⟩ : ∃ m, n = m + 1 := ⟨n - 1, by simp at hn; omega⟩
    rw [moreUnions, List.flatMap_cons, List.cons_append, List.cons_append, List.append_assoc,
      List.forall_mem_cons]
    refine Reads.after (gives_eat_char (by decide)) (Reads.bind
      (hunion u (by simp) t _ ht closes_row) ?_)
    intro v t' hg hv
    refine (ih (fun w hw => hunion w (by simp [hw])) (by simpa using hn) (ht.trans hg)).map ?_
    exact fun vs _ hvs => .cons hv hvs

/-- Unions in angle brackets are read as a list of unions with the same members. -/
theorem reads_typeList {us : List UnionType} (hne : us ≠ [])
    (hunion : ∀ u ∈ us, ReadsText src t₀ Closes (fits u) union (t₀.renderUnion u).toList
      (UnionType.SameMembers · u)) (ht : t₀.Grows TypeKind.WellNamed t) :
    Reads src (∀ u ∈ us, fits u) (typeList src union)
      ([','].intercalate (t₀.argTexts us) ++ '>' :: rest) rest t
      fun vs _ => List.Forall₂ UnionType.SameMembers vs us := by
  cases us with
  | nil => exact absurd rfl hne
  | cons u us =>
    rw [TypeTable.argTexts, List.map_cons, intercalate_eq_flatMap, List.flatMap_map,
      List.append_assoc, typeList, List.forall_mem_cons]
    refine Reads.bind (hunion u (by simp) t _ ht closes_row) fun v t₁ hg₁ hv => ?_
    refine Reads.after gives_get (Reads.of_iff (Reads.bind (reads_moreUnions
      (fun w hw => hunion w (by simp [hw])) ?_ (ht.trans hg₁)) fun vs t₂ hg₂ hvs => ?_)
      (Iff.of_eq (and_true _)))
    · rw [List.length_append]
      exact (length_le_flatMap _ _ us).trans (Nat.le_add_right _ _)
    · exact Reads.after (gives_expect (by decide)) (Reads.of_gives (gives_pure _)
        (.refl hg₂.canonical) (.cons hv hvs))

/-! ### Fields -/

/-- The text in quotes is read, up to the closing one. -/
theorem gives_quotedText (s : String) :
    Gives (quotedText src) ((quote s).toList ++ rest) t s rest t := by
  have hbody : quotedBody ((quote s).toList ++ rest).tail = some (s.toList, rest) := by
    rw [toList_quote, List.cons_append, List.tail_cons, List.append_assoc]
    exact quotedBody_quote s.toList rest
  rw [Gives, quotedText, bind_of_gives gives_get, hbody]
  simp only
  rw [bind_of_gives (gives_set rest), String.ofList_toList]
  rfl

/-- A key without quotes is read up to the first character that cannot stand in it. -/
theorem gives_fieldKey_bare {ds : List Char} (hne : ds ≠ []) (hds : ∀ c ∈ ds, isKeyChar c = true)
    (hrest : ∀ c ∈ rest.head?, isKeyChar c = false) :
    Gives (fieldKey src) (ds ++ rest) t (.ofText (String.ofList ds)) rest t := by
  cases ds with
  | nil => exact absurd rfl hne
  | cons d ds =>
    have hd := hds d (by simp)
    have hspace : isSpace d = false := by
      rw [← Bool.not_eq_true]
      intro hs
      simp only [isSpace, Bool.or_eq_true, beq_iff_eq] at hs
      rcases hs with ((rfl | rfl) | rfl) | rfl <;> revert hd <;> decide
    have hquote : d ≠ '\'' := by rintro rfl; revert hd; decide
    rw [Gives, fieldKey, bind_of_gives (gives_skipSpace (by simpa [Dense] using hspace)),
      bind_of_gives gives_peek?]
    simp only [List.cons_append, List.head?_cons]
    rw [← List.cons_append, bind_of_gives (gives_takeWhile hds hrest)]
    rfl

/-- A key that denotes itself is read back. -/
theorem gives_fieldKey {key : ShapeKey} (hkey : key.WellFormed)
    (hrest : ∀ c ∈ rest.head?, isKeyChar c = false) :
    Gives (fieldKey src) (key.text.toList ++ rest) t key rest t := by
  cases key with
  | int n =>
    have hread : ShapeKey.ofText (Text.decimal n) = .int n := by
      rw [ShapeKey.ofText, Text.integer?_decimal hkey]
      simp
    have hbare : Gives (fieldKey src) ((Text.decimal n).toList ++ rest) t
        (.ofText (String.ofList (Text.decimal n).toList)) rest t :=
      gives_fieldKey_bare (Text.decimal_ne_nil n)
        (fun c hc => Text.isKeyChar_of_mem_decimal hc) hrest
    rwa [String.ofList_toList, hread] at hbare
  | str s =>
    rw [ShapeKey.text]
    split
    · next hs =>
      simp only [ShapeKey.isBare, Bool.and_eq_true, List.all_eq_true, Bool.not_eq_true',
        List.isEmpty_eq_false_iff] at hs
      have hbare : Gives (fieldKey src) (s.toList ++ rest) t
          (.ofText (String.ofList s.toList)) rest t :=
        gives_fieldKey_bare hs.1.1 (fun c hc => by simp [isKeyChar, hs.1.2 c hc]) hrest
      rwa [String.ofList_toList, hkey] at hbare
    · have hdense : Dense ((quote s).toList ++ rest) := by simp [Dense, toList_quote, isSpace]
      have hhead : ((quote s).toList ++ rest).head? = some '\'' := by simp [toList_quote]
      rw [Gives, fieldKey, bind_of_gives (gives_skipSpace hdense), bind_of_gives gives_peek?, hhead]
      simp only
      rw [bind_of_gives (gives_quotedText s), hkey]
      rfl

/-- Fields with distinct keys are read one after the other, up to the closing brace. -/
theorem reads_fields {fs : ShapeFields} (hne : fs ≠ [])
    (hunion : ∀ f ∈ fs, ReadsText src t₀ Closes (fits f.2.type) union
      (t₀.renderUnion f.2.type).toList (UnionType.SameMembers · f.2.type))
    (hkeys : ∀ f ∈ fs, f.1.WellFormed) {found : ShapeFields}
    (hnodup : ((found ++ fs).map Prod.fst).Nodup) {n : Nat} (hn : fs.length ≤ n)
    (ht : t₀.Grows TypeKind.WellNamed t) :
    Reads src (∀ f ∈ fs, fits f.2.type) (fields src union n found)
      ([','].intercalate (t₀.fieldTexts fs) ++ '\x7d' :: rest) rest t
      fun gs _ => ∃ hs, gs = found ++ hs ∧ List.Forall₂ ShapeField.Alike hs fs := by
  induction fs generalizing found n t with
  | nil => exact absurd rfl hne
  | cons f fs ih =>
    obtain ⟨n, rfl⟩ : ∃ m, n = m + 1 := ⟨n - 1, by simp at hn; omega⟩
    have hfresh : f.1 ∉ found.map Prod.fst := by
      rw [List.map_append, List.nodup_append] at hnodup
      exact fun hmem => hnodup.2.2 _ hmem _ (by simp) rfl
    have hkept : ((found ++ [(f.1, f.2)] ++ fs).map Prod.fst).Nodup := by simpa using hnodup
    have hafter : ∀ w : List Char, ∀ c ∈ ((if f.2.optional then ['?'] else []) ++ ':' :: w).head?,
        isKeyChar c = false := by
      intro w c hc
      cases hopt : f.2.optional <;> simp [hopt] at hc <;> subst hc <;> decide
    have hclose : Closes ((if fs.map (fun f => (t₀.renderField f.1 f.2).toList) = [] then []
        else ',' :: [','].intercalate (fs.map fun f => (t₀.renderField f.1 f.2).toList)) ++
          '\x7d' :: rest) := by
      split
      · exact closes_cons (by decide) (by decide)
      · exact closes_cons (by decide) (by decide)
    rw [TypeTable.fieldTexts, List.map_cons, intercalate_cons, TypeTable.toList_renderField, fields,
      List.forall_mem_cons]
    simp only [List.append_assoc, List.cons_append] at hclose ⊢
    refine Reads.after (gives_fieldKey (hkeys f (by simp)) (hafter _)) ?_
    refine Reads.after (gives_eat_mark (by decide) (by simp [Dense, isSpace]) (by simp)) ?_
    refine Reads.after (gives_expect (by decide)) ?_
    refine Reads.bind (hunion f (by simp) t _ ht hclose) fun v t₁ hg₁ hv => ?_
    rw [ShapeFields.insert_of_not_mem hfresh]
    by_cases hfs : fs = []
    · subst hfs
      refine Reads.after (gives_eat_char (by decide)) ?_
      refine (Reads.of_gives (gives_pure _) (.refl hg₁.canonical) ?_).of_iff (by simp)
      exact ⟨[(f.1, ⟨v, f.2.optional⟩)], rfl, .cons ⟨rfl, rfl, hv⟩ .nil⟩
    · rw [if_neg (by simpa using hfs)]
      refine Reads.after (gives_eat_false (by simp [Dense, isSpace]) (by simp)) ?_
      refine Reads.after (gives_expect (by decide)) ?_
      have hnodup' : ((found ++ [(f.1, ShapeField.mk v f.2.optional)] ++ fs).map Prod.fst).Nodup := by
        simpa using hkept
      have hmore := ih hfs (fun g hg => hunion g (by simp [hg]))
        (fun g hg => hkeys g (by simp [hg])) hnodup' (n := n) (by simpa using hn) (ht.trans hg₁)
      refine hmore.imp ?_
      rintro gs _ _ ⟨hs, rfl, hall⟩
      exact ⟨(f.1, ⟨v, f.2.optional⟩) :: hs, by simp, .cons ⟨rfl, rfl, hv⟩ hall⟩

/-! ### Parameters -/

/-- A parameter that is written without a name is read without one. -/
theorem gives_paramName (hrest : Dense rest) (hne : ∀ d ∈ rest.head?, d ≠ '$') :
    Gives paramName rest t ⟨⟩ rest t := by
  have hpure : Gives (pure ()) rest t ⟨⟩ rest t := rfl
  rw [Gives, paramName, bind_of_gives (gives_skipSpace hrest), bind_of_gives gives_peek?]
  refine (congrFun (congrFun ?_ rest) t).trans hpure
  split
  · next heq => exact absurd rfl (hne '$' heq)
  · rfl

theorem dense_of_cons {c : Char} (h : c ∉ TypeTable.nonStarts) : Dense (c :: rest) := by
  simp only [TypeTable.nonStarts, List.mem_cons, List.not_mem_nil, or_false, not_or] at h
  simp [Dense, isSpace, h]

/-- After its type a parameter may be marked, before the comma or the closing bracket. -/
theorem closes_marks (variadic optional : Bool) {d : Char} (hd : d = ',' ∨ d = ')')
    (tl : List Char) :
    Closes ((if variadic then ['.', '.', '.'] else []) ++
      ((if optional then ['='] else []) ++ d :: tl)) := by
  cases variadic <;> cases optional <;> rcases hd with rfl | rfl <;>
    exact closes_cons (by decide) (by decide)

theorem alike_of_orMixed {q : CallableParam} {v : UnionType} (hv : v.SameMembers q.type.orMixed) :
    CallableParam.Alike ⟨v, q.byRef, q.variadic, q.optional⟩ q := by
  refine ⟨?_, rfl, rfl, rfl⟩
  rw [UnionType.orMixed_of_not_isEmpty]
  · exact hv
  · rw [hv.isEmpty_eq, ← Bool.not_eq_true, UnionType.isEmpty_iff]
    exact UnionType.orMixed_members_ne_nil q.type

/-- Parameters are read one after the other, up to the closing bracket. -/
theorem reads_params (hc : t₀.Canonical) {ps : List CallableParam} (hne : ps ≠ [])
    (hin : ∀ p ∈ ps, ∀ i ∈ p.type.members, i < t₀.size)
    (hunion : ∀ p ∈ ps, ReadsText src t₀ Closes (fits p.type) union
      (t₀.renderUnion p.type.orMixed).toList (UnionType.SameMembers · p.type.orMixed))
    {n : Nat} (hn : ps.length ≤ n) (ht : t₀.Grows TypeKind.WellNamed t) :
    Reads src (∀ p ∈ ps, fits p.type) (params src union n)
      ([','].intercalate (t₀.paramTexts ps) ++ ')' :: rest) rest t
      fun qs _ => List.Forall₂ CallableParam.Alike qs ps := by
  induction ps generalizing n t with
  | nil => exact absurd rfl hne
  | cons p ps ih =>
    obtain ⟨n, rfl⟩ : ∃ m, n = m + 1 := ⟨n - 1, by simp at hn; omega⟩
    -- what follows a parameter is a comma or the closing bracket
    obtain ⟨d, tl, hd, htail⟩ : ∃ d tl, (d = ',' ∨ d = ')') ∧
        (if ps.map (fun p => (t₀.renderParam p).toList) = [] then []
          else ',' :: [','].intercalate (ps.map fun p => (t₀.renderParam p).toList)) ++
            ')' :: rest = d :: tl := by
      split
      · exact ⟨')', rest, .inr rfl, rfl⟩
      · exact ⟨',', _, .inl rfl, rfl⟩
    have hmarks := closes_marks p.variadic p.optional hd tl
    have hoptional : Closes ((if p.optional then ['='] else []) ++ d :: tl) :=
      closes_marks false p.optional hd tl
    have hnotVariadic : ∀ e ∈ ((if p.optional then ['='] else []) ++ d :: tl).head?, e ≠ '.' := by
      cases p.optional <;> rcases hd with rfl | rfl <;> simp
    have hend : Closes (d :: tl) := closes_marks false false hd tl
    have hrequired : d ≠ '=' := by
      rcases hd with rfl | rfl <;> decide
    obtain ⟨c, w, hw, hcw⟩ := hc.renderUnion_eq_cons (UnionType.orMixed_members_ne_nil p.type)
      (hc.orMixed_lt (hin p (by simp)))
    have hbyValue : c ≠ '&' := by rintro rfl; exact hcw (by decide)
    rw [TypeTable.paramTexts, List.map_cons, intercalate_cons, TypeTable.toList_renderParam hc,
      params, List.forall_mem_cons, List.append_assoc, htail]
    simp only [List.append_assoc]
    refine Reads.after (gives_eat_mark (by decide) ?_ ?_) ?_
    · rw [hw]; exact dense_of_cons hcw
    · rw [hw]; simpa using hbyValue
    refine Reads.bind (hunion p (by simp) t _ ht hmarks) fun v t₁ hg₁ hv => ?_
    refine Reads.after (gives_eat_mark (by decide) hoptional.ends.dense hnotVariadic) ?_
    refine Reads.after (gives_paramName hoptional.ends.dense (hoptional.ends.ne (by decide))) ?_
    refine Reads.after (gives_eat_mark (by decide) hend.ends.dense (by simpa using hrequired)) ?_
    by_cases hps : ps = []
    · subst hps
      rw [List.map_nil, if_pos rfl] at htail
      cases htail
      refine Reads.after (gives_eat_char (by decide)) ?_
      exact (Reads.of_gives (gives_pure _) (.refl hg₁.canonical)
        (.cons (alike_of_orMixed hv) .nil)).of_iff (by simp)
    · rw [if_neg (by simpa using hps)] at htail
      cases htail
      refine Reads.after (gives_eat_false (by simp [Dense, isSpace]) (by simp)) ?_
      refine Reads.after (gives_expect (by decide)) ?_
      refine (ih hps (fun q hq => hin q (by simp [hq])) (fun q hq => hunion q (by simp [hq]))
        (by simpa using hn) (ht.trans hg₁)).map ?_
      exact fun qs _ hqs => .cons (alike_of_orMixed hv) hqs

end

end TypeParser

end UnionInference
