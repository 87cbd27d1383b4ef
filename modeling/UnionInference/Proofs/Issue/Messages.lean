import Mathlib.Data.List.Induction
import UnionInference.Issue.Basic
import UnionInference.Proofs.Text

/-!
Messages of issues. A template tells with numbered places where the arguments go. They are put in one
after the other, and that comes to the same as putting all of them in at once as long as no argument
makes a further place: then the text in which an argument is put in has its place exactly where the
template has it. The templates of all kinds of issues have braces around places only, so for them it
suffices that no argument has an opening brace.
-/

namespace UnionInference

namespace Issue

/-- The characters of the place for argument number `i`. -/
def place (i : Nat) : List Char := '\x7b' :: (Nat.toDigits 10 i ++ ['\x7d'])

/-- The text with all arguments put in at once, after passing over the first `skip` characters: each
place of an argument becomes the argument, which is not looked at again, and all else stays. -/
def substituteFrom (args : List String) : Nat → List Char → List Char
  | _, [] => []
  | skip + 1, _ :: rest => substituteFrom args skip rest
  | 0, c :: rest =>
    match (List.range args.length).find? fun i => (place i).isPrefixOf (c :: rest) with
    | some i => (args[i]?.getD "").toList ++ substituteFrom args ((place i).length - 1) rest
    | none => c :: substituteFrom args 0 rest

/-- The template with all arguments put in at once. -/
def substitute (args : List String) (template : String) : String :=
  String.ofList (substituteFrom args 0 template.toList)

/-- How often a text occurs in another one. -/
def occurrences (pattern : List Char) : List Char → Nat
  | [] => 0
  | c :: rest => (if pattern.isPrefixOf (c :: rest) then 1 else 0) + occurrences pattern rest

/-! ### Places -/

theorem toList_placeholder (i : Nat) : (placeholder i).toList = place i := by
  rw [placeholder, Text.decimalNat, String.toList_append, String.toList_append,
    String.toList_ofList]
  simp [place]

theorem place_append (i : Nat) (rest : List Char) :
    place i ++ rest = '\x7b' :: (Nat.toDigits 10 i ++ ['\x7d'] ++ rest) := rfl

theorem place_ne_nil (i : Nat) : place i ≠ [] := List.cons_ne_nil _ _

theorem closes_not_mem_toDigits (i : Nat) : '\x7d' ∉ Nat.toDigits 10 i := fun h =>
  absurd (Nat.isDigit_of_mem_toDigits (by decide) (by decide) h) (by decide)

theorem opens_not_mem_tail_place (i : Nat) : '\x7b' ∉ Nat.toDigits 10 i ++ ['\x7d'] := by
  rw [List.mem_append, List.mem_singleton, not_or]
  exact ⟨fun h => absurd (Nat.isDigit_of_mem_toDigits (by decide) (by decide) h) (by decide),
    by decide⟩

/-- A text begins with one place at most. -/
theorem place_unique {i j : Nat} {cs : List Char} (hi : place i <+: cs) (hj : place j <+: cs) :
    i = j := by
  have hdigits : ∀ (k : Nat) (rest : List Char),
      (Nat.toDigits 10 k ++ '\x7d' :: rest).takeWhile (· ≠ '\x7d') = Nat.toDigits 10 k := by
    intro k rest
    rw [List.takeWhile_append_of_pos, List.takeWhile_cons_of_neg (by simp), List.append_nil]
    rintro c hc
    simpa using fun h : c = '\x7d' => closes_not_mem_toDigits k (h ▸ hc)
  obtain ⟨r, rfl⟩ := hi
  obtain ⟨s, hs⟩ := hj
  have htail : Nat.toDigits 10 j ++ '\x7d' :: s = Nat.toDigits 10 i ++ '\x7d' :: r := by
    simpa [place] using hs
  have hsame : Nat.toDigits 10 j = Nat.toDigits 10 i := by
    rw [← hdigits j s, htail, hdigits]
  have hvalue := Text.digitsValue?_toDigits j
  rw [hsame, Text.digitsValue?_toDigits] at hvalue
  exact Option.some.inj hvalue

theorem place_isPrefixOf_iff {i : Nat} {cs : List Char} :
    (place i).isPrefixOf cs = true ↔ place i <+: cs := List.isPrefixOf_iff_prefix

/-- The place at the head of a text, among the first ones. -/
theorem find?_place {n i : Nat} (hi : i < n) (rest : List Char) :
    ((List.range n).find? fun j => (place j).isPrefixOf (place i ++ rest)) = some i := by
  cases hfound : (List.range n).find? fun j => (place j).isPrefixOf (place i ++ rest) with
  | none =>
    rw [List.find?_eq_none] at hfound
    exact absurd (place_isPrefixOf_iff.2 (List.prefix_append _ _))
      (hfound i (List.mem_range.2 hi))
  | some j =>
    have hj := List.find?_some hfound
    rw [place_isPrefixOf_iff] at hj
    rw [place_unique hj (List.prefix_append (place i) rest)]

/-- What does not begin with an opening brace has no place there. -/
theorem not_startsWith_place {i : Nat} {c : Char} (hc : c ≠ '\x7b') (rest : List Char) :
    ¬ place i <+: c :: rest := by
  intro h
  rw [place, List.cons_prefix_cons] at h
  exact hc h.1.symm

/-! ### Passing over characters -/

theorem replaceFrom_skip (pattern value : List Char) (n : Nat) (cs : List Char) :
    replaceFrom pattern value n cs = replaceFrom pattern value 0 (cs.drop n) := by
  induction n generalizing cs with
  | zero => rfl
  | succ n ih =>
    cases cs with
    | nil => simp [replaceFrom]
    | cons c rest => exact ih rest

theorem substituteFrom_skip (args : List String) (n : Nat) (cs : List Char) :
    substituteFrom args n cs = substituteFrom args 0 (cs.drop n) := by
  induction n generalizing cs with
  | zero => rfl
  | succ n ih =>
    cases cs with
    | nil => simp [substituteFrom]
    | cons c rest => exact ih rest

variable {args : List String} {value cs rest : List Char} {i k : Nat} {c : Char}

theorem drop_place (i : Nat) (rest : List Char) :
    (Nat.toDigits 10 i ++ ['\x7d'] ++ rest).drop ((place i).length - 1) = rest := by
  rw [place, List.length_cons, Nat.add_sub_cancel, List.drop_left]

/-- The occurrence at the head is replaced. -/
theorem replaceFrom_place (i : Nat) (value rest : List Char) :
    replaceFrom (place i) value 0 (place i ++ rest) =
      value ++ replaceFrom (place i) value 0 rest := by
  have hhead : (place i).isPrefixOf (place i ++ rest) = true :=
    place_isPrefixOf_iff.2 (List.prefix_append _ _)
  rw [place_append] at hhead ⊢
  rw [replaceFrom, if_pos hhead, replaceFrom_skip, drop_place]

/-- The place of an argument becomes the argument. -/
theorem substituteFrom_place (hi : i < args.length) (rest : List Char) :
    substituteFrom args 0 (place i ++ rest) = args[i].toList ++ substituteFrom args 0 rest := by
  have hfind := find?_place hi rest
  rw [place_append] at hfind ⊢
  rw [substituteFrom, hfind]
  dsimp only
  rw [substituteFrom_skip, drop_place, List.getElem?_eq_getElem hi, Option.getD_some]

/-- Where no argument has its place, the character stays. -/
theorem substituteFrom_cons (h : ∀ i < args.length, ¬ place i <+: c :: rest) :
    substituteFrom args 0 (c :: rest) = c :: substituteFrom args 0 rest := by
  have hfind : ((List.range args.length).find? fun i => (place i).isPrefixOf (c :: rest)) = none :=
    List.find?_eq_none.2 fun i hi => by
      rw [place_isPrefixOf_iff]
      exact h i (List.mem_range.1 hi)
  rw [substituteFrom, hfind]

theorem substituteFrom_append (hvalue : '\x7b' ∉ value) (rest : List Char) :
    substituteFrom args 0 (value ++ rest) = value ++ substituteFrom args 0 rest := by
  induction value with
  | nil => rfl
  | cons c value ih =>
    rw [List.mem_cons, not_or] at hvalue
    rw [List.cons_append, substituteFrom_cons fun i _ => not_startsWith_place (Ne.symm hvalue.1) _,
      ih hvalue.2, List.cons_append]

/-- The place of no argument stays. -/
theorem substituteFrom_other (hk : args.length ≤ k) (rest : List Char) :
    substituteFrom args 0 (place k ++ rest) = place k ++ substituteFrom args 0 rest := by
  have hother : ∀ i < args.length, ¬ place i <+: place k ++ rest := fun i hi h =>
    absurd (place_unique h (List.prefix_append _ _)) (by omega)
  rw [place_append] at hother ⊢
  rw [substituteFrom_cons hother, substituteFrom_append (opens_not_mem_tail_place k), place_append]

/-! ### Counting places -/

theorem occurrences_place_cons (h : ¬ place k <+: c :: rest) :
    occurrences (place k) (c :: rest) = occurrences (place k) rest := by
  rw [occurrences, if_neg (by rwa [place_isPrefixOf_iff]), Nat.zero_add]

theorem occurrences_append_of_not_mem (hvalue : '\x7b' ∉ value) (rest : List Char) :
    occurrences (place k) (value ++ rest) = occurrences (place k) rest := by
  induction value with
  | nil => rfl
  | cons c value ih =>
    rw [List.mem_cons, not_or] at hvalue
    rw [List.cons_append, occurrences_place_cons (not_startsWith_place (Ne.symm hvalue.1) _),
      ih hvalue.2]

/-- No place begins inside another one. -/
theorem occurrences_place_append (i : Nat) (rest : List Char) :
    occurrences (place k) (place i ++ rest) =
      (if i = k then 1 else 0) + occurrences (place k) rest := by
  have hhead : (place k).isPrefixOf (place i ++ rest) = decide (i = k) := by
    rw [Bool.eq_iff_iff, place_isPrefixOf_iff, decide_eq_true_iff]
    constructor
    · exact fun h => place_unique (List.prefix_append _ _) h
    · rintro rfl
      exact List.prefix_append _ _
  rw [place_append] at hhead ⊢
  rw [occurrences, hhead, occurrences_append_of_not_mem (opens_not_mem_tail_place i)]
  simp

theorem occurrences_le_append (value rest : List Char) :
    occurrences (place k) rest ≤ occurrences (place k) (value ++ rest) := by
  induction value with
  | nil => exact Nat.le_refl _
  | cons c value ih => exact Nat.le_trans ih (Nat.le_add_left _ _)

/-- A text in which no further place begins is passed over. -/
theorem replaceFrom_append
    (h : occurrences (place k) (value ++ rest) ≤ occurrences (place k) rest) (arg : List Char) :
    replaceFrom (place k) arg 0 (value ++ rest) = value ++ replaceFrom (place k) arg 0 rest := by
  induction value with
  | nil => rfl
  | cons c value ih =>
    have hle := occurrences_le_append (k := k) value rest
    rw [List.cons_append, occurrences] at h
    split at h
    · omega
    · next hhead =>
      rw [List.cons_append, replaceFrom, if_neg hhead, ih (by omega), List.cons_append]

/-! ### Putting in one more argument -/

/-- A text is empty, or it begins with one of the first places, or none of them begins it. -/
theorem place_cases (n : Nat) (cs : List Char) :
    cs = [] ∨ (∃ i ≤ n, ∃ rest, cs = place i ++ rest) ∨
      ∃ c rest, cs = c :: rest ∧ ∀ i ≤ n, ¬ place i <+: cs := by
  cases cs with
  | nil => exact .inl rfl
  | cons c rest =>
    by_cases h : ∃ i ≤ n, place i <+: c :: rest
    · obtain ⟨i, hi, rest', hrest⟩ := h
      exact .inr (.inl ⟨i, hi, rest', hrest.symm⟩)
    · exact .inr (.inr ⟨c, rest, rfl, fun i hi hp => h ⟨i, hi, hp⟩⟩)

theorem length_lt_place_append (i : Nat) (rest : List Char) :
    rest.length < (place i ++ rest).length := by
  rw [List.length_append]
  have := List.length_pos_iff.2 (place_ne_nil i)
  omega

/-- The places of the next argument are still there. -/
theorem occurrences_le_substituteFrom (args : List String) (cs : List Char) :
    occurrences (place args.length) cs ≤
      occurrences (place args.length) (substituteFrom args 0 cs) := by
  induction hlength : cs.length using Nat.strongRecOn generalizing cs with
  | _ n ih =>
    subst hlength
    rcases place_cases args.length cs with rfl | ⟨i, hi, rest, rfl⟩ | ⟨c, rest, rfl, hnone⟩
    · exact Nat.le_refl _
    · have hrest := ih _ (length_lt_place_append i rest) rest rfl
      rcases Nat.lt_or_eq_of_le hi with hi | rfl
      · rw [substituteFrom_place hi, occurrences_place_append, if_neg (by omega), Nat.zero_add]
        exact Nat.le_trans hrest (occurrences_le_append _ _)
      · rw [substituteFrom_other (Nat.le_refl _), occurrences_place_append,
          occurrences_place_append]
        exact Nat.add_le_add_left hrest _
    · rw [substituteFrom_cons fun i hi => hnone i (Nat.le_of_lt hi),
        occurrences_place_cons (hnone _ (Nat.le_refl _))]
      exact Nat.le_trans (ih _ (Nat.lt_succ_self _) rest rfl) (Nat.le_add_left _ _)

/-- If no argument makes a further place for the next one, replacing the place puts it in where the
template has it. -/
theorem replaceFrom_substituteFrom {args : List String} (arg : String) {cs : List Char}
    (h : occurrences (place args.length) (substituteFrom args 0 cs) ≤
      occurrences (place args.length) cs) :
    replaceFrom (place args.length) arg.toList 0 (substituteFrom args 0 cs) =
      substituteFrom (args ++ [arg]) 0 cs := by
  have hlength' : (args ++ [arg]).length = args.length + 1 := List.length_append
  induction hlength : cs.length using Nat.strongRecOn generalizing cs with
  | _ n ih =>
    subst hlength
    rcases place_cases args.length cs with rfl | ⟨i, hi, rest, rfl⟩ | ⟨c, rest, rfl, hnone⟩
    · rfl
    · have hlt := length_lt_place_append i rest
      rcases Nat.lt_or_eq_of_le hi with hi | rfl
      · -- an argument that is put in already
        rw [substituteFrom_place hi, occurrences_place_append, if_neg (by omega), Nat.zero_add] at h
        have hge := occurrences_le_substituteFrom args rest
        have hle := occurrences_le_append (k := args.length) args[i].toList
          (substituteFrom args 0 rest)
        rw [substituteFrom_place hi, replaceFrom_append (by omega), ih _ hlt (by omega) rfl,
          substituteFrom_place (by omega), List.getElem_append_left hi]
      · -- the next argument
        rw [substituteFrom_other (Nat.le_refl _), occurrences_place_append,
          occurrences_place_append] at h
        rw [substituteFrom_other (Nat.le_refl _), replaceFrom_place, ih _ hlt (by omega) rfl,
          substituteFrom_place (by omega), List.getElem_append_right (Nat.le_refl _)]
        simp
    · rw [substituteFrom_cons fun i hi => hnone i (Nat.le_of_lt hi)] at h ⊢
      rw [occurrences_place_cons (hnone _ (Nat.le_refl _))] at h
      have hge := occurrences_le_substituteFrom args rest
      have hstep := @replaceFrom_append [c] (substituteFrom args 0 rest) args.length
      rw [List.singleton_append] at hstep
      rw [hstep (by omega), substituteFrom_cons fun i hi => hnone i (by omega),
        ih _ (Nat.lt_succ_self _) _ rfl]
      · rfl
      · have := occurrences_le_append (k := args.length) [c] (substituteFrom args 0 rest)
        rw [List.singleton_append] at this
        omega

/-! ### All arguments -/

theorem formatFrom_append (i : Nat) (text : String) (args : List String) (arg : String) :
    formatFrom i text (args ++ [arg]) =
      replaceAll (formatFrom i text args) (placeholder (i + args.length)) arg := by
  induction args generalizing i text with
  | nil => rfl
  | cons a args ih =>
    rw [List.cons_append, formatFrom, ih, formatFrom, List.length_cons, Nat.add_assoc,
      Nat.add_comm 1]

/-- No argument makes a place for one after it: the text in which an argument is put in has as many
places for it as the template. -/
def Placed (template : String) (args : List String) : Prop :=
  ∀ k < args.length, occurrences (place k) (format template (args.take k)).toList =
    occurrences (place k) template.toList

theorem substituteFrom_nil (cs : List Char) : substituteFrom [] 0 cs = cs := by
  induction cs with
  | nil => rfl
  | cons c rest ih =>
    have hnone : ∀ i < ([] : List String).length, ¬ place i <+: c :: rest := fun i hi =>
      absurd hi (Nat.not_lt_zero i)
    rw [substituteFrom_cons hnone, ih]

theorem Placed.format_eq {template : String} (h : Placed template args) :
    format template args = substitute args template := by
  induction args using List.reverseRecOn with
  | nil => rw [substitute, substituteFrom_nil, String.ofList_toList, format, formatFrom]
  | append_singleton args arg ih =>
    have hbefore : Placed template args := by
      intro k hk
      have hlast := h k (by rw [List.length_append]; omega)
      rwa [List.take_append_of_le_length (Nat.le_of_lt hk)] at hlast
    have hnext := h args.length (by simp)
    rw [List.take_left, ih hbefore, substitute, String.toList_ofList] at hnext
    rw [format, formatFrom_append, ← format, ih hbefore, Nat.zero_add, replaceAll,
      toList_placeholder, substitute, String.toList_ofList,
      replaceFrom_substituteFrom arg (Nat.le_of_eq hnext), substitute]

/-! ### Templates with braces around places only -/

/-- Every opening brace begins a place. -/
def BracesPlaces (cs : List Char) : Prop :=
  ∀ rest, '\x7b' :: rest <:+ cs → ∃ i, place i <+: '\x7b' :: rest

theorem BracesPlaces.of_suffix (h : BracesPlaces cs) (hrest : rest <:+ cs) : BracesPlaces rest :=
  fun rest' hrest' => h rest' (hrest'.trans hrest)

/-- Arguments without an opening brace bring no place with them. -/
theorem BracesPlaces.occurrences_substituteFrom (h : BracesPlaces cs)
    (hargs : ∀ a ∈ args, '\x7b' ∉ a.toList) (hk : args.length ≤ k) :
    occurrences (place k) (substituteFrom args 0 cs) = occurrences (place k) cs := by
  induction hlength : cs.length using Nat.strongRecOn generalizing cs with
  | _ n ih =>
    subst hlength
    cases cs with
    | nil => rfl
    | cons c rest =>
      by_cases hc : c = '\x7b'
      · subst hc
        obtain ⟨i, rest', hplace⟩ := h rest (List.suffix_refl _)
        rw [← hplace] at h ih ⊢
        have hrest := ih _ (length_lt_place_append i rest') (h.of_suffix (List.suffix_append _ _)) rfl
        by_cases hi : i < args.length
        · rw [substituteFrom_place hi, occurrences_place_append, if_neg (by omega), Nat.zero_add,
            occurrences_append_of_not_mem (hargs _ (List.getElem_mem hi)), hrest]
        · rw [substituteFrom_other (by omega), occurrences_place_append, occurrences_place_append,
            hrest]
      · rw [substituteFrom_cons fun i _ => not_startsWith_place hc rest,
          occurrences_place_cons (not_startsWith_place hc _),
          occurrences_place_cons (not_startsWith_place hc _)]
        exact ih _ (Nat.lt_succ_self _) (h.of_suffix (List.suffix_cons c rest)) rfl

theorem BracesPlaces.placed {template : String} (h : BracesPlaces template.toList)
    (hargs : ∀ a ∈ args, '\x7b' ∉ a.toList) : Placed template args := by
  induction args using List.reverseRecOn with
  | nil => exact fun k hk => absurd hk (Nat.not_lt_zero k)
  | append_singleton args arg ih =>
    have hargs' : ∀ a ∈ args, '\x7b' ∉ a.toList := fun a ha => hargs a (List.mem_append_left _ ha)
    have hbefore := ih hargs'
    intro k hk
    rw [List.length_append, List.length_singleton] at hk
    rcases Nat.lt_succ_iff_lt_or_eq.1 hk with hk | rfl
    · rw [List.take_append_of_le_length (Nat.le_of_lt hk)]
      exact hbefore k hk
    · rw [List.take_left, hbefore.format_eq, substitute, String.toList_ofList]
      exact h.occurrences_substituteFrom hargs' (Nat.le_refl _)

/-- Whether the text begins with one of the first digits and a closing brace. -/
def beginsWithDigit : List Char → Bool
  | digit :: close :: _ => ['0', '1', '2', '3', '4'].contains digit && close == '\x7d'
  | _ => false

/-- Whether every opening brace is followed by one of the first digits and a closing brace. -/
def bracesDigits : List Char → Bool
  | [] => true
  | c :: rest =>
    (c != '\x7b' || beginsWithDigit rest) && bracesDigits rest

theorem place_of_digit {digit : Char} (h : ['0', '1', '2', '3', '4'].contains digit = true) :
    ∃ i, place i = ['\x7b', digit, '\x7d'] := by
  simp only [List.contains_eq_mem, List.mem_cons, List.not_mem_nil, or_false,
    decide_eq_true_eq] at h
  rcases h with rfl | rfl | rfl | rfl | rfl
  · exact ⟨0, by decide⟩
  · exact ⟨1, by decide⟩
  · exact ⟨2, by decide⟩
  · exact ⟨3, by decide⟩
  · exact ⟨4, by decide⟩

theorem bracesPlaces_of_bracesDigits (h : bracesDigits cs = true) : BracesPlaces cs := by
  induction cs with
  | nil => exact fun rest hrest => absurd (List.suffix_nil.1 hrest) (List.cons_ne_nil _ _)
  | cons c cs ih =>
    rw [bracesDigits, Bool.and_eq_true] at h
    intro rest hrest
    rcases List.suffix_cons_iff.1 hrest with heq | htail
    · obtain ⟨rfl, rfl⟩ := List.cons.inj heq
      have hplace := h.1
      rw [bne_self_eq_false, Bool.false_or] at hplace
      match rest, hplace with
      | digit :: close :: rest', hplace =>
        rw [beginsWithDigit, Bool.and_eq_true, beq_iff_eq] at hplace
        obtain ⟨hdigit, rfl⟩ := hplace
        obtain ⟨i, hi⟩ := place_of_digit hdigit
        exact ⟨i, hi ▸ ⟨rest', rfl⟩⟩
    · exact ih h.2 rest htail

theorem bracesPlaces_of_eq {template : String} (heq : template = String.ofList cs)
    (h : bracesDigits cs = true) : BracesPlaces template.toList := by
  rw [heq, String.toList_ofList]
  exact bracesPlaces_of_bracesDigits h

theorem bracesPlaces_of_append {template : String}
    (heq : template = String.ofList cs ++ String.ofList rest)
    (h : bracesDigits (cs ++ rest) = true) : BracesPlaces template.toList :=
  bracesPlaces_of_eq (heq.trans String.ofList_append.symm) h

/-- The templates have no other braces. Those of eight kinds are written in two parts. -/
theorem bracesPlaces_template (kind : IssueKind) : BracesPlaces kind.details.template.toList := by
  cases kind with
  | typeMismatchDimFetch | typeMismatchDimFetchNullable | typeMismatchUnpackValue
  | typeMismatchUnpackKey | typeInvalidThrowsNonThrowable | typeInvalidThrowsIsInterface
  | typeExpectedObjectPropAccess | commentObjectInClassConstantType =>
    exact bracesPlaces_of_append rfl (by decide)
  | _ => exact bracesPlaces_of_eq rfl (by decide)

/-- Where no argument makes a place for one after it, putting the arguments in one after the other is
putting all of them in at once: each place becomes its argument, and every other character stays. The
message of an issue is so made whenever none of its arguments has an opening brace. -/
theorem format_eq_substitute (template : String) (args : List String) :
    (Placed template args → format template args = substitute args template) ∧
    ∀ i : Issue, i.kind.details.template = template → i.args = args →
      (∀ a ∈ args, '\x7b' ∉ a.toList) →
      i.message = substitute args template ++
        (i.suggestion.map fun hint => " (" ++ hint ++ ")").getD "" := by
  refine ⟨fun h => h.format_eq, ?_⟩
  rintro i rfl rfl hargs
  have hformat := ((bracesPlaces_template i.kind).placed hargs).format_eq
  rw [message, hformat]
  cases i.suggestion with
  | none => exact String.append_empty.symm
  | some hint => simp [String.append_assoc]

/-- An issue with a hint. -/
def unknownProperty : Issue where
  file := "a.php"
  line := 3
  kind := .undeclaredProperty
  args := ["Box->size"]
  suggestion := some "length"

/-- An argument may have braces, as long as it makes no place for a later one. -/
theorem format_eq_substitute_braces :
    Placed "{1} {0}" ["{0}", "x"] ∧
      format "{1} {0}" ["{0}", "x"] = substitute ["{0}", "x"] "{1} {0}" ∧
      (∀ a ∈ unknownProperty.args, '\x7b' ∉ a.toList) ∧
      unknownProperty.message =
        substitute ["Box->size"] unknownProperty.kind.details.template ++ " (length)" := by
  have h : Placed "{1} {0}" ["{0}", "x"] := by
    unfold Placed
    decide
  have hargs : ∀ a ∈ unknownProperty.args, '\x7b' ∉ a.toList := by decide
  exact ⟨h, (format_eq_substitute _ _).1 h, hargs, (format_eq_substitute _ _).2 _ rfl rfl hargs⟩

/-- An argument that is the place of the next one is replaced by it, although put in at once it would
stay. -/
theorem format_ne_substitute :
    format "{0} {1}" ["{1}", "x"] = "x x" ∧ substitute ["{1}", "x"] "{0} {1}" = "{1} x" := by
  decide

end Issue

end UnionInference
