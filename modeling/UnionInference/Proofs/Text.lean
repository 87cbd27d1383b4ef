import UnionInference.Types.Parse

/-!
Texts as rows of characters. What is written here can be read back: a numeral gives its value again,
and a text in quotes gives the text again, whatever follows the closing quote. Folding a text twice
is folding it once, and it touches neither the separators nor what is no letter.
-/

namespace UnionInference

namespace Text

theorem toList_join (sep : String) (parts : List String) :
    (join sep parts).toList = sep.toList.intercalate (parts.map String.toList) := by
  rw [join, String.toList_intercalate]

theorem toList_fold (s : String) : (fold s).toList = s.toList.map Char.toLower := by
  rw [fold, String.toList_ofList]

theorem toLower_toLower (c : Char) : c.toLower.toLower = c.toLower := by
  unfold Char.toLower
  split
  · next h =>
    rw [dif_neg]
    intro h'
    simp [UInt32.le_iff_toNat_le, UInt32.toNat_add] at h h'
    omega
  · rfl

theorem fold_fold (s : String) : fold (fold s) = fold s := by
  apply String.toList_inj.1
  rw [toList_fold, toList_fold, List.map_map]
  exact List.map_congr_left fun c _ => toLower_toLower c

theorem fold_append (a b : String) : fold (a ++ b) = fold a ++ fold b := by
  apply String.toList_inj.1
  simp only [toList_fold, String.toList_append, List.map_append]

/-! ### Numerals -/

theorem digitsValue?_toDigits (n : Nat) : digitsValue? (Nat.toDigits 10 n) = some n := by
  have hne : (Nat.toDigits 10 n).isEmpty = false := by simp [Nat.toDigits_ne_nil]
  have hall : (Nat.toDigits 10 n).all Char.isDigit = true := by
    rw [List.all_eq_true]
    intro c hc
    exact Nat.isDigit_of_mem_toDigits (by decide) (by decide) hc
  rw [digitsValue?, hne, hall]
  exact congrArg some (Nat.ofDigitChars_ten_toDigits (n := n))

/-- A sign is no digit, so a row of digits is read without one. -/
theorem signedValue?_toDigits (n : Nat) : signedValue? (Nat.toDigits 10 n) = some (Int.ofNat n) := by
  have hdigit : ∀ c ∈ Nat.toDigits 10 n, c.isDigit = true := fun c hc =>
    Nat.isDigit_of_mem_toDigits (by decide) (by decide) hc
  rw [signedValue?.eq_def]
  split
  · next h => exact absurd (hdigit '-' (by rw [h]; simp)) (by decide)
  · next h => exact absurd (hdigit '+' (by rw [h]; simp)) (by decide)
  · rw [digitsValue?_toDigits]; rfl

theorem signedValue?_decimal (n : Int) : signedValue? (decimal n).toList = some n := by
  cases n with
  | ofNat m => rw [decimal, String.toList_ofList]; exact signedValue?_toDigits m
  | negSucc m =>
    rw [decimal, String.toList_append, show ("-" : String).toList = ['-'] by rfl,
      String.toList_ofList, List.singleton_append]
    rw [signedValue?, digitsValue?_toDigits]; rfl

/-- The decimal form of an integer value is read as that value. -/
theorem integer?_decimal {n : Int} (h : isInteger n = true) :
    integer? (decimal n).toList = some n := by
  rw [integer?, signedValue?_decimal, Option.filter_some, if_pos h]

theorem decimal_injective {m n : Int} (h : decimal m = decimal n) : m = n := by
  have hm := signedValue?_decimal m
  rw [h, signedValue?_decimal n] at hm
  exact (Option.some.inj hm).symm

/-- A decimal form is a row of digits, with at most a minus sign in front. -/
theorem isNumeralChar_of_mem_decimal {n : Int} {c : Char} (hc : c ∈ (decimal n).toList) :
    TypeParser.isNumeralChar c = true := by
  have hdigits : ∀ m : Nat, c ∈ Nat.toDigits 10 m → TypeParser.isNumeralChar c = true := by
    intro m hm
    simp [TypeParser.isNumeralChar, Nat.isDigit_of_mem_toDigits (by decide) (by decide) hm]
  cases n with
  | ofNat m => rw [decimal, String.toList_ofList] at hc; exact hdigits m hc
  | negSucc m =>
    simp only [decimal, String.toList_append, String.toList_ofList, List.mem_append] at hc
    rcases hc with hc | hc
    · have : c = '-' := by simpa using hc
      subst this; decide
    · exact hdigits (m + 1) hc

theorem isKeyChar_of_mem_decimal {n : Int} {c : Char} (hc : c ∈ (decimal n).toList) :
    TypeParser.isKeyChar c = true := by
  have hnumeral := isNumeralChar_of_mem_decimal hc
  simp only [TypeParser.isNumeralChar, Bool.or_eq_true] at hnumeral
  rcases hnumeral with h | h <;>
    simp [TypeParser.isKeyChar, ShapeKey.isWordChar, Char.isAlphanum, h]

theorem decimal_ne_nil (n : Int) : (decimal n).toList ≠ [] := by
  intro h
  have := signedValue?_decimal n
  rw [h] at this
  exact absurd this (by simp [signedValue?, digitsValue?])

end Text

/-! ### Quotes -/

theorem toList_quote (s : String) :
    (quote s).toList = '\'' :: (s.toList.flatMap quoteChar ++ ['\'']) := by
  simp [quote, String.toList_append]

namespace TypeParser

theorem quotedBody_quoteChar (c : Char) (cs : List Char) :
    quotedBody (quoteChar c ++ cs) = (quotedBody cs).map fun r => (c :: r.1, r.2) := by
  rw [quoteChar]
  split
  · next h => rw [List.cons_append, List.singleton_append, quotedBody]; simp only [if_pos h]
  · next h =>
    rw [not_or] at h
    rw [List.singleton_append, quotedBody.eq_def]
    split <;> simp_all

/-- The text between the quotes is read back, and reading stops after the closing quote. -/
theorem quotedBody_quote (cs rest : List Char) :
    quotedBody (cs.flatMap quoteChar ++ '\'' :: rest) = some (cs, rest) := by
  induction cs with
  | nil => rfl
  | cons c cs ih =>
    rw [List.flatMap_cons, List.append_assoc, quotedBody_quoteChar, ih]
    rfl

end TypeParser

theorem quote_injective {a b : String} (h : quote a = quote b) : a = b := by
  have h := congrArg String.toList h
  rw [toList_quote, toList_quote] at h
  have hb := TypeParser.quotedBody_quote b.toList []
  rw [← List.tail_eq_of_cons_eq h, TypeParser.quotedBody_quote a.toList []] at hb
  have hl : a.toList = b.toList := congrArg Prod.fst (Option.some.inj hb)
  exact String.toList_inj.1 hl

end UnionInference
