/-!
Whole numbers as text. Integer values of the analysed language have 64 bits with a sign; a numeral
outside that range is no integer.
-/

namespace UnionInference.Text

/-- The least integer value. -/
def minInteger : Int := -9223372036854775808

/-- The greatest integer value. -/
def maxInteger : Int := 9223372036854775807

/-- Whether `n` is an integer value of the analysed language. -/
def isInteger (n : Int) : Bool := decide (minInteger ≤ n ∧ n ≤ maxInteger)

/-- The integer value nearest to `n`. -/
def clampInteger (n : Int) : Int := max minInteger (min n maxInteger)

/-- The value of a non-empty row of decimal digits. -/
def digitsValue? (cs : List Char) : Option Nat :=
  if cs.isEmpty || !cs.all Char.isDigit then none
  else some (cs.foldl (fun n c => 10 * n + (c.toNat - '0'.toNat)) 0)

/-- The value of digits with an optional sign, whatever its size. -/
def signedValue? : List Char → Option Int
  | '-' :: cs => (digitsValue? cs).map fun n => -(n : Int)
  | '+' :: cs => (digitsValue? cs).map Int.ofNat
  | cs => (digitsValue? cs).map Int.ofNat

/-- Reads an integer value: an optional sign and digits, within the range. -/
def integer? (cs : List Char) : Option Int :=
  (signedValue? cs).filter isInteger

/-- An integer in decimal. -/
def decimal (n : Int) : String :=
  match n with
  | .ofNat m => String.ofList (Nat.toDigits 10 m)
  | .negSucc m => "-" ++ String.ofList (Nat.toDigits 10 (m + 1))

/-- A natural number in decimal. -/
def decimalNat (n : Nat) : String := String.ofList (Nat.toDigits 10 n)

end UnionInference.Text
