import UnionInference.Text.Decimal

/-!
Floating-point numbers of 64 bits, as far as they matter to types: which ones are zero, which are
finite, and the integer that remains when the fraction is dropped. A number is given by its bits: a
sign, eleven bits of exponent and fifty-two bits of fraction.
-/

namespace UnionInference.Binary64

/-- The bits without the sign. -/
def magnitude (bits : UInt64) : Nat := bits.toNat % (1 <<< 63)

/-- Whether the number is negative, or minus zero. -/
def isNegative (bits : UInt64) : Bool := decide (1 <<< 63 ≤ bits.toNat)

/-- The eleven bits of the exponent. -/
def exponent (bits : UInt64) : Nat := magnitude bits >>> 52

/-- The fifty-two bits of the fraction. -/
def fraction (bits : UInt64) : Nat := magnitude bits % (1 <<< 52)

/-- Whether the number is zero of either sign. -/
def isZero (bits : UInt64) : Bool := magnitude bits == 0

/-- Whether the number is neither infinite nor undefined. -/
def isFinite (bits : UInt64) : Bool := exponent bits != 2047

/-- The whole part of the magnitude of a finite number. -/
def wholePart (bits : UInt64) : Nat :=
  let e := exponent bits
  let significand := (1 <<< 52) + fraction bits
  if e < 1023 then 0
  else if e < 1075 then significand >>> (1075 - e)
  else significand <<< (e - 1075)

/-- The integer value that remains of a finite number without its fraction, or the nearest one. -/
def truncate (bits : UInt64) : Int :=
  let whole : Int := wholePart bits
  Text.clampInteger (if isNegative bits then -whole else whole)

/-! ### Bits as text -/

/-- The digits of base sixteen. -/
def hexDigits : List Char := "0123456789abcdef".toList

/-- The bits as sixteen digits of base sixteen. -/
def hex (bits : UInt64) : String :=
  let ds := Nat.toDigits 16 bits.toNat
  String.ofList (List.replicate (16 - ds.length) '0' ++ ds)

/-- The bits that digits of base sixteen write. -/
def ofHex (s : String) : UInt64 :=
  (s.toList.foldl (fun n c => 16 * n + hexDigits.idxOf c.toLower) 0).toUInt64

end UnionInference.Binary64
