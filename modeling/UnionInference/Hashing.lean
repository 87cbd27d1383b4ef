import UnionInference.Name

/-!
What the name of a class or a function feeds to a hash function. Such names are the same up to letter
case, so their texts are fed in small letters, byte by byte, and each text ends with a byte that no
text holds.
-/

namespace UnionInference

namespace Text

/-- The byte of a small letter for that of an ASCII capital, any other byte as it is. -/
def lowerByte (b : UInt8) : UInt8 := if 65 ≤ b ∧ b ≤ 90 then b + 32 else b

/-- The bytes that a text of any letter case feeds. -/
def hashedBytes (s : String) : List UInt8 := s.toByteArray.data.toList.map lowerByte ++ [0xff]

end Text

/-- The bytes that the name of a class or a function feeds. -/
def QualifiedName.hashedBytes (q : QualifiedName) : List UInt8 :=
  Text.hashedBytes q.space ++ Text.hashedBytes q.name

end UnionInference
