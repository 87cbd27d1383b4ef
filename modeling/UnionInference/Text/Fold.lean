/-!
Letter case of names. Class, method, function and namespace names are compared without regard to
ASCII case; every other character counts as it is. Two texts are the same name exactly when they
fold to the same text, so a folded text serves as the key of a table.
-/

namespace UnionInference.Text

/-- The text with every ASCII capital replaced by its small letter. -/
def fold (s : String) : String := String.ofList (s.toList.map Char.toLower)

/-- Equality up to ASCII case. -/
def sameFolded (a b : String) : Bool := fold a == fold b

/-- Whether the text starts with the characters of `start`. -/
def startsWith (s start : String) : Bool := start.toList.isPrefixOf s.toList

/-- The text after `start`, if it starts with it. -/
def dropStart? (s start : String) : Option String :=
  if startsWith s start then some (String.ofList (s.toList.drop start.length)) else none

/-- Whether `c` occurs in the text. -/
def hasChar (s : String) (c : Char) : Bool := s.toList.contains c

/-- The parts joined with `sep` between them. -/
def join (sep : String) (parts : List String) : String := sep.intercalate parts

theorem sameFolded_iff {a b : String} : sameFolded a b = true ↔ fold a = fold b := by
  simp [sameFolded]

end UnionInference.Text
