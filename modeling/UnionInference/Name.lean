import UnionInference.Text.Fold

/-!
Qualified names. A name stands in a namespace; namespaces are rooted at a backslash and divided by
backslashes. Classes, methods and functions are the same up to letter case, properties and constants
only when spelled alike; namespaces are always compared without regard to case.
-/

namespace UnionInference

/-- The list without the leading characters that satisfy `p`, nor the trailing ones. -/
def trimList (p : Char → Bool) (cs : List Char) : List Char :=
  ((cs.dropWhile p).reverse.dropWhile p).reverse

/-- Whether the character divides the segments of a name. -/
def isSeparator (c : Char) : Bool := c == '\\'

/-- A namespace with one backslash in front and none at the end. -/
def normalizeNamespace (space : String) : String :=
  String.ofList ('\\' :: trimList isSeparator space.toList)

/-- Splits a full name into its namespace and its last segment. A leading backslash may be left
out. -/
def splitFullName (full : String) : String × String :=
  let cs := full.toList.dropWhile isSeparator
  match cs.reverse.dropWhile (fun c => !isSeparator c) with
  | [] => ("\\", String.ofList cs)
  | _ :: space =>
    (normalizeNamespace (String.ofList space.reverse),
      String.ofList (cs.reverse.takeWhile fun c => !isSeparator c).reverse)

/-- A name in a namespace: of a class, a function or a global constant. -/
structure QualifiedName where
  /-- The namespace, with a backslash in front. -/
  space : String
  /-- The name within the namespace. -/
  name : String
  deriving DecidableEq, Hashable, Repr, Inhabited

namespace QualifiedName

/-- The name in a namespace that need not be normalized. -/
def make (space name : String) : QualifiedName := ⟨normalizeNamespace space, name⟩

/-- Reads a full name, with or without the leading backslash. -/
def ofFullName (full : String) : QualifiedName :=
  let parts := splitFullName full
  ⟨parts.1, parts.2⟩

/-- The full name. -/
def text (q : QualifiedName) : String :=
  if q.space == "\\" then "\\" ++ q.name else q.space ++ "\\" ++ q.name

/-- The full name in small letters. -/
def foldedText (q : QualifiedName) : String := Text.fold q.text

/-- The name up to case, in both parts. -/
def fold (q : QualifiedName) : QualifiedName := ⟨Text.fold q.space, Text.fold q.name⟩

/-- The name up to case of its namespace. -/
def foldSpace (q : QualifiedName) : QualifiedName := ⟨Text.fold q.space, q.name⟩

/-- The same name in the root namespace. -/
def inRoot (q : QualifiedName) : QualifiedName := make "\\" q.name

end QualifiedName

/-- The name of a class, interface or trait. -/
abbrev ClassName := QualifiedName

/-- The name of a function. -/
abbrev FunctionName := QualifiedName

/-- The name of a constant outside classes. -/
abbrev ConstantName := QualifiedName

namespace QualifiedName

/-- Whether two names denote the same class. -/
def sameClass (a b : ClassName) : Bool := a.fold == b.fold

/-- Whether two names denote the same function. -/
def sameFunction (a b : FunctionName) : Bool := a.fold == b.fold

/-- Whether two names denote the same global constant. -/
def sameConstant (a b : ConstantName) : Bool := a.foldSpace == b.foldSpace

/-- The class name without backslashes in front, as a program spells it in a string. -/
def classString (c : ClassName) : String :=
  String.ofList (c.text.toList.dropWhile isSeparator)

/-- Whether a full name, with or without the leading backslash, spells this class. -/
def isNamed (c : ClassName) (full : String) : Bool :=
  Text.sameFolded c.text (if Text.startsWith full "\\" then full else "\\" ++ full)

end QualifiedName

/-- The name of a member of a class. -/
structure MemberName where
  owner : ClassName
  name : String
  deriving DecidableEq, Hashable, Repr, Inhabited

namespace MemberName

/-- The same member name in another class. -/
def moveTo (m : MemberName) (owner : ClassName) : MemberName := { m with owner }

/-- A method or a class constant, in full. -/
def text (m : MemberName) : String := m.owner.text ++ "::" ++ m.name

/-- A property, in full. -/
def propertyText (m : MemberName) : String := m.owner.text ++ "::$" ++ m.name

/-- Whether two names denote the same method. -/
def sameMethod (a b : MemberName) : Bool :=
  a.owner.sameClass b.owner && Text.sameFolded a.name b.name

/-- Whether two names denote the same property, or the same class constant. -/
def sameField (a b : MemberName) : Bool := a.owner.sameClass b.owner && a.name == b.name

end MemberName

end UnionInference
