import UnionInference.Analysis.Scope
import UnionInference.Issue.Basic
import UnionInference.Tree.Flags
import UnionInference.Types.Parse

/-!
Where an expression stands: its file, namespace, class and function, and with them the meaning of
the names in it. A context refers to a scope and to a store of results, which it shares with the
contexts made from it until one of them is given its own.
-/

namespace UnionInference

/-- The names that are imported into a namespace. Later ones come first. -/
structure Imports where
  classes : List (String × ClassName) := []
  functions : List (String × FunctionName) := []
  constants : List (String × ConstantName) := []

namespace Imports

/-- Imports a class under another name. -/
def addClass (i : Imports) (short : String) (target : ClassName) : Imports :=
  { i with classes := (Text.fold short, target) :: i.classes }

/-- Imports a function under another name. -/
def addFunction (i : Imports) (short : String) (target : FunctionName) : Imports :=
  { i with functions := (Text.fold short, target) :: i.functions }

/-- Imports a constant under another name. -/
def addConstant (i : Imports) (short : String) (target : ConstantName) : Imports :=
  { i with constants := (short, target) :: i.constants }

/-- The class imported under a name, in any letter case. -/
def class? (i : Imports) (short : String) : Option ClassName := i.classes.lookup (Text.fold short)

/-- The function imported under a name, in any letter case. -/
def function? (i : Imports) (short : String) : Option FunctionName :=
  i.functions.lookup (Text.fold short)

/-- The constant imported under a name. -/
def constant? (i : Imports) (short : String) : Option ConstantName := i.constants.lookup short

end Imports

/-- The function whose body an expression stands in. -/
inductive Enclosing where
  | function (name : FunctionName)
  | method (name : MemberName)
  | closure

/-- The enclosing function as text. -/
def Enclosing.text : Enclosing → String
  | .function n => "function " ++ n.text
  | .method n => "method " ++ n.text
  | .closure => "closure"

/-- Where an expression stands. -/
structure Context where
  file : String
  line : Nat := 0
  space : String := "\\"
  imports : Imports := {}
  owner : Option ClassName := none
  enclosing : Option Enclosing := none
  /-- Whether the enclosing function belongs to no object. -/
  isStatic : Bool := false
  templates : List String := []
  isStrict : Bool := false
  /-- The place of the scope among all scopes. -/
  scope : Nat
  /-- The place of the store of results among all such stores. -/
  cache : Nat

namespace Context

/-- Enters a namespace, without the imports of the one before. -/
def inNamespace (c : Context) (space : String) : Context :=
  { c with space := normalizeNamespace space, imports := {} }

/-- The name within the namespace of the context. -/
def qualify (c : Context) (name : String) : String :=
  if c.space == "\\" then "\\" ++ name else c.space ++ "\\" ++ name

/-- The first segment of a name, and the rest if there is more. -/
def splitFirst (name : String) : String × Option String :=
  let cs := name.toList
  match cs.dropWhile fun c => !isSeparator c with
  | [] => (name, none)
  | _ :: rest => (String.ofList (cs.takeWhile fun c => !isSeparator c), some (String.ofList rest))

/-- The class that a name denotes. -/
def resolveClass (c : Context) (name : String) (kind : NameKind) : ClassName :=
  match kind with
  | .fullyQualified => .ofFullName name
  | .relative => .ofFullName (c.qualify name)
  | .notFullyQualified =>
    let (first, rest) := splitFirst name
    match c.imports.class? first, rest with
    | some target, none => target
    | some target, some rest => .ofFullName (target.text ++ "\\" ++ rest)
    | none, _ => .ofFullName (c.qualify name)

/-- What a name of several segments denotes that is not fully qualified. -/
def resolveSegments (c : Context) (name first rest : String) : QualifiedName :=
  match c.imports.class? first with
  | some target => .ofFullName (target.text ++ "\\" ++ rest)
  | none => .ofFullName (c.qualify name)

/-- What a function or constant name denotes, and what it falls back to if that is missing: the same
name in the root namespace. -/
def resolveWith (c : Context) (imported : String → Option QualifiedName) (name : String)
    (kind : NameKind) : QualifiedName × Option QualifiedName :=
  match kind with
  | .fullyQualified => (.ofFullName name, none)
  | .relative => (.ofFullName (c.qualify name), none)
  | .notFullyQualified =>
    match splitFirst name with
    | (first, some rest) => (c.resolveSegments name first rest, none)
    | (_, none) =>
      match imported name with
      | some target => (target, none)
      | none =>
        let full := QualifiedName.ofFullName (c.qualify name)
        (full, if c.space == "\\" then none else some full.inRoot)

/-- The function that a name denotes, and its fallback. -/
def resolveFunction (c : Context) (name : String) (kind : NameKind) :
    FunctionName × Option FunctionName :=
  c.resolveWith c.imports.function? name kind

/-- The global constant that a name denotes, and its fallback. -/
def resolveConstant (c : Context) (name : String) (kind : NameKind) :
    ConstantName × Option ConstantName :=
  c.resolveWith c.imports.constant? name kind

/-- The class that a name in a comment denotes. -/
def resolveComment (c : Context) (name : String) : ClassName :=
  match Text.dropStart? name "\\" with
  | some rest => .ofFullName rest
  | none => c.resolveClass name .notFullyQualified

/-- What names mean in the types of comments. -/
def resolver (c : Context) : NameResolver :=
  { resolveClass := c.resolveComment
    isTemplate := c.templates.contains
    selfClass := c.owner }

/-- An issue at a line of the file. -/
def issue (c : Context) (kind : IssueKind) (line : Nat) (args : List String) : Issue :=
  { file := c.file, line, kind, args }

end Context

end UnionInference
