import UnionInference.Types.Union
import UnionInference.Tree.Flags

/-!
The elements that a program declares: classes with their members, functions and constants. Elements
refer to each other by name alone.
-/

namespace UnionInference

/-- Where an element is declared. -/
structure Location where
  file : String := ""
  line : Nat := 0
  deriving DecidableEq, Repr, Inhabited

/-- The place of what the language itself provides. -/
def Location.internal : Location := ⟨"internal", 0⟩

namespace Modifiers

/-- Whether a member can be seen from everywhere. -/
def isVisible (m : Modifiers) : Bool := !m.isPrivate && !m.isProtected

/-- How far a member is hidden: not at all, outside the family, outside the class. -/
def rank (m : Modifiers) : Nat := if m.isPrivate then 2 else if m.isProtected then 1 else 0

/-- The name of the visibility. -/
def visibilityName (m : Modifiers) : String :=
  match m.rank with
  | 2 => "private"
  | 1 => "protected"
  | _ => "public"

end Modifiers

/-! ### Classes -/

/-- What a class is. -/
inductive ClassKind where
  | plain | interface | trait
  deriving DecidableEq, Repr, Inhabited

/-- The name of the kind. -/
def ClassKind.text : ClassKind → String
  | .plain => "Class"
  | .interface => "Interface"
  | .trait => "Trait"

/-- The kind that a keyword declares; any other one declares a plain class. -/
def ClassKind.ofKeyword : String → ClassKind
  | "interface" => .interface
  | "trait" => .trait
  | _ => .plain

/-- A class, an interface or a trait. -/
structure ClassDecl where
  name : ClassName
  kind : ClassKind := .plain
  modifiers : Modifiers := {}
  parent : Option ClassName := none
  interfaces : List ClassName := []
  traits : List ClassName := []
  templates : List String := []
  /-- The type of its objects together with the types of its parent and its interfaces. -/
  type : UnionType
  isInternal : Bool := false
  location : Location := {}

namespace ClassDecl

/-- A class without ancestors. -/
def make (kind : ClassKind) (name : ClassName) : TypeM ClassDecl := do
  return { name, kind, type := .of (← TypeM.classType name) }

/-- Sets the parent. -/
def setParent (c : ClassDecl) (parent : ClassName) : TypeM ClassDecl := do
  return { c with parent := some parent, type := c.type.insert (← TypeM.classType parent) }

/-- Adds an interface. -/
def addInterface (c : ClassDecl) (interface : ClassName) : TypeM ClassDecl := do
  return { c with
    interfaces := c.interfaces ++ [interface]
    type := c.type.insert (← TypeM.classType interface) }

/-- Adds a trait. -/
def addTrait (c : ClassDecl) (trait : ClassName) : ClassDecl :=
  { c with traits := c.traits ++ [trait] }

/-- Whether it is an interface. -/
def isInterface (c : ClassDecl) : Bool := c.kind == .interface

/-- Whether it is a trait. -/
def isTrait (c : ClassDecl) : Bool := c.kind == .trait

/-- Whether it has template placeholders. -/
def isGeneric (c : ClassDecl) : Bool := !c.templates.isEmpty

/-- The parent, the interfaces and the traits. -/
def ancestors (c : ClassDecl) : List ClassName := c.parent.toList ++ c.interfaces ++ c.traits

/-- Where it inherits from: a trait before the parent, the parent before an interface. -/
def sources (c : ClassDecl) : List ClassName := c.traits ++ c.parent.toList ++ c.interfaces

end ClassDecl

/-! ### Functions and methods -/

/-- A parameter. -/
structure Parameter where
  name : String
  type : UnionType := .empty
  marks : ParamMarks := {}
  hasDefault : Bool := false

/-- Whether a call may leave the parameter out. -/
def Parameter.isOptional (p : Parameter) : Bool := p.hasDefault || p.marks.variadic

/-- An argument of a call: its type, and its value if it is a literal. -/
structure CallArgument where
  type : UnionType
  literal : Option Scalar := none

/-- A result type that depends on the arguments: the class that the string argument at a place
names. -/
structure DependentResult where
  index : Nat
  deriving DecidableEq, Repr

namespace DependentResult

/-- The string that an argument is known to be. -/
def stringOf (a : CallArgument) (t : TypeTable) : Checked (Option String) :=
  match a.literal with
  | some (.string s) => .ok (some s)
  | _ =>
    match a.type.single? with
    | none => .ok none
    | some id => do
      match (← t.fetch id).kind with
      | .stringLiteral s => return some s
      | _ => return none

/-- The result type for the given arguments, if they determine one. -/
def compute (d : DependentResult) (args : List CallArgument) : TypeM (Option UnionType) := do
  match args[d.index]? with
  | none => return none
  | some arg =>
    match ← TypeM.query (stringOf arg) with
    | none => return none
    | some s =>
      let name := QualifiedName.ofFullName s
      if s.isEmpty || Text.hasChar s '|' || name.name.isEmpty then return none
      else return some (.of (← TypeM.classType name))

end DependentResult

/-- The parameters and the result of a function or a method. -/
structure Signature where
  params : List Parameter := []
  result : UnionType := .empty
  dependent : Option DependentResult := none
  templates : List String := []
  /-- The types that its comment says it throws. -/
  throws : UnionType := .empty

namespace Signature

/-- The number of parameters that a call must fill. -/
def requiredCount (s : Signature) : Nat := (s.params.filter fun p => !p.isOptional).length

/-- The parameter that receives the argument at a place; the last one takes all that follow if it is
variadic. -/
def paramFor? (s : Signature) (i : Nat) : Option Parameter :=
  match s.params[i]? with
  | some p => some p
  | none => s.params.getLast?.filter fun p => p.marks.variadic

end Signature

/-- A method. -/
structure Method where
  name : MemberName
  /-- The method as declared; an inherited copy keeps it. -/
  definedAs : MemberName := name
  modifiers : Modifiers := { isPublic := true }
  signature : Signature := {}
  isInternal : Bool := false
  location : Location := {}

/-- Whether the method answers calls of methods that are not there. -/
def Method.isMagicCall (m : Method) : Bool :=
  Text.sameFolded m.name.name "__call" || Text.sameFolded m.name.name "__callStatic"

/-- A function. -/
structure FunctionDecl where
  name : FunctionName
  signature : Signature := {}
  isInternal : Bool := false
  location : Location := {}

/-! ### Properties and constants -/

/-- A property. -/
structure Property where
  name : MemberName
  /-- The property as declared; an inherited copy keeps it. -/
  definedAs : MemberName := name
  modifiers : Modifiers := { isPublic := true }
  type : UnionType := .empty
  /-- Whether it came about by assignment. -/
  isDynamic : Bool := false
  /-- Whether a comment of the class declares it. -/
  isMagic : Bool := false
  location : Location := {}

/-- A property without a type that came about by assignment. -/
def Property.dynamic (name : MemberName) (location : Location) : Property :=
  { name, isDynamic := true, location }

/-- A constant of a class. -/
structure ClassConstant where
  name : MemberName
  /-- The constant as declared; an inherited copy keeps it. -/
  definedAs : MemberName := name
  modifiers : Modifiers := { isPublic := true }
  type : UnionType := .empty
  /-- The type that its comment declares. -/
  commentType : UnionType := .empty
  location : Location := {}

/-- A constant outside classes. -/
structure GlobalConstant where
  name : ConstantName
  type : UnionType := .empty
  location : Location := {}

/-- A class together with its own members. -/
structure ClassDefinition where
  decl : ClassDecl
  methods : List Method := []
  properties : List Property := []
  constants : List ClassConstant := []

end UnionInference
