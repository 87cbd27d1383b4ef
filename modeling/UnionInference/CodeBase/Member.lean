import UnionInference.CodeBase.Element
import UnionInference.Table.Ordered

/-!
The members of classes. Each class has a table of its members, own and inherited ones alike; an
inherited member is a copy that bears the name of the class and remembers where it was declared.
-/

namespace UnionInference

/-- What methods, properties and class constants have in common. -/
class ClassMember (μ : Type) where
  /-- The name of the member in the class that has it. -/
  name : μ → MemberName
  /-- The name of the member in the class that declares it. -/
  definedAs : μ → MemberName
  modifiers : μ → Modifiers
  location : μ → Location
  /-- A name of such a member as it is written. -/
  nameText : MemberName → String
  /-- The member under another name. -/
  rename : μ → MemberName → μ
  /-- The key of a name in the table of a class. -/
  key : String → String

instance : ClassMember Method where
  name := Method.name
  definedAs := Method.definedAs
  modifiers := Method.modifiers
  location := Method.location
  nameText := MemberName.text
  rename m name := { m with name }
  key := Text.fold

instance : ClassMember Property where
  name := Property.name
  definedAs := Property.definedAs
  modifiers := Property.modifiers
  location := Property.location
  nameText := MemberName.propertyText
  rename p name := { p with name }
  key s := s

instance : ClassMember ClassConstant where
  name := ClassConstant.name
  definedAs := ClassConstant.definedAs
  modifiers := ClassConstant.modifiers
  location := ClassConstant.location
  nameText := MemberName.text
  rename c name := { c with name }
  key s := s

namespace ClassMember

variable {μ : Type} [ClassMember μ]

/-- Whether the member was declared by another class. -/
def isInherited (m : μ) : Bool := !(name m).owner.sameClass (definedAs m).owner

/-- The copy of a member that a class inherits. -/
def moveTo (m : μ) (owner : ClassName) : μ := rename m ((name m).moveTo owner)

end ClassMember

/-- The members of all classes, by folded class name. -/
structure MemberTables (μ : Type) where
  tables : Std.HashMap QualifiedName (OrderedTable String μ) := {}

namespace MemberTables

variable {μ : Type} [ClassMember μ]

/-- The members of a class, if it ever had any. -/
def table? (ms : MemberTables μ) (owner : ClassName) : Option (OrderedTable String μ) :=
  ms.tables[owner.fold]?

/-- The members of a class. -/
def table (ms : MemberTables μ) (owner : ClassName) : OrderedTable String μ :=
  (ms.table? owner).getD .empty

/-- Replaces the members of a class. -/
def setTable (ms : MemberTables μ) (owner : ClassName) (t : OrderedTable String μ) :
    MemberTables μ :=
  ⟨ms.tables.insert owner.fold t⟩

/-- The member of a class with the given name. -/
def get? (ms : MemberTables μ) (owner : ClassName) (name : String) : Option μ :=
  (ms.table owner).get? (ClassMember.key μ name)

/-- The members of a class in order. -/
def members (ms : MemberTables μ) (owner : ClassName) : List μ := (ms.table owner).values

/-- Stores a member in the class that its name tells. -/
def add (ms : MemberTables μ) (m : μ) : MemberTables μ :=
  let name := ClassMember.name m
  ms.setTable name.owner ((ms.table name.owner).insert (ClassMember.key μ name.name) m)

/-- Removes a member, if it is there. -/
def remove (ms : MemberTables μ) (name : MemberName) : Bool × MemberTables μ :=
  let key := ClassMember.key μ name.name
  if (ms.table name.owner).contains key then
    (true, ms.setTable name.owner ((ms.table name.owner).erase key))
  else (false, ms)

/-- Copies the members of a class into another one, except those that it has. -/
def inherit (ms : MemberTables μ) (source target : ClassName) : MemberTables μ :=
  match ms.table? source with
  | none => ms
  | some inherited =>
    ms.setTable target
      (inherited.toList.foldl (fun t e =>
        if t.contains e.1 then t else t.insert e.1 (ClassMember.moveTo e.2 target))
        (ms.table target))

/-- Removes all inherited members. -/
def dropInherited (ms : MemberTables μ) : MemberTables μ :=
  ⟨ms.tables.map fun _ t => t.filter fun _ m => !ClassMember.isInherited m⟩

end MemberTables

end UnionInference
