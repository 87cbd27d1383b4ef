import Std.Data.HashSet
import UnionInference.CodeBase.Member
import UnionInference.CodeBase.Undo

/-!
The code base: every element of the analysed program that is known. Elements are registered under
their names; a class may also be announced with its definition, which is registered when the class
is first asked for. The generation counts the changes that can alter the ancestors of a class.
-/

namespace UnionInference

/-- A definition that waits to be asked for, with the name it was announced under. -/
structure PendingClass where
  announcedAs : ClassName
  definition : ClassDefinition

/-- What a resolver does when it is asked for a class: it looks classes up, registers definitions,
looks classes up again, and tells whether it found the class. -/
structure ResolverEntry where
  name : ClassName
  before : List ClassName := []
  definitions : List ClassDefinition := []
  after : List ClassName := []
  found : Bool := true

/-- What happened while classes were loaded. -/
inductive LoadEvent where
  /-- The resolver was asked for a class. -/
  | resolve (name : ClassName)
  /-- The resolver looked a class up before it registered anything. -/
  | before (name : ClassName) (found : Bool)
  /-- The resolver looked a class up after it registered its definitions. -/
  | after (name : ClassName) (found : Bool)
  /-- An announced class was registered. -/
  | load (name : ClassName)

namespace LoadEvent

/-- A truth value as text. -/
def boolText (b : Bool) : String := if b then "true" else "false"

/-- The event as text. -/
def text : LoadEvent → String
  | .resolve n => "resolve " ++ n.text
  | .before n b => "before " ++ n.text ++ " " ++ boolText b
  | .after n b => "after " ++ n.text ++ " " ++ boolText b
  | .load n => "load " ++ n.text

end LoadEvent

/-- A registered class with the name it was first registered under. -/
structure ClassEntry where
  spelling : ClassName
  decl : ClassDecl

/-- Everything that is known of the analysed program. -/
structure CodeBase where
  /-- The classes by folded name, in order of registration. -/
  classes : OrderedTable QualifiedName ClassEntry := {}
  /-- The announced classes by folded name. -/
  pending : Std.HashMap QualifiedName PendingClass := {}
  resolver : Option (List ResolverEntry) := none
  methods : MemberTables Method := {}
  properties : MemberTables Property := {}
  constants : MemberTables ClassConstant := {}
  functions : Std.HashMap QualifiedName FunctionDecl := {}
  globals : Std.HashMap QualifiedName GlobalConstant := {}
  /-- The classes that have received their inherited members. -/
  hydrated : Std.HashSet QualifiedName := {}
  /-- Whether a class receives its inherited members when it is first asked for one. -/
  hydrateLazily : Bool := true
  undo : Option UndoLog := none
  generation : Nat := 0
  /-- What happened while classes were loaded, oldest first. -/
  events : Array LoadEvent := #[]

instance : Inhabited CodeBase := ⟨{}⟩

/-- Work on a code base. -/
abbrev BaseM := StateM CodeBase

namespace CodeBase

/-- An empty code base. -/
def create (hydrateLazily : Bool) : CodeBase := { hydrateLazily }

/-! ### Registration -/

/-- Ascribes an element to the current file, if files are followed. -/
def record (b : CodeBase) (e : UndoEntry) : CodeBase :=
  { b with undo := b.undo.map fun l => l.record e }

/-- Notes a change that can alter the ancestors of a class. -/
def changed (b : CodeBase) : CodeBase := { b with generation := b.generation + 1 }

/-- Notes what happened. -/
def log (b : CodeBase) (e : LoadEvent) : CodeBase := { b with events := b.events.push e }

/-- Takes out what happened so far. -/
def takeEvents : BaseM (List LoadEvent) :=
  modifyGet fun b => (b.events.toList, { b with events := #[] })

/-- The class as registered. -/
def class? (b : CodeBase) (name : ClassName) : Option ClassDecl :=
  (b.classes.get? name.fold).map ClassEntry.decl

/-- Whether the class is registered. -/
def isRegistered (b : CodeBase) (name : ClassName) : Bool := b.classes.contains name.fold

/-- Registers a class. It will receive its inherited members anew. -/
def addClass (b : CodeBase) (c : ClassDecl) : CodeBase :=
  let spelling := ((b.classes.get? c.name.fold).map ClassEntry.spelling).getD c.name
  let b := b.record (.classDecl c.name)
  changed { b with
    hydrated := b.hydrated.erase c.name.fold
    classes := b.classes.insert c.name.fold ⟨spelling, c⟩ }

/-- Registers a method. -/
def addMethod (b : CodeBase) (m : Method) : CodeBase :=
  let b := b.record (.method m.name)
  { b with methods := b.methods.add m }

/-- Registers a property. -/
def addProperty (b : CodeBase) (p : Property) : CodeBase :=
  let b := b.record (.property p.name)
  { b with properties := b.properties.add p }

/-- Registers a class constant. -/
def addConstant (b : CodeBase) (c : ClassConstant) : CodeBase :=
  let b := b.record (.classConstant c.name)
  { b with constants := b.constants.add c }

/-- Registers a class with its own members. -/
def addDefinition (b : CodeBase) (d : ClassDefinition) : CodeBase :=
  let b := b.addClass d.decl
  let b := d.methods.foldl addMethod b
  let b := d.properties.foldl addProperty b
  d.constants.foldl addConstant b

/-- Announces a class, whose definition is registered when it is first asked for. -/
def announce (b : CodeBase) (name : ClassName) (d : ClassDefinition) : CodeBase :=
  changed { b with pending := b.pending.insert name.fold ⟨name, d⟩ }

/-- Whether a class is announced and not yet registered. -/
def isPending (b : CodeBase) (name : ClassName) : Bool := b.pending.contains name.fold

/-- Sets what the resolver does. -/
def setResolver (b : CodeBase) (entries : List ResolverEntry) : CodeBase :=
  changed { b with resolver := some entries }

/-- Registers a function. -/
def addFunction (b : CodeBase) (f : FunctionDecl) : CodeBase :=
  let b := b.record (.function f.name)
  { b with functions := b.functions.insert f.name.fold f }

/-- Registers a global constant. -/
def addGlobal (b : CodeBase) (c : GlobalConstant) : CodeBase :=
  let b := b.record (.globalConstant c.name)
  { b with globals := b.globals.insert c.name.foldSpace c }

/-! ### Elements that are not loaded on demand -/

/-- The function with the given name. -/
def function? (b : CodeBase) (name : FunctionName) : Option FunctionDecl := b.functions[name.fold]?

/-- The global constant with the given name. -/
def global? (b : CodeBase) (name : ConstantName) : Option GlobalConstant :=
  b.globals[name.foldSpace]?

/-- The number of registered classes. -/
def classCount (b : CodeBase) : Nat := b.classes.size

/-- The names of the registered classes, each as it was first registered. -/
def classNames (b : CodeBase) : List ClassName := b.classes.values.map ClassEntry.spelling

/-! ### Taking back -/

/-- Forgets inherited members, and which classes have received theirs. -/
def resetInherited (b : CodeBase) : CodeBase :=
  { b with
    hydrated := {}
    methods := b.methods.dropInherited
    properties := b.properties.dropInherited
    constants := b.constants.dropInherited }

/-- Starts to follow which file registers what. -/
def enableUndo (b : CodeBase) : CodeBase :=
  { b with undo := some (b.undo.getD .empty) }

/-- Sets the file that is being read, if files are followed. -/
def setFile (b : CodeBase) (file : Option String) : CodeBase :=
  { b with undo := b.undo.map fun l => l.setFile file }

/-- Removes an element; tells whether it was there. -/
def removeEntry (b : CodeBase) (e : UndoEntry) : Bool × CodeBase :=
  match e with
  | .classDecl name =>
    if b.isRegistered name then (true, changed { b with classes := b.classes.erase name.fold })
    else (false, b)
  | .method name =>
    let (removed, methods) := b.methods.remove name
    (removed, { b with methods })
  | .property name =>
    let (removed, properties) := b.properties.remove name
    (removed, { b with properties })
  | .classConstant name =>
    let (removed, constants) := b.constants.remove name
    (removed, { b with constants })
  | .function name =>
    (b.functions.contains name.fold, { b with functions := b.functions.erase name.fold })
  | .globalConstant name =>
    (b.globals.contains name.foldSpace, { b with globals := b.globals.erase name.foldSpace })

/-- Removes elements one after the other and counts those that were there. -/
def removeEntries (b : CodeBase) : List UndoEntry → Nat × CodeBase
  | [] => (0, b)
  | e :: es =>
    let (removed, b) := b.removeEntry e
    let (count, b) := b.removeEntries es
    (removed.toNat + count, b)

/-- Takes back what a file registered, and tells how many elements that removed. -/
def undoFile (b : CodeBase) (file : String) : Nat × CodeBase :=
  match b.undo with
  | none => (0, b)
  | some l =>
    match l.takeFile file with
    | (none, _) => (0, b)
    | (some entries, l) =>
      let (count, b) := removeEntries { b with undo := some l } entries
      (count, if 0 < count then b.resetInherited else b)

end CodeBase

end UnionInference
