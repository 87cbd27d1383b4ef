import UnionInference.CodeBase.Load
import UnionInference.Types.Expand

/-!
Inheritance. A class receives copies of the members of its traits, its parent and its interfaces, in
this order, except of those that it has already; before that, each of these classes receives its
own. A class is marked before its ancestors are visited, so a cycle of classes does no harm.
-/

namespace UnionInference

namespace CodeBase

/-- Copies the members of a class into another one, except those that it has. -/
def inherit (b : CodeBase) (source target : ClassName) : CodeBase :=
  { b with
    methods := b.methods.inherit source target
    properties := b.properties.inherit source target
    constants := b.constants.inherit source target }

/-- Gives a class its inherited members, with a number of steps down left. -/
def hydrateWithin : Nat → ClassName → BaseM Unit
  | 0, _ => pure ()
  | n + 1, name => do
    let b ← get
    if b.hydrated.contains name.fold then return
    else
      match b.class? name with
      | none => return
      | some decl =>
        set ({ b with hydrated := b.hydrated.insert name.fold } : CodeBase)
        decl.sources.forM fun source => do
          if ← hasClass source then
            hydrateWithin n source
            modify fun b => b.inherit source name

/-- A number of steps down that no hierarchy needs more of: between two registrations on demand each
step marks another class. -/
def hydrationBound (b : CodeBase) : Nat :=
  let entries := b.resolver.getD []
  let loads := b.pending.size + entries.length
  let definitions := (entries.flatMap fun e => e.definitions).length
  (loads + 1) * (b.classes.size + b.pending.size + definitions + 1) + 1

/-- Gives a class its inherited members. -/
def hydrate (name : ClassName) : BaseM Unit := do hydrateWithin (← get).hydrationBound name

/-- Gives every registered class its inherited members. -/
def hydrateAll : BaseM Unit := do (← get).classNames.forM hydrate

/-! ### Asking for classes and members -/

/-- Loads a class and gives it its inherited members, before it is asked for one. -/
def prepare (name : ClassName) : BaseM Unit := do
  if ← hasClass name then
    if (← get).hydrateLazily then hydrate name

/-- The class, which must be registered. -/
def getClass (name : ClassName) : StateT CodeBase Checked ClassDecl := do
  if (← get).hydrateLazily then modify fun b => (hydrate name b).2
  match (← get).class? name with
  | some decl => return decl
  | none => throw (.unknownClass name)

/-- The method of a class with the given name. -/
def method? (owner : ClassName) (name : String) : BaseM (Option Method) := do
  prepare owner
  return (← get).methods.get? owner name

/-- The property of a class with the given name. -/
def property? (owner : ClassName) (name : String) : BaseM (Option Property) := do
  prepare owner
  return (← get).properties.get? owner name

/-- The constant of a class with the given name. -/
def constant? (owner : ClassName) (name : String) : BaseM (Option ClassConstant) := do
  prepare owner
  return (← get).constants.get? owner name

/-- The methods of a class in order. -/
def methodsOf (owner : ClassName) : BaseM (List Method) := do
  prepare owner
  return (← get).methods.members owner

/-- The properties of a class in order. -/
def propertiesOf (owner : ClassName) : BaseM (List Property) := do
  prepare owner
  return (← get).properties.members owner

/-- The constants of a class in order. -/
def constantsOf (owner : ClassName) : BaseM (List ClassConstant) := do
  prepare owner
  return (← get).constants.members owner

/-! ### The class hierarchy -/

/-- The type that a class declares, after loading it if it can be. -/
def declaredType (name : ClassName) : BaseM (Option UnionType) := do
  if ← hasClass name then return ((← get).class? name).map ClassDecl.type else return none

instance : Hierarchy CodeBase where
  declaredType name b := declaredType name b
  generation := CodeBase.generation

/-- Whether a class has another one among its ancestors. -/
def isSubclassOf (child ancestor : ClassName) : ExpandM CodeBase Bool := do
  if child.sameClass ancestor then return false
  else
    let (t, b) ← get
    let (known, b) := hasClass child b
    set (t, b)
    if known then
      (UnionType.of (← ExpandM.types (TypeM.classType child))).hasAncestor ancestor
    else return false

end CodeBase

end UnionInference
