import UnionInference.Analysis.World
import UnionInference.Types.Template

/-!
What the names in an expression mean: which class, method, property, variable, function or constant.
That it exists is checked first, and then that it may be accessed from where the expression stands.
-/

namespace UnionInference

/-- How a member was found. -/
inductive Resolution (α : Type) where
  | notFound
  /-- The class has it. -/
  | found (member : α)
  /-- The class has it not, but answers for members that are not there. -/
  | viaMagic (member : α)

namespace Resolution

variable {α : Type}

/-- The member, however it was found. -/
def member? : Resolution α → Option α
  | .notFound => none
  | .found a | .viaMagic a => some a

/-- Whether the class answers for a member that is not there. -/
def isViaMagic : Resolution α → Bool
  | .viaMagic _ => true
  | _ => false

end Resolution

namespace AnalysisM

/-! ### Classes -/

/-- Whether the name refers to the class that the expression stands in. -/
def isOwnerName (name : String) : Bool :=
  ["self", "static", "parent"].any (Text.sameFolded name)

/-- How a name node is written. -/
def nameKind (n : Node) : NameKind := (NameKind.ofCode? n.flags).getD .notFullyQualified

/-- The parent of the class that an expression stands in. -/
def parentOf (c : Context) (owner : ClassName) (line : Nat) : AnalysisM ClassName := do
  if !(← hasClass owner) then failWith c .undeclaredClassReference line [owner.text]
  else
    let decl ← getClass owner
    if decl.isTrait then failWith c .traitParentReference line [owner.text]
    else
      match decl.parent with
      | some parent => return parent
      | none => failWith c .parentlessClass line [owner.text]

/-- The class that a name node denotes, whether or not it exists. -/
def classOfName (c : Context) (n : Node) : AnalysisM ClassName := do
  match n.childStr? "name" with
  | none => unanalyzable n "dynamic class name"
  | some name =>
    let kind := nameKind n
    if kind != .notFullyQualified || !isOwnerName name then return c.resolveClass name kind
    else
      match c.owner with
      | none => failWith c .contextNotObject n.line [Text.fold name]
      | some owner =>
        if Text.sameFolded name "parent" then parentOf c owner n.line else return owner

/-- The class that a type of a receiver denotes, if it is one. -/
def receiverClass (c : Context) (ty : Ty) : Option ClassName :=
  match ty.kind with
  | .object name _ => some name
  | _ => if ty.isStaticLike then c.owner else none

/-- The classes of the members of a receiver's type, each once. The first one that does not exist is
an issue, which `missing` tells. -/
def classListWith (c : Context) (missing : ClassName → IssueKind × Nat × List String)
    (u : UnionType) : AnalysisM (List ClassName) :=
  u.members.foldlM (fun found id => do
    match receiverClass c (← query fun t => t.fetch id) with
    | none => return found
    | some name =>
      if found.any name.sameClass then return found
      else if ← hasClass name then return found ++ [name]
      else
        let (kind, line, args) := missing name
        failWith c kind line args) []

/-- The classes of the members of a receiver's type. -/
def classList (c : Context) (u : UnionType) (line : Nat) : AnalysisM (List ClassName) :=
  classListWith c (fun name => (.undeclaredClassReference, line, [name.text])) u

/-- Adds the existing classes whose names are string literals of a type. -/
def addNamedClasses (u : UnionType) (found : List ClassName) : AnalysisM (List ClassName) :=
  u.members.foldlM (fun found id => do
    match (← query fun t => t.fetch id).kind with
    | .stringLiteral s =>
      let name := QualifiedName.ofFullName s
      if ← hasClass name then return UnionType.addClass found name else return found
    | _ => return found) found

/-- The class itself, if it exists. -/
def existingClass (c : Context) (name : ClassName) (line : Nat) : AnalysisM (List ClassName) := do
  if ← hasClass name then return [name]
  else failWith c .undeclaredClassReference line [name.text]

/-- The classes that a child denotes where a class is expected: a name, or any expression whose type
holds classes or the names of classes. -/
def classReference (c : Context) (evaluate : Child → AnalysisM UnionType) (child : Child) :
    AnalysisM (List ClassName) := do
  match child with
  | .str name => existingClass c (.ofFullName name) c.line
  | .node n =>
    if n.kind = .name then existingClass c (← classOfName c n) n.line
    else
      let u ← evaluate child
      addNamedClasses u (← classList c u n.line)
  | _ =>
    let u ← evaluate child
    addNamedClasses u (← classList c u c.line)

/-- What the template placeholders of a class stand for in a receiver's type. -/
def receiverTemplates (u : UnionType) (owner : ClassName) : AnalysisM TemplateMap := do
  if !(← hasClass owner) then return []
  else
    let names := (← getClass owner).templates
    if names.isEmpty then return []
    else
      u.members.foldlM (fun m id => do
        match (← query fun t => t.fetch id).kind with
        | .object name args =>
          if name.sameClass owner then
            return (names.zip args).foldl (fun m b => m.add b.1 b.2) m
          else return m
        | _ => return m) ([] : TemplateMap)

/-! ### Access -/

/-- Whether the class has the other one among its ancestors. -/
def isSubclassOf (child ancestor : ClassName) : AnalysisM Bool :=
  hierarchy (CodeBase.isSubclassOf child ancestor)

/-- Whether a hidden member that one class declares may be accessed through another one from where
the expression stands. What a trait declares belongs to the class that uses the trait. -/
def canAccess (c : Context) (declaring owner : ClassName) (isPrivate : Bool) : AnalysisM Bool := do
  match c.owner with
  | none => return false
  | some here =>
    if here.sameClass declaring then return true
    else
      let inTrait := (((← codeBase).class? declaring).map ClassDecl.isTrait).getD false
      if inTrait && here.sameClass owner then return true
      else if isPrivate then return false
      else if ← isSubclassOf here declaring then return true
      else if ← isSubclassOf declaring here then return true
      else if inTrait then isSubclassOf here owner
      else return false

/-- The particulars of a member that is out of reach. -/
def accessArgs (name : String) (l : Location) : List String :=
  [name, l.file, Text.decimalNat l.line]

/-- Fails if the method is out of reach. -/
def checkMethodAccess (c : Context) (m : Method) (line : Nat) : AnalysisM Unit := do
  if m.modifiers.isVisible then return
  else if ← canAccess c m.definedAs.owner m.name.owner m.modifiers.isPrivate then return
  else
    let kind := if m.modifiers.isPrivate then .accessMethodPrivate else .accessMethodProtected
    failWith c kind line (accessArgs m.name.text m.location)

/-- Fails if the property is out of reach. -/
def checkPropertyAccess (c : Context) (p : Property) (line : Nat) : AnalysisM Unit := do
  if p.modifiers.isVisible then return
  else if ← canAccess c p.definedAs.owner p.name.owner p.modifiers.isPrivate then return
  else
    let kind := if p.modifiers.isPrivate then .accessPropertyPrivate else .accessPropertyProtected
    failWith c kind line (accessArgs p.name.propertyText p.location)

/-! ### Methods -/

/-- The method of a class, or the one that answers for methods that are not there. -/
def findMethod (owner : ClassName) (name : String) (isStatic : Bool) :
    AnalysisM (Resolution Method) := do
  match ← base (CodeBase.method? owner name) with
  | some m => return .found m
  | none =>
    match ← base (CodeBase.method? owner (if isStatic then "__callStatic" else "__call")) with
    | some m => return .viaMagic m
    | none => return .notFound

/-- The method of each of the classes that has it. Without classes the receiver is no object. -/
def resolveMethods (c : Context) (classes : List ClassName) (name : String) (isStatic : Bool)
    (receiver : UnionType) (line : Nat) : AnalysisM (List (Resolution Method)) := do
  match classes with
  | [] => failWith c .nonClassMethodCall line [name, ← display receiver]
  | first :: _ =>
    let found ← classes.foldlM (fun found owner => do
      match ← findMethod owner name isStatic with
      | .found m =>
        checkMethodAccess c m line
        return found ++ [.found m]
      | .viaMagic m => return found ++ [.viaMagic m]
      | .notFound => return found) ([] : List (Resolution Method))
    if found.isEmpty then
      let kind := if isStatic then .undeclaredStaticMethod else .undeclaredMethod
      failWith c kind line [(MemberName.mk first name).text]
    else return found

/-! ### Properties -/

/-- The property of a class, or what the class answers for properties that are not there. -/
def findProperty (owner : ClassName) (name : String) (isStatic : Bool) :
    AnalysisM (Resolution Property) := do
  match ← base (CodeBase.property? owner name) with
  | some p => return if p.modifiers.isStatic == isStatic then .found p else .notFound
  | none =>
    if isStatic then return .notFound
    else
      match ← base (CodeBase.method? owner "__get") with
      | some getter =>
        let name : MemberName := ⟨owner, name⟩
        return .viaMagic
          { name, definedAs := name, type := getter.signature.result, isMagic := true }
      | none => return .notFound

/-- The issue of a property that a class does not have. -/
def missingProperty {α : Type} (c : Context) (owner : ClassName) (name : String) (isStatic : Bool)
    (line : Nat) : AnalysisM α :=
  if isStatic then failWith c .undeclaredStaticProperty line [name, owner.text]
  else failWith c .undeclaredProperty line [(MemberName.mk owner name).propertyText]

/-- The property of each of the classes that has it. -/
def resolveProperties (c : Context) (classes : List ClassName) (name : String) (isStatic : Bool)
    (line : Nat) : AnalysisM (List Property) := do
  let found ← classes.foldlM (fun found owner => do
    match ← findProperty owner name isStatic with
    | .found p =>
      checkPropertyAccess c p line
      return found ++ [p]
    | .viaMagic p => return found ++ [p]
    | .notFound => return found) ([] : List Property)
  match classes with
  | [] => return found
  | first :: _ => if found.isEmpty then missingProperty c first name isStatic line else return found

/-- The property of a class, which comes about if it is not there and belongs to an object. -/
def getOrCreateProperty (c : Context) (owner : ClassName) (name : String) (isStatic : Bool)
    (line : Nat) : AnalysisM Property := do
  match ← findProperty owner name isStatic with
  | .found p =>
    checkPropertyAccess c p line
    return p
  | .viaMagic p => return p
  | .notFound =>
    if isStatic then missingProperty c owner name isStatic line
    else
      let p := Property.dynamic ⟨owner, name⟩ ⟨c.file, line⟩
      modify fun w => { w with base := w.base.addProperty p }
      return p

/-! ### Variables -/

/-- The issue of a variable that is not defined, with a hint at one of nearly the same name. -/
def undeclaredVariable (c : Context) (s : Scope) (name : String) (line : Nat) : Issue :=
  { c.issue .undeclaredVariable line [name] with
    suggestion := (s.similar? name).map fun other => "Did you mean $" ++ other }

/-- The type of a variable, if it is defined or provided. -/
def variableType? (c : Context) (name : String) : AnalysisM (Option UnionType) := do
  match c.owner, name == "this" && !c.isStatic with
  | some owner, true => return some (.of (← types (TypeM.classType owner)))
  | _, _ =>
    let s ← scopeOf c
    match s.get? name with
    | some u => return some u
    | none => types (s.providedType name)

/-- The type of a variable. -/
def resolveVariable (c : Context) (name : String) (line : Nat) : AnalysisM UnionType := do
  match ← variableType? c name with
  | some u => return u
  | none => fail (.issue (undeclaredVariable c (← scopeOf c) name line))

/-- The type of a variable. Outside of functions an undefined one may come about, with nothing known
of it. -/
def resolveOrCreateVariable (c : Context) (name : String) (line : Nat) : AnalysisM UnionType := do
  match ← variableType? c name with
  | some u => return u
  | none =>
    let s ← scopeOf c
    if s.isGlobal && (← options).ignoreUndeclaredVariablesInGlobalScope then
      modify fun w => w.define c name .empty
      return .empty
    else fail (.issue (undeclaredVariable c s name line))

/-! ### Functions and constants -/

/-- The function that a name node denotes. -/
def resolveFunction (c : Context) (n : Node) : AnalysisM FunctionDecl := do
  match n.childStr? "name" with
  | none => unanalyzable n "dynamic function name"
  | some name =>
    let (full, fallback) := c.resolveFunction name (nameKind n)
    let b ← codeBase
    match b.function? full, fallback.bind b.function? with
    | some f, _ | none, some f => return f
    | none, none => failWith c .undeclaredFunction n.line [full.text]

/-- The global constant that a name node denotes. -/
def resolveGlobal (c : Context) (n : Node) : AnalysisM GlobalConstant := do
  match n.childStr? "name" with
  | none => unanalyzable n "dynamic constant name"
  | some name =>
    let (full, fallback) := c.resolveConstant name (nameKind n)
    let b ← codeBase
    match b.global? full, fallback.bind b.global? with
    | some k, _ | none, some k => return k
    | none, none => failWith c .undeclaredConstant n.line [full.text]

/-- The constant of each of the classes that a child denotes. -/
def resolveClassConstant (c : Context) (evaluate : Child → AnalysisM UnionType) (owner : Child)
    (name : String) (line : Nat) : AnalysisM (List ClassConstant) := do
  let classes ← classReference c evaluate owner
  let found ← classes.foldlM (fun found owner => do
    match ← base (CodeBase.constant? owner name) with
    | some k => return found ++ [k]
    | none => return found) ([] : List ClassConstant)
  match classes with
  | first :: _ =>
    if found.isEmpty then
      failWith c .undeclaredClassConstant line [(MemberName.mk first name).text]
    else return found
  | [] => return found

/-- The type of the class that the expression stands in. -/
def ownerType? (c : Context) : AnalysisM (Option TypeId) := do
  match c.owner with
  | some owner => return some (← types (TypeM.classType owner))
  | none => return none

end AnalysisM

end UnionInference
