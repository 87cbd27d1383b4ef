import UnionInference.Analysis.Evaluator

/-!
Members, calls and the making of objects. The result of a call is the declared one with the template
placeholders replaced by what the arguments and the receiver say they stand for.
-/

namespace UnionInference

/-- How the class of a new object is given. -/
inductive Instantiation where
  /-- By its name. -/
  | named
  /-- As the class that the expression stands in, or a descendant. -/
  | static
  /-- By an object, whose class may be a descendant of its declared one. -/
  | byObject
  deriving DecidableEq

namespace Evaluator

open AnalysisM (query types display hasClass getClass unanalyzable)

/-- Whether a receiver may be an object of a class that is not known. -/
def isOpaque (u : UnionType) : AnalysisM Bool :=
  query fun t => u.anyMember t fun ty =>
    ty.isNative .object || ty.isNative .callable || ty.isTemplate

/-- The name that a child spells, if it is a name. -/
def spelledName? (child : Child) : Option String :=
  (child.node?.filter fun n => n.kind = .name).bind fun n => n.childStr? "name"

/-- Whether a child refers to the class that the expression stands in. -/
def namesOwner (child : Child) : Bool := (spelledName? child).any AnalysisM.isOwnerName

/-- The class that static types stand for in an access through the class the expression stands in.
-/
def staticOwner? (v : Evaluator) (child : Child) : Option ClassName :=
  if namesOwner child then v.context.owner else none

/-- The classes that a child denotes. -/
def classReference (v : Evaluator) (child : Child) : AnalysisM (List ClassName) :=
  AnalysisM.classReference v.context v.visit child

/-- Adds null to what is known of the result of an access that null skips. -/
def addNullIf (skips : Bool) (u : UnionType) : UnionType :=
  if skips && !u.isEmpty then u.insert NativeKind.null.id else u

/-! ### Properties -/

/-- A property of an object. -/
def prop (v : Evaluator) (n : Node) : AnalysisM UnionType := do
  let receiver ← v.visit (← required n "expr")
  match n.childStr? "prop" with
  | none => unanalyzable n "dynamic property name"
  | some name =>
    let receiver ← types receiver.withoutNull
    if receiver.isEmpty || receiver.hasMixed then return .empty
    else
      let classes ← AnalysisM.classList v.context receiver n.line
      if classes.isEmpty then
        if ← isOpaque receiver then return .empty
        else v.failWith .typeExpectedObjectPropAccess n.line [← display receiver]
      else
        let found ← AnalysisM.resolveProperties v.context classes name false n.line
        let result ← found.foldlM (fun result p => do
          let m ← AnalysisM.receiverTemplates receiver p.name.owner
          let type ← types (p.type.substitute m)
          return result.union (← types (type.resolveStatic p.name.owner))) UnionType.empty
        return addNullIf (n.kind == .nullsafeProp) result

/-- A static property. -/
def staticProp (v : Evaluator) (n : Node) : AnalysisM UnionType := do
  let owner ← required n "class"
  match n.childStr? "prop" with
  | none => unanalyzable n "dynamic static property name"
  | some name =>
    let classes ← v.classReference owner
    let found ← AnalysisM.resolveProperties v.context classes name true n.line
    found.foldlM (fun result p => do
      let static := (v.staticOwner? owner).getD p.name.owner
      return result.union (← types (p.type.resolveStatic static))) UnionType.empty

/-! ### Calls -/

/-- The argument that a child of a call stands for. A spread one stands for its values. -/
def argument (v : Evaluator) (child : Child) : AnalysisM CallArgument := do
  match child with
  | .node n =>
    if n.kind = .unpack then
      let spread ← v.visit (← required n "expr")
      return { type := ← query spread.iterableValues }
    else return { type := ← v.visit child }
  | _ => return { type := ← v.visit child, literal := child.scalar? }

/-- The arguments of a call. -/
def arguments (v : Evaluator) (n : Node) : AnalysisM (List CallArgument) :=
  match n.childNode? "args" with
  | none => pure []
  | some list => list.list.mapM v.argument

/-- What the arguments of a call say that template placeholders stand for. -/
def bindArguments (s : Signature) (args : List CallArgument) : TypeM TemplateMap :=
  args.zipIdx.foldlM (fun m (arg, i) =>
    match s.paramFor? i with
    | some p => p.type.bindTemplates arg.type m
    | none => pure m) ([] : TemplateMap)

/-- Says what placeholders stand for where nothing was said before. -/
def completeMap (m : TemplateMap) (others : List (String × UnionType)) : TemplateMap :=
  others.foldl (fun m o => if (m.get? o.1).isSome then m else m.put o.1 o.2) m

/-- The result of a call. What placeholders stand for comes from the arguments, else from the
receiver; those of which nothing is known vanish, unless they belong to where the call stands. -/
def resultType (v : Evaluator) (s : Signature) (args : List CallArgument) (receiver : TemplateMap) :
    TypeM UnionType := do
  let dependent ←
    match s.dependent with
    | some d => d.compute args
    | none => pure none
  match dependent with
  | some u => return u
  | none =>
    let names ← TypeM.query s.result.templateNames
    if names.isEmpty then return s.result
    else
      let m ← bindArguments s args
      let foreign := names.filter fun name => !v.context.templates.contains name
      let m := completeMap (completeMap m receiver) (foreign.map fun name => (name, .empty))
      s.result.substitute m

/-- The results of the callable types of a callee. -/
def calleeResult (callee : UnionType) : AnalysisM UnionType :=
  callee.members.foldlM (fun result id => do
    match (← query fun t => t.fetch id).kind with
    | .callable sig => return result.union sig.result
    | _ => return result) UnionType.empty

/-- A call of a function by name or of a value. -/
def call (v : Evaluator) (n : Node) : AnalysisM UnionType := do
  let callee ← required n "expr"
  let args ← v.arguments n
  match callee.node?.filter fun m => m.kind = .name with
  | some name =>
    let f ← AnalysisM.resolveFunction v.context name
    types (v.resultType f.signature args [])
  | none => calleeResult (← v.visit callee)

/-- A call of a method of an object. -/
def methodCall (v : Evaluator) (n : Node) : AnalysisM UnionType := do
  let receiver ← v.visit (← required n "expr")
  let args ← v.arguments n
  match n.childStr? "method" with
  | none => unanalyzable n "dynamic method name"
  | some name =>
    let receiver ← types receiver.withoutNull
    if receiver.isEmpty || receiver.hasMixed then return .empty
    else
      let classes ← AnalysisM.classListWith v.context
        (fun owner => (.undeclaredClassMethod, n.line, [name, owner.text])) receiver
      if ← pure classes.isEmpty <&&> isOpaque receiver then return .empty
      else
        let found ← AnalysisM.resolveMethods v.context classes name false receiver n.line
        let result ← (found.filterMap Resolution.member?).foldlM (fun result m => do
          let templates ← AnalysisM.receiverTemplates receiver m.name.owner
          let type ← types (v.resultType m.signature args templates)
          return result.union (← types (type.resolveStatic m.name.owner))) UnionType.empty
        return addNullIf (n.kind == .nullsafeMethodCall) result

/-- Fails if a method that needs an object is called without one. It has one in the body of a method
of the same class or of a descendant. -/
def checkStaticCall (v : Evaluator) (m : Method) (line : Nat) : AnalysisM Unit := do
  if m.modifiers.isStatic then return
  else
    let allowed ←
      match v.context.owner with
      | some here =>
        if v.context.isStatic then pure false
        else if here.sameClass m.name.owner then pure true
        else AnalysisM.isSubclassOf here m.name.owner
      | none => pure false
    if allowed then return
    else v.failWith .staticCallToNonStatic line (AnalysisM.accessArgs m.name.text m.location)

/-- A call of a static method. -/
def staticCall (v : Evaluator) (n : Node) : AnalysisM UnionType := do
  let owner ← required n "class"
  let args ← v.arguments n
  match n.childStr? "method" with
  | none => unanalyzable n "dynamic static method name"
  | some name =>
    let classes ← v.classReference owner
    let found ← AnalysisM.resolveMethods v.context classes name true .empty n.line
    found.foldlM (fun result r => do
      match r with
      | .found m => v.checkStaticCall m n.line
      | _ => pure ()
      match r.member? with
      | none => return result
      | some m =>
        let static := (v.staticOwner? owner).getD m.name.owner
        let type ← types (v.resultType m.signature args [])
        return result.union (← types (type.resolveStatic static))) UnionType.empty

/-! ### New objects -/

/-- What the template placeholders of a class stand for, if all of them are known. -/
def templateArgs? (m : TemplateMap) (names : List String) : Option (List UnionType) :=
  names.mapM fun name => (m.get? name).filter fun u => !u.isEmpty

/-- The type of a new object of an existing class. Fails if there can be no such object. -/
def instantiate (v : Evaluator) (owner : ClassName) (how : Instantiation)
    (args : List CallArgument) (line : Nat) : AnalysisM TypeId := do
  let decl ← getClass owner
  if decl.isTrait then v.failWith .typeInstantiateTrait line [owner.text]
  else if decl.isInterface && how != .byObject then
    v.failWith .typeInstantiateInterface line [owner.text]
  else if decl.modifiers.isAbstract && how == .named then
    v.failWith .typeInstantiateAbstract line [owner.text]
  else if decl.templates.isEmpty then types (TypeM.classType owner)
  else
    let m ←
      match ← AnalysisM.findMethod owner "__construct" false with
      | .found constructor => types (bindArguments constructor.signature args)
      | _ => pure []
    match templateArgs? m decl.templates with
    | some templateArgs => types (TypeM.classTypeWith owner templateArgs)
    | none => types (TypeM.classType owner)

/-- The classes whose names are string literals of a type. -/
def literalClasses (u : UnionType) : AnalysisM (List ClassName) := do
  let names ← u.members.mapM fun id => do
    match (← query fun t => t.fetch id).kind with
    | .stringLiteral s => return some (QualifiedName.ofFullName s)
    | _ => return none
  return names.filterMap fun n => n

/-- A new object of the classes that an expression denotes. -/
def newByExpression (v : Evaluator) (n : Node) (owner : Child) (args : List CallArgument) :
    AnalysisM UnionType := do
  let classes ← v.classReference owner
  if classes.isEmpty then return .native .object
  else
    let named ← literalClasses (← v.visit owner)
    classes.foldlM (fun result name => do
      let how := if named.any name.sameClass then Instantiation.named else .byObject
      return result.insert (← v.instantiate name how args n.line)) UnionType.empty

/-- A new object of the class that a name denotes. -/
def newByName (v : Evaluator) (n name : Node) (args : List CallArgument) : AnalysisM UnionType := do
  let owner ← AnalysisM.classOfName v.context name
  if !(← hasClass owner) then v.failWith .undeclaredClassReference n.line [owner.text]
  else if (name.childStr? "name").any (Text.sameFolded "static") then
    let _ ← v.instantiate owner .static args n.line
    return .native .static
  else return .of (← v.instantiate owner .named args n.line)

/-- A new object. -/
def new (v : Evaluator) (n : Node) : AnalysisM UnionType := do
  let owner ← required n "class"
  let args ← v.arguments n
  match owner with
  | .node m =>
    if m.kind = .name then v.newByName n m args
    else if m.kind = .classDecl then return .native .object
    else v.newByExpression n owner args
  | _ => v.newByExpression n owner args

end Evaluator

end UnionInference
