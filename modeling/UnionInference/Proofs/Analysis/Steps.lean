import UnionInference.Analysis.Expression
import UnionInference.Proofs.Types.Recurrence

/-!
The steps that an evaluation takes. All work of an evaluation is put together from them, by doing one
thing after the other and by going on after a failure; so a property that each step has, and that is
kept in putting work together, holds of every evaluation.
-/

namespace UnionInference

namespace AnalysisM

/-- Work that is put together from the steps of an evaluation. -/
inductive Built : {α : Type} → AnalysisM α → Prop
  | pure {α : Type} (a : α) : Built (pure a)
  | bind {α β : Type} {p : AnalysisM α} {f : α → AnalysisM β} (hp : Built p)
      (hf : ∀ a, Built (f a)) : Built (p >>= f)
  | recover {α : Type} {p : AnalysisM α} {handle : Failure → AnalysisM α} (hp : Built p)
      (hf : ∀ f, Built (handle f)) : Built (recover p handle)
  | fail {α : Type} (f : Failure) : Built (fail f : AnalysisM α)
  | read : Built (read : AnalysisM Setup)
  | get : Built (get : AnalysisM World)
  | emit (i : Issue) : Built (emit i)
  | types {α : Type} {work : TypeM α} (h : TypeM.Recurs work) : Built (types work)
  | query {α : Type} (f : TypeTable → Checked α) : Built (query f)
  | hasClass (name : ClassName) : Built (hasClass name)
  | getClass (name : ClassName) : Built (getClass name)
  | method? (owner : ClassName) (name : String) : Built (base (CodeBase.method? owner name))
  | property? (owner : ClassName) (name : String) : Built (base (CodeBase.property? owner name))
  | constant? (owner : ClassName) (name : String) : Built (base (CodeBase.constant? owner name))
  | hasAncestor (u : UnionType) (owner : ClassName) : Built (hierarchy (u.hasAncestor owner))
  | isSubclassOf (child ancestor : ClassName) : Built (isSubclassOf child ancestor)
  | withScope (c : Context) (s : Scope) : Built (newContext fun w => w.withScope c s)
  | withVariables (c : Context) (vars : List (String × UnionType)) :
      Built (newContext fun w => w.withVariables c vars)
  | resolveOrCreateVariable (c : Context) (name : String) (line : Nat) :
      Built (resolveOrCreateVariable c name line)
  | keep (c : Context) (n : Node) (u : UnionType) : Built (keep c n u)

attribute [grind ←] Built.pure Built.bind Built.recover Built.fail Built.read Built.get Built.emit
  Built.types Built.query Built.hasClass Built.getClass Built.method? Built.property?
  Built.constant? Built.hasAncestor Built.isSubclassOf Built.resolveOrCreateVariable Built.keep

variable {α β : Type}

/-! ### Loops -/

namespace Built

@[grind ←]
theorem map (f : α → β) {p : AnalysisM α} (hp : Built p) : Built (f <$> p) :=
  hp.bind fun a => pure (f a)

@[grind ←]
theorem foldlM {f : β → α → AnalysisM β} (hf : ∀ b a, Built (f b a)) (as : List α) (b : β) :
    Built (as.foldlM f b) := by
  induction as generalizing b with
  | nil => exact pure b
  | cons a as ih => exact (hf b a).bind ih

@[grind ←]
theorem mapM {f : α → AnalysisM β} (hf : ∀ a, Built (f a)) (as : List α) : Built (as.mapM f) := by
  induction as with
  | nil => exact pure []
  | cons a as ih =>
    rw [List.mapM_cons]
    exact (hf a).bind fun b => ih.bind fun bs => pure (b :: bs)

@[grind ←]
theorem forM {f : α → AnalysisM Unit} (hf : ∀ a, Built (f a)) (as : List α) :
    Built (as.forM f) := by
  induction as with
  | nil => exact pure ()
  | cons a as ih => exact (hf a).bind fun _ => ih

@[grind ←]
theorem anyM {f : α → AnalysisM Bool} (hf : ∀ a, Built (f a)) (as : List α) :
    Built (as.anyM f) := by
  induction as with
  | nil => exact pure false
  | cons a as ih => exact (hf a).bind fun found => by cases found <;> grind [List.anyM]

@[grind ←]
theorem andM {p q : AnalysisM Bool} (hp : Built p) (hq : Built q) : Built (p <&&> q) :=
  hp.bind fun b => by cases b <;> grind

@[grind ←]
theorem orM {p q : AnalysisM Bool} (hp : Built p) (hq : Built q) : Built (p <||> q) :=
  hp.bind fun b => by cases b <;> grind

end Built

/-! ### Small steps -/

@[grind ←]
theorem built_report (c : Context) (kind : IssueKind) (line : Nat) (args : List String) :
    Built (report c kind line args) := Built.emit _

@[grind ←]
theorem built_failWith (c : Context) (kind : IssueKind) (line : Nat) (args : List String) :
    Built (failWith c kind line args : AnalysisM α) := Built.fail _

@[grind ←]
theorem built_unanalyzable (n : Node) (reason : String) :
    Built (unanalyzable n reason : AnalysisM α) := Built.fail _

@[grind ←]
theorem built_required (n : Node) (name : String) : Built (required n name) := by
  unfold required; grind

@[grind ←]
theorem built_options : Built options := Built.read.bind fun _ => .pure _

@[grind ←]
theorem built_codeBase : Built codeBase := Built.get.bind fun _ => .pure _

@[grind ←]
theorem built_scopeOf (c : Context) : Built (scopeOf c) := Built.get.bind fun _ => .pure _

@[grind ←]
theorem built_literalType (x : Scalar) : Built (literalType x) :=
  built_options.bind fun o => .types (UnionType.recurs_ofScalar x o)

@[grind ←]
theorem built_display (u : UnionType) : Built (display u) := by unfold display; grind

@[grind ←]
theorem built_narrow (c : Context) (holds : Bool) : Built (narrow c holds) := by
  unfold narrow
  exact Built.read.bind fun setup => .withVariables c _

/-! ### What names mean -/

@[grind ←]
theorem built_parentOf (c : Context) (owner : ClassName) (line : Nat) :
    Built (parentOf c owner line) := by unfold parentOf; grind

@[grind ←]
theorem built_classOfName (c : Context) (n : Node) : Built (classOfName c n) := by
  unfold classOfName; grind

@[grind ←]
theorem built_classListWith (c : Context) (missing : ClassName → IssueKind × Nat × List String)
    (u : UnionType) : Built (classListWith c missing u) := by unfold classListWith; grind

@[grind ←]
theorem built_addNamedClasses (u : UnionType) (found : List ClassName) :
    Built (addNamedClasses u found) := by unfold addNamedClasses; grind

@[grind ←]
theorem built_existingClass (c : Context) (name : ClassName) (line : Nat) :
    Built (existingClass c name line) := by unfold existingClass; grind

@[grind ←]
theorem built_receiverTemplates (u : UnionType) (owner : ClassName) :
    Built (receiverTemplates u owner) := by unfold receiverTemplates; grind

@[grind ←]
theorem built_canAccess (c : Context) (declaring owner : ClassName) (isPrivate : Bool) :
    Built (canAccess c declaring owner isPrivate) := by unfold canAccess; grind

@[grind ←]
theorem built_checkMethodAccess (c : Context) (m : Method) (line : Nat) :
    Built (checkMethodAccess c m line) := by unfold checkMethodAccess; grind

@[grind ←]
theorem built_checkPropertyAccess (c : Context) (p : Property) (line : Nat) :
    Built (checkPropertyAccess c p line) := by unfold checkPropertyAccess; grind

@[grind ←]
theorem built_findMethod (owner : ClassName) (name : String) (isStatic : Bool) :
    Built (findMethod owner name isStatic) := by unfold findMethod; grind

@[grind ←]
theorem built_resolveMethods (c : Context) (classes : List ClassName) (name : String)
    (isStatic : Bool) (receiver : UnionType) (line : Nat) :
    Built (resolveMethods c classes name isStatic receiver line) := by
  unfold resolveMethods
  cases classes with
  | nil => grind
  | cons first rest =>
    refine .bind (.foldlM (fun found owner => ?_) _ _) fun found => ?_
    · grind
    · grind

@[grind ←]
theorem built_findProperty (owner : ClassName) (name : String) (isStatic : Bool) :
    Built (findProperty owner name isStatic) := by unfold findProperty; grind

@[grind ←]
theorem built_resolveProperties (c : Context) (classes : List ClassName) (name : String)
    (isStatic : Bool) (line : Nat) : Built (resolveProperties c classes name isStatic line) := by
  unfold resolveProperties missingProperty; grind

@[grind ←]
theorem built_resolveFunction (c : Context) (n : Node) : Built (resolveFunction c n) := by
  unfold resolveFunction; grind

@[grind ←]
theorem built_resolveGlobal (c : Context) (n : Node) : Built (resolveGlobal c n) := by
  unfold resolveGlobal; grind

/-! ### Declared types -/

@[grind ←]
theorem built_declaredType (c : Context) (n : Node) : Built (declaredType c n) := by
  induction n using declaredType.induct with
  | case5 n hkind ih =>
    -- the types of a union are declared by the nodes in it
    rw [declaredType, hkind]
    exact .foldlM (fun result m => (ih m).bind fun u => .pure _) _ _
  | _ =>
    rw [declaredType]
    grind

@[grind ←]
theorem built_declaredTypeIn (c : Context) (n : Node) (slot : String) :
    Built (declaredTypeIn c n slot) := by unfold declaredTypeIn; grind

end AnalysisM

namespace Evaluator

open AnalysisM

variable (v : Evaluator) (n : Node)

@[grind ←]
theorem built_report (kind : IssueKind) (line : Nat) (args : List String) :
    Built (v.report kind line args) := AnalysisM.built_report _ _ _ _

@[grind ←]
theorem built_failWith {α : Type} (kind : IssueKind) (line : Nat) (args : List String) :
    Built (v.failWith kind line args : AnalysisM α) := AnalysisM.built_failWith _ _ _ _

/-! ### Operators -/

@[grind ←]
theorem built_isArray (u : UnionType) : Built (isArray u) := by unfold isArray; grind

@[grind ←]
theorem built_isScalar (u : UnionType) : Built (isScalar u) := by unfold isScalar; grind

@[grind ←]
theorem built_checkComparison (op : BinaryOp) (left right : UnionType) :
    Built (v.checkComparison n op left right) := by unfold checkComparison; grind

@[grind ←]
theorem built_bitwiseType (left : UnionType) : Built (bitwiseType left) := by
  unfold bitwiseType; grind

@[grind ←]
theorem built_arithmeticType (op : BinaryOp) (left right : UnionType) :
    Built (v.arithmeticType n op left right) := by unfold arithmeticType; grind

@[grind ←]
theorem built_operationType (op : BinaryOp) (left right : UnionType) :
    Built (v.operationType n op left right) := by unfold operationType; grind

@[grind ←]
theorem built_signedType (op : UnaryOp) (u : UnionType) : Built (signedType op u) := by
  unfold signedType intValue?; grind

/-! ### Arrays -/

@[grind ←]
theorem built_literalKey (key : Child) (type : UnionType) : Built (literalKey key type) := by
  refine built_options.bind fun o => ?_
  cases key <;> grind

@[grind ←]
theorem built_keyKindOf (u : UnionType) : Built (keyKindOf u) := by unfold keyKindOf; grind

@[grind ←]
theorem built_hasArrayAccess (u : UnionType) : Built (hasArrayAccess u) := by
  unfold hasArrayAccess; grind

@[grind ←]
theorem built_checkStringOffset (base index : UnionType) :
    Built (v.checkStringOffset n base index) := by unfold checkStringOffset; grind

@[grind ←]
theorem built_checkKey (base index : UnionType) (kind : KeyKind) :
    Built (v.checkKey n base index kind) := by unfold checkKey; grind

@[grind ←]
theorem built_checkIndex (base nonNull index : UnionType) :
    Built (v.checkIndex n base nonNull index) := by unfold checkIndex; grind

@[grind ←]
theorem built_indexShapes (base nonNull : UnionType) (index : Option (Child × UnionType)) :
    Built (v.indexShapes n base nonNull index) := by
  refine (Built.query _).bind fun otherArrays => ?_
  rcases index with _ | ⟨child, type⟩
  · exact .bind (.pure none) fun key => by cases key <;> grind
  · exact .bind (built_literalKey child type) fun key => by cases key <;> grind

/-! ### Members and calls -/

@[grind ←]
theorem built_isOpaque (u : UnionType) : Built (isOpaque u) := by unfold isOpaque; grind

@[grind ←]
theorem built_calleeResult (callee : UnionType) : Built (calleeResult callee) := by
  unfold calleeResult; grind

@[grind ←]
theorem recurs_bindArguments (x : Signature) (args : List CallArgument) :
    TypeM.Recurs (bindArguments x args) := by unfold bindArguments; grind

@[grind ←]
theorem recurs_resultType (x : Signature) (args : List CallArgument) (receiver : TemplateMap) :
    TypeM.Recurs (v.resultType x args receiver) := by unfold resultType; grind

@[grind ←]
theorem built_checkStaticCall (m : Method) (line : Nat) : Built (v.checkStaticCall m line) := by
  unfold checkStaticCall; grind

/-- An object of a class whose constructor was looked up. -/
theorem built_ofConstructor (owner : ClassName) (args : List CallArgument) (names : List String)
    (found : Resolution Method) : Built (do
      let m ←
        match found with
        | .found constructor => types (bindArguments constructor.signature args)
        | _ => pure []
      match templateArgs? m names with
      | some templateArgs => types (TypeM.classTypeWith owner templateArgs)
      | none => types (TypeM.classType owner)) := by
  cases found with
  | found m =>
    refine (Built.types (recurs_bindArguments _ _)).bind fun m => ?_
    dsimp only
    split <;> grind
  | _ =>
    refine (Built.pure _).bind fun m => ?_
    dsimp only
    split <;> grind

@[grind ←]
theorem built_instantiate (owner : ClassName) (how : Instantiation) (args : List CallArgument)
    (line : Nat) : Built (v.instantiate owner how args line) := by
  unfold instantiate
  refine (Built.getClass owner).bind fun decl => ?_
  split
  · grind
  split
  · grind
  split
  · grind
  split
  · grind
  exact (built_findMethod _ _ _).bind (built_ofConstructor owner args decl.templates)

@[grind ←]
theorem built_literalClasses (u : UnionType) : Built (literalClasses u) := by
  unfold literalClasses; grind

@[grind ←]
theorem built_newByName (name : Node) (args : List CallArgument) :
    Built (v.newByName n name args) := by unfold newByName; grind

/-! ### Names and functions as values -/

@[grind ←]
theorem built_variableUse : Built (v.variableUse n) := by unfold variableUse; grind

@[grind ←]
theorem built_className : Built (v.className n) := by unfold className; grind

@[grind ←]
theorem built_constant : Built (v.constant n) := by
  unfold constant
  split
  · exact built_unanalyzable _ _
  · -- the constants for truth and null have no declaration
    split
    · exact .pure _
    · exact .pure _
    · exact .pure _
    · exact (built_resolveGlobal _ _).bind fun _ => .pure _

@[grind ←]
theorem built_magicConst : Built (v.magicConst n) := by unfold magicConst classStringType; grind

@[grind ←]
theorem built_mayNameClass (u : UnionType) : Built (mayNameClass u) := by unfold mayNameClass; grind

@[grind ←]
theorem built_mayBeObject (u : UnionType) : Built (mayBeObject u) := by unfold mayBeObject; grind

@[grind ←]
theorem built_closureParam (p : Node) : Built (v.closureParam p) := by unfold closureParam; grind

@[grind ←]
theorem built_closureType (params : List CallableParam) (result : UnionType) :
    Built (closureType params result) := by unfold closureType; grind

@[grind ←]
theorem recurs_insideType (p : CallableParam) : TypeM.Recurs (insideType p) := by
  unfold insideType; grind

@[grind ←]
theorem built_arrowScope (params : List CallableParam) : Built (v.arrowScope n params) := by
  unfold arrowScope; grind

/-! ### Indexing in parts

The rule for indexing asks for shapes and for other arrays one after the other and goes on with what
they gave. It is the same work as these parts in a row. -/

/-- What shapes give under an index, if there are any. -/
def valuesOfShapes (base nonNull : UnionType) (index : Option (Child × UnionType))
    (hasShape : Bool) : AnalysisM UnionType :=
  if hasShape then v.indexShapes n base nonNull index else pure .empty

/-- What other arrays give under any index, if there are any. -/
def valuesOfArrays (others : UnionType) (hasArray : Bool) : AnalysisM UnionType :=
  if hasArray then query others.elementTypes else pure .empty

/-- Reports a base that may be null. -/
def reportNull (base nonNull : UnionType) : AnalysisM Unit := do
  if ← query base.admitsNull <&&> pure (!base.hasMixed) then
    v.report .typeArraySuspiciousNullable n.line [← display nonNull]

/-- Checks the index where there is one. -/
def checkIndex? (base nonNull : UnionType) (index : Option (Child × UnionType)) :
    AnalysisM Unit :=
  match index with
  | some (_, type) => v.checkIndex n base nonNull type
  | none => pure ()

/-- What indexing gives, put together from what the parts of a type give. -/
def dimResult (fromShapes fromArrays : UnionType) (hasString hasObject : Bool) : UnionType :=
  let result := (UnionType.empty.union fromShapes).union fromArrays
  let result := if hasString then result.insert NativeKind.string.id else result
  if hasObject then result.insert NativeKind.mixed.id else result

/-- Indexing a base of which something is known. -/
def dimKnown (base : UnionType) (index : Option (Child × UnionType)) : AnalysisM UnionType := do
  let nonNull ← types base.withoutNull
  let hasShape ← query nonNull.hasShape
  let fromShapes ← v.valuesOfShapes n base nonNull index hasShape
  let others ← query nonNull.withoutShapes
  let hasArray ← query others.hasArrayLike <||> pure others.hasMixed
  let fromArrays ← valuesOfArrays others hasArray
  let hasString ← query nonNull.hasStringLike
  let hasObject ← query nonNull.hasTemplate <||> hasArrayAccess nonNull
  if !hasShape && !hasArray && !hasString && !hasObject then
    v.failWith .typeArraySuspicious n.line [← display base]
  else do
    v.reportNull n base nonNull
    v.checkIndex? n base nonNull index
    return dimResult fromShapes fromArrays hasString hasObject

theorem ite_bind_congr {α β : Type} {p q : AnalysisM α} {f g : α → AnalysisM β} (c : Bool)
    (h : ∀ a, f a = g a) :
    (if c then p >>= f else q >>= f) = (if c then p else q) >>= g := by
  obtain rfl : f = g := funext h
  cases c <;> rfl

theorem dim_eq : v.dim n = (do
    let base ← v.visit (← required n "expr")
    let index ← v.indexType n
    if base.isEmpty then return .empty else v.dimKnown n base index) := by
  unfold dim
  refine bind_congr fun child => bind_congr fun base => bind_congr fun index => ?_
  split
  · rfl
  · refine bind_congr fun nonNull => bind_congr fun hasShape => ?_
    dsimp only
    refine ite_bind_congr hasShape fun fromShapes => ?_
    refine bind_congr fun others => bind_congr fun hasArray => ?_
    refine ite_bind_congr hasArray fun fromArrays => ?_
    refine bind_congr fun hasString => bind_congr fun hasObject => ?_
    split
    · rfl
    · refine Eq.trans (bind_congr fun yes => ?_) (bind_assoc ..).symm
      cases yes with
      | true => cases index <;> exact (bind_assoc ..).symm
      | false => cases index <;> rfl

@[grind ←]
theorem built_valuesOfShapes (base nonNull : UnionType) (index : Option (Child × UnionType))
    (hasShape : Bool) : Built (v.valuesOfShapes n base nonNull index hasShape) := by
  unfold valuesOfShapes; grind

@[grind ←]
theorem built_valuesOfArrays (others : UnionType) (hasArray : Bool) :
    Built (valuesOfArrays others hasArray) := by unfold valuesOfArrays; grind

@[grind ←]
theorem built_reportNull (base nonNull : UnionType) : Built (v.reportNull n base nonNull) := by
  unfold reportNull; grind

@[grind ←]
theorem built_checkIndex? (base nonNull : UnionType) (index : Option (Child × UnionType)) :
    Built (v.checkIndex? n base nonNull index) := by unfold checkIndex?; grind

theorem built_dimKnown (base : UnionType) (index : Option (Child × UnionType)) :
    Built (v.dimKnown n base index) := by
  unfold dimKnown
  refine (Built.types base.recurs_withoutNull).bind fun nonNull => (Built.query _).bind fun hasShape =>
    (built_valuesOfShapes v n base nonNull index hasShape).bind fun fromShapes => ?_
  grind

/-! ### Members in parts -/

/-- What the properties that were found are declared to hold, with what is known of the receiver. -/
def propResult (receiver : UnionType) (found : List Property) : AnalysisM UnionType :=
  found.foldlM (fun result p => do
    let m ← AnalysisM.receiverTemplates receiver p.name.owner
    let type ← types (p.type.substitute m)
    return result.union (← types (type.resolveStatic p.name.owner))) UnionType.empty

/-- The property of a receiver whose classes are known. -/
def propOf (name : String) (receiver : UnionType) (classes : List ClassName) :
    AnalysisM UnionType := do
  if classes.isEmpty then
    if ← isOpaque receiver then return .empty
    else v.failWith .typeExpectedObjectPropAccess n.line [← display receiver]
  else
    let found ← AnalysisM.resolveProperties v.context classes name false n.line
    return addNullIf (n.kind == .nullsafeProp) (← propResult receiver found)

/-- The property of a receiver. -/
def propKnown (name : String) (receiver : UnionType) : AnalysisM UnionType := do
  let receiver ← types receiver.withoutNull
  if receiver.isEmpty || receiver.hasMixed then return .empty
  else v.propOf n name receiver (← AnalysisM.classList v.context receiver n.line)

theorem prop_eq : v.prop n = (do
    let receiver ← v.visit (← required n "expr")
    match n.childStr? "prop" with
    | none => unanalyzable n "dynamic property name"
    | some name => v.propKnown n name receiver) := rfl

/-- The results of the methods that were found, with what is known of the receiver. -/
def methodResult (receiver : UnionType) (args : List CallArgument) (found : List Method) :
    AnalysisM UnionType :=
  found.foldlM (fun result m => do
    let templates ← AnalysisM.receiverTemplates receiver m.name.owner
    let type ← types (v.resultType m.signature args templates)
    return result.union (← types (type.resolveStatic m.name.owner))) UnionType.empty

/-- The result of a method of a receiver whose classes are known. -/
def methodOf (name : String) (receiver : UnionType) (args : List CallArgument)
    (classes : List ClassName) : AnalysisM UnionType := do
  if ← pure classes.isEmpty <&&> isOpaque receiver then return .empty
  else
    let found ← AnalysisM.resolveMethods v.context classes name false receiver n.line
    return addNullIf (n.kind == .nullsafeMethodCall)
      (← v.methodResult receiver args (found.filterMap Resolution.member?))

/-- The result of a method of a receiver. -/
def methodKnown (name : String) (receiver : UnionType) (args : List CallArgument) :
    AnalysisM UnionType := do
  let receiver ← types receiver.withoutNull
  if receiver.isEmpty || receiver.hasMixed then return .empty
  else
    v.methodOf n name receiver args (← AnalysisM.classListWith v.context
      (fun owner => (.undeclaredClassMethod, n.line, [name, owner.text])) receiver)

theorem methodCall_eq : v.methodCall n = (do
    let receiver ← v.visit (← required n "expr")
    let args ← v.arguments n
    match n.childStr? "method" with
    | none => unanalyzable n "dynamic method name"
    | some name => v.methodKnown n name receiver args) := rfl

/-- The results of the static methods that were found. -/
def staticResult (owner : Child) (args : List CallArgument) (found : List (Resolution Method)) :
    AnalysisM UnionType :=
  found.foldlM (fun result r => do
    match r with
    | .found m => v.checkStaticCall m n.line
    | _ => pure ()
    match r.member? with
    | none => return result
    | some m =>
      let static := (v.staticOwner? owner).getD m.name.owner
      let type ← types (v.resultType m.signature args [])
      return result.union (← types (type.resolveStatic static))) UnionType.empty

theorem staticCall_eq : v.staticCall n = (do
    let owner ← required n "class"
    let args ← v.arguments n
    match n.childStr? "method" with
    | none => unanalyzable n "dynamic static method name"
    | some name =>
      let classes ← v.classReference owner
      v.staticResult n owner args
        (← AnalysisM.resolveMethods v.context classes name true .empty n.line)) := rfl

@[grind ←]
theorem built_propResult (receiver : UnionType) (found : List Property) :
    Built (propResult receiver found) := by unfold propResult; grind

@[grind ←]
theorem built_methodResult (receiver : UnionType) (args : List CallArgument) (found : List Method) :
    Built (v.methodResult receiver args found) := by unfold methodResult; grind

@[grind ←]
theorem built_staticResult (owner : Child) (args : List CallArgument)
    (found : List (Resolution Method)) : Built (v.staticResult n owner args found) := by
  unfold staticResult
  refine .foldlM (fun result r => ?_) _ _
  grind

@[grind ←]
theorem built_propOf (name : String) (receiver : UnionType) (classes : List ClassName) :
    Built (v.propOf n name receiver classes) := by unfold propOf; grind

@[grind ←]
theorem built_propKnown (name : String) (receiver : UnionType) :
    Built (v.propKnown n name receiver) := by unfold propKnown AnalysisM.classList; grind

@[grind ←]
theorem built_methodOf (name : String) (receiver : UnionType) (args : List CallArgument)
    (classes : List ClassName) : Built (v.methodOf n name receiver args classes) := by
  unfold methodOf; grind

@[grind ←]
theorem built_methodKnown (name : String) (receiver : UnionType) (args : List CallArgument) :
    Built (v.methodKnown n name receiver args) := by unfold methodKnown; grind

/-- Looks at something on the side: an issue that it fails with is reported. -/
def aside (p : AnalysisM Unit) : AnalysisM Unit :=
  AnalysisM.recover p fun
    | .issue i => AnalysisM.emit i
    | .unanalyzable .. => pure ()

/-- After a failure on the side the work goes on, and at most an issue is reported. -/
theorem aside_failed {s : Setup} (f : Failure) (w : World) : ∃ log, (match f with
    | .issue i => AnalysisM.emit i
    | .unanalyzable .. => pure () : AnalysisM Unit) s w = .ok (.ok (), { w with issues := log }) := by
  cases f with
  | issue i => exact ⟨w.issues.add i, rfl⟩
  | unanalyzable node reason => exact ⟨w.issues, rfl⟩

/-- The test for the class that a child denotes. -/
def classTest (owner : Child) : AnalysisM UnionType := do
  match owner.node?.filter fun m => m.kind = .name with
  | some name =>
    aside do
      let owner ← AnalysisM.classOfName v.context name
      if !(← hasClass owner) then v.report .undeclaredClassInstanceof n.line [owner.text]
  | none =>
    let type ← v.visit owner
    if !(← mayNameClass type) then v.report .typeInvalidInstanceof n.line [← display type]
  return .native .bool

theorem instanceOf_eq : v.instanceOf n = (do
    v.visitForEffects (← required n "expr")
    v.classTest n (← required n "class")) := rfl

/-- Takes an arm of a match into account. -/
def addArm (result : UnionType) (arm : Node) : AnalysisM UnionType := do
  match arm.childNode? "cond" with
  | some conds => conds.list.forM v.visitForEffects
  | none => pure ()
  return result.union (← v.visit (← required arm "expr"))

theorem matchExpr_eq : v.matchExpr n = (do
    v.visitForEffects (← required n "cond")
    match n.childNode? "stmts" with
    | none => unanalyzable n "match without arms"
    | some arms => (arms.list.filterMap Child.node?).foldlM v.addArm UnionType.empty) := rfl

/-! ### Nodes

The work for a node is built of steps when the work for its children is. -/

variable (hrun : ∀ catching c child, Built (v.run catching c child))
include hrun

theorem built_visit (child : Child) : Built (v.visit child) := hrun _ _ _

theorem built_visitForEffects (child : Child) : Built (v.visitForEffects child) :=
  .recover ((built_visit v hrun child).bind fun _ => .pure ()) fun _ => .pure ()

theorem built_visitQuietly (child : Child) : Built (v.visitQuietly child) :=
  .recover (hrun _ _ _) fun _ => .pure _

theorem built_classReference (child : Child) : Built (v.classReference child) := by
  have hvisit := built_visit v hrun
  unfold Evaluator.classReference AnalysisM.classReference AnalysisM.classList
  cases child <;> grind

theorem built_operation (first second unknown : String) :
    Built (v.operation n first second unknown) := by
  have hvisit := built_visit v hrun
  have hquiet := built_visitQuietly v hrun
  unfold operation
  split
  · grind
  · grind

theorem built_unaryOp : Built (v.unaryOp n) := by
  have hvisit := built_visit v hrun
  unfold unaryOp
  split
  · grind
  · refine (built_required n "expr").bind fun child => (hvisit child).bind fun operand => ?_
    split <;> grind

theorem built_incDec : Built (v.incDec n) := by
  have hvisit := built_visit v hrun
  unfold incDec; grind

theorem built_cast : Built (v.cast n) := by
  have hvisit := built_visit v hrun
  unfold cast
  refine (built_required n "expr").bind fun child => (hvisit child).bind fun operand => ?_
  split <;> grind

theorem built_addUnpacked (element : Node) (keys : LiteralKeys) :
    Built (v.addUnpacked element keys) := by
  have hvisit := built_visit v hrun
  unfold addUnpacked
  refine (built_required element "expr").bind fun child => (hvisit child).bind fun unpacked => ?_
  grind

theorem built_addElement (element : Node) (keys : LiteralKeys) :
    Built (v.addElement element keys) := by
  have hvisit := built_visit v hrun
  have hunpacked := built_addUnpacked v hrun element keys
  unfold addElement
  split
  · exact hunpacked
  · refine (built_required element "value").bind fun child => (hvisit child).bind fun value => ?_
    split
    · exact .pure _
    · refine (hvisit _).bind fun type => (built_literalKey _ type).bind fun key => ?_
      cases key <;> grind

theorem built_arrayLiteral : Built (v.arrayLiteral n) := by
  have helement := built_addElement v hrun
  unfold arrayLiteral; grind

theorem built_indexType : Built (v.indexType n) := by
  have hvisit := built_visit v hrun
  unfold indexType; grind

theorem built_dim : Built (v.dim n) := by
  have hvisit := built_visit v hrun
  have hindex := built_indexType v n hrun
  rw [dim_eq]
  refine (built_required n "expr").bind fun child => (hvisit child).bind fun base =>
    hindex.bind fun index => ?_
  split
  · exact .pure _
  · exact built_dimKnown v n base index

theorem built_prop : Built (v.prop n) := by
  have hvisit := built_visit v hrun
  rw [prop_eq]; grind

theorem built_staticProp : Built (v.staticProp n) := by
  have hclass := built_classReference v hrun
  refine (built_required n "class").bind fun owner => ?_
  cases n.childStr? "prop" with
  | none => exact built_unanalyzable n _
  | some name => exact (hclass owner).bind fun classes => by grind

theorem built_argument (child : Child) : Built (v.argument child) := by
  have hvisit := built_visit v hrun
  unfold argument
  cases child <;> grind

theorem built_arguments : Built (v.arguments n) := by
  have hargument := built_argument v hrun
  unfold arguments; grind

theorem built_call : Built (v.call n) := by
  have hvisit := built_visit v hrun
  have hargs := built_arguments v n hrun
  unfold call; grind

theorem built_methodCall : Built (v.methodCall n) := by
  have hvisit := built_visit v hrun
  have hargs := built_arguments v n hrun
  rw [methodCall_eq]; grind

theorem built_staticCall : Built (v.staticCall n) := by
  have hclass := built_classReference v hrun
  have hargs := built_arguments v n hrun
  rw [staticCall_eq]; grind

theorem built_newByExpression (owner : Child) (args : List CallArgument) :
    Built (v.newByExpression n owner args) := by
  have hvisit := built_visit v hrun
  have hclass := built_classReference v hrun
  unfold newByExpression; grind

theorem built_new : Built (v.new n) := by
  have hexpression := built_newByExpression v n hrun
  have hargs := built_arguments v n hrun
  unfold new
  refine (built_required n "class").bind fun owner => hargs.bind fun args => ?_
  cases owner <;> grind

theorem built_classString (owner : Child) : Built (v.classString n owner) := by
  have heffects := built_visitForEffects v hrun
  unfold classString classStringType; cases owner <;> grind

theorem built_classConst : Built (v.classConst n) := by
  have hstring := built_classString v n hrun
  have hclass := built_classReference v hrun
  unfold classConst
  refine (built_required n "class").bind fun owner => ?_
  have hconstant : ∀ name, Built
      (AnalysisM.resolveClassConstant v.context v.visit owner name n.line) := by
    intro name
    unfold AnalysisM.resolveClassConstant
    refine (hclass owner).bind fun classes => ?_
    cases classes <;> grind
  split <;> grind

omit hrun in
theorem built_aside {p : AnalysisM Unit} (hp : Built p) : Built (aside p) :=
  .recover hp fun f => by cases f <;> grind

theorem built_classTest (owner : Child) : Built (v.classTest n owner) := by
  have hvisit := built_visit v hrun
  unfold classTest
  split
  · exact (built_aside (by grind)).bind fun _ => .pure _
  · grind

theorem built_instanceOf : Built (v.instanceOf n) := by
  have heffects := built_visitForEffects v hrun
  have htest := built_classTest v n hrun
  rw [instanceOf_eq]; grind

theorem built_clone : Built (v.clone n) := by
  have hvisit := built_visit v hrun
  unfold clone; grind

theorem built_knownConditional (holds : Bool) (cond : Child) (yes : Option Child) (no : Child) :
    Built (v.knownConditional holds cond yes no) := by
  have hvisit := built_visit v hrun
  have heffects := built_visitForEffects v hrun
  refine (hvisit cond).bind fun type => ?_
  cases holds <;> cases yes <;> grind

theorem built_conditional : Built (v.conditional n) := by
  have hvisit := built_visit v hrun
  refine (built_required n "cond").bind fun cond => (built_required n "false").bind fun no => ?_
  cases cond.truthiness? with
  | some holds => exact built_knownConditional v hrun holds cond _ no
  | none =>
    refine (built_narrow _ _).bind fun whenTrue => (built_narrow _ _).bind fun whenFalse =>
      (hvisit cond).bind fun type => ?_
    cases optional? n "true" with
    | some yes => exact (hrun _ _ yes).bind fun first => (hrun _ _ no).bind fun second => .pure _
    | none =>
      exact ((Built.types type.recurs_withoutNull).map _).bind fun first => (hrun _ _ no).bind fun second => .pure _

theorem built_addArm (result : UnionType) (arm : Node) : Built (v.addArm result arm) := by
  have hvisit := built_visit v hrun
  have heffects := built_visitForEffects v hrun
  unfold addArm
  cases arm.childNode? "cond" with
  | none => grind
  | some conds => exact (Built.forM heffects _).bind fun _ => by grind

theorem built_matchExpr : Built (v.matchExpr n) := by
  have heffects := built_visitForEffects v hrun
  have harm := built_addArm v hrun
  rw [matchExpr_eq]; grind

omit hrun in
theorem built_closure : Built (v.closure n) := by
  unfold closure; grind

theorem built_arrowFunction : Built (v.arrowFunction n) := by
  unfold arrowFunction visitIn
  refine (Built.mapM (fun p => built_closureParam v p) _).bind fun params => ?_
  split
  · grind
  · exact (built_arrowScope v n params).bind fun scope => (Built.withScope _ scope).bind fun inside =>
      (built_required n "stmts").bind fun child => (hrun _ _ _).bind fun u => built_closureType _ _

theorem built_effectsOf (slot : String) : Built (v.effectsOf n slot) := by
  have heffects := built_visitForEffects v hrun
  unfold effectsOf; grind

theorem built_node : Built (v.node n) := by
  have hvisit := built_visit v hrun
  have heffects := built_visitForEffects v hrun
  have hslot := built_effectsOf v n hrun
  unfold node
  cases n.kind with
  | «variable» => exact built_variableUse v n
  | name => exact built_className v n
  | constant => exact built_constant v n
  | classConst => exact built_classConst v n hrun
  | className => exact (built_required n _).bind fun owner => built_classString v n hrun owner
  | magicConst => exact built_magicConst v n
  | binaryOp => exact built_operation v n hrun "left" "right" _
  | unaryOp => exact built_unaryOp v n hrun
  | preInc | preDec | postInc | postDec => exact built_incDec v n hrun
  | assignOp => exact built_operation v n hrun "var" "expr" _
  | cast => exact built_cast v n hrun
  | instanceOf => exact built_instanceOf v n hrun
  | conditional => exact built_conditional v n hrun
  | array => exact built_arrayLiteral v n hrun
  | dim => exact built_dim v n hrun
  | prop | nullsafeProp => exact built_prop v n hrun
  | staticProp => exact built_staticProp v n hrun
  | call => exact built_call v n hrun
  | methodCall | nullsafeMethodCall => exact built_methodCall v n hrun
  | staticCall => exact built_staticCall v n hrun
  | new => exact built_new v n hrun
  | closure => exact built_closure v n
  | arrowFunc => exact built_arrowFunction v n hrun
  | clone => exact built_clone v n hrun
  | matchExpr => exact built_matchExpr v n hrun
  | _ => grind

end Evaluator

namespace AnalysisM

theorem built_evaluateNew {v : Evaluator}
    (hrun : ∀ catching c child, Built (v.run catching c child)) (n : Node) :
    Built (evaluateNew v n) := by
  have hnode := Evaluator.built_node v n hrun
  unfold evaluateNew
  refine .recover (hnode.bind fun _ => .keep _ _ _) fun f => ?_
  cases f <;> grind

/-- Every evaluation is built of the steps. -/
theorem built_evaluateWithin (levels : Nat) (catching : Bool) (c : Context) (child : Child) :
    Built (evaluateWithin levels catching c child) := by
  induction levels generalizing catching c child with
  | zero =>
    unfold evaluateWithin
    grind
  | succ levels ih =>
    have hnew := built_evaluateNew (v := ⟨c, catching, evaluateWithin levels⟩) ih
    unfold evaluateWithin
    cases child <;> grind

end AnalysisM

end UnionInference
