import UnionInference.Analysis.Operator
import UnionInference.Analysis.Arrays
import UnionInference.Analysis.Access
import UnionInference.Analysis.Declared

/-!
Expressions and their types. There is a rule for each kind of node; the type of a node is kept, so
that evaluating it again gives the same answer and reports nothing twice. An issue fails the node it
arises at: it is either reported there, and nothing is known of the node, or it fails the whole
expression. Expressions that nest too deeply are not looked into.
-/

namespace UnionInference

/-- How deeply expressions may nest. -/
def maxExpressionDepth : Nat := 500

namespace Evaluator

open AnalysisM (query types display hasClass unanalyzable)

/-! ### Names and constants -/

/-- A variable. -/
def variableUse (v : Evaluator) (n : Node) : AnalysisM UnionType :=
  match n.childStr? "name" with
  | none => unanalyzable n "dynamic variable name"
  | some name => AnalysisM.resolveOrCreateVariable v.context name n.line

/-- A class name as a value. -/
def className (v : Evaluator) (n : Node) : AnalysisM UnionType := do
  let name ← AnalysisM.classOfName v.context n
  return .of (← types (TypeM.classType name))

/-- A constant. -/
def constant (v : Evaluator) (n : Node) : AnalysisM UnionType := do
  match n.childNode? "name" with
  | none => unanalyzable n "constant without a name"
  | some name =>
    match Text.fold ((name.childStr? "name").getD "") with
    | "true" => return .native .true
    | "false" => return .native .false
    | "null" => return .native .null
    | _ => return (← AnalysisM.resolveGlobal v.context name).type

/-- The string that names a class. -/
def classStringType (name : ClassName) : AnalysisM UnionType :=
  literalType (.string name.classString)

/-- The name of a class as a string. -/
def classString (v : Evaluator) (n : Node) (owner : Child) : AnalysisM UnionType := do
  match owner with
  | .node m =>
    if m.kind = .name then classStringType (← AnalysisM.classOfName v.context m)
    else
      v.visitForEffects owner
      return .native .string
  | _ => unanalyzable n "class name is not an expression"

/-- A constant of a class. -/
def classConst (v : Evaluator) (n : Node) : AnalysisM UnionType := do
  let owner ← required n "class"
  match n.childStr? "const" with
  | none => unanalyzable n "dynamic class constant name"
  | some name =>
    if Text.sameFolded name "class" then v.classString n owner
    else
      let found ← AnalysisM.resolveClassConstant v.context v.visit owner name n.line
      return found.foldl (fun u k => u.union k.type) .empty

/-- A constant that depends on where it stands. -/
def magicConst (v : Evaluator) (n : Node) : AnalysisM UnionType := do
  match MagicConst.ofCode? n.flags with
  | some .lineConst => literalType (.int n.line)
  | some .classConst =>
    match v.context.owner with
    | some owner => classStringType owner
    | none => return .native .string
  | some .namespaceConst =>
    literalType (.string (String.ofList (v.context.space.toList.dropWhile isSeparator)))
  | some _ => return .native .string
  | none => unanalyzable n "unknown magic constant"

/-! ### Objects -/

/-- Whether a value of a type may name a class or be an object. -/
def mayNameClass (u : UnionType) : AnalysisM Bool :=
  pure (u.isEmpty || u.hasMixed) <||> query u.hasObjectLike <||> query u.hasStringLike <||>
    query u.hasTemplate

/-- A test whether a value belongs to a class. The class is looked at on the side. -/
def instanceOf (v : Evaluator) (n : Node) : AnalysisM UnionType := do
  v.visitForEffects (← required n "expr")
  let owner ← required n "class"
  match owner.node?.filter fun m => m.kind = .name with
  | some name =>
    AnalysisM.recover
      (do
        let owner ← AnalysisM.classOfName v.context name
        if !(← hasClass owner) then v.report .undeclaredClassInstanceof n.line [owner.text])
      fun
        | .issue i => AnalysisM.emit i
        | .unanalyzable .. => pure ()
  | none =>
    let type ← v.visit owner
    if !(← mayNameClass type) then v.report .typeInvalidInstanceof n.line [← display type]
  return .native .bool

/-- Whether a value of a type may be copied. -/
def mayBeObject (u : UnionType) : AnalysisM Bool :=
  pure (u.isEmpty || u.hasMixed) <||> query u.hasObjectLike <||> query u.hasTemplate

/-- A copy of an object. -/
def clone (v : Evaluator) (n : Node) : AnalysisM UnionType := do
  let operand ← v.visit (← required n "expr")
  if ← mayBeObject operand then return operand
  else v.failWith .typeInvalidCloneNotObject n.line [← display operand]

/-! ### Choices -/

/-- A choice whose condition is known. The arm that is not taken is evaluated for its issues. -/
def knownConditional (v : Evaluator) (holds : Bool) (cond : Child) (yes : Option Child)
    (no : Child) : AnalysisM UnionType := do
  let type ← v.visit cond
  match holds, yes with
  | true, some yes =>
    v.visitForEffects no
    v.visit yes
  | true, none =>
    v.visitForEffects no
    return type
  | false, some yes =>
    v.visitForEffects yes
    v.visit no
  | false, none => v.visit no

/-- A choice between two values. -/
def conditional (v : Evaluator) (n : Node) : AnalysisM UnionType := do
  let cond ← required n "cond"
  let yes := optional? n "true"
  let no ← required n "false"
  match cond.truthiness? with
  | some holds => v.knownConditional holds cond yes no
  | none =>
    let whenTrue ← AnalysisM.narrow v.context true
    let whenFalse ← AnalysisM.narrow v.context false
    let type ← v.visit cond
    let first ←
      match yes with
      | some yes => v.visitIn whenTrue yes
      | none => (fun u => u.erase NativeKind.false.id) <$> types type.withoutNull
    let second ← v.visitIn whenFalse no
    let result := first.union second
    return if first.isEmpty != second.isEmpty then result.insert NativeKind.mixed.id else result

/-- A match over arms. -/
def matchExpr (v : Evaluator) (n : Node) : AnalysisM UnionType := do
  v.visitForEffects (← required n "cond")
  match n.childNode? "stmts" with
  | none => unanalyzable n "match without arms"
  | some arms =>
    (arms.list.filterMap Child.node?).foldlM (fun result arm => do
      match arm.childNode? "cond" with
      | some conds => conds.list.forM v.visitForEffects
      | none => pure ()
      return result.union (← v.visit (← required arm "expr"))) UnionType.empty

/-! ### Functions as values -/

/-- A parameter of a function value. -/
def closureParam (v : Evaluator) (p : Node) : AnalysisM CallableParam := do
  let marks := ParamMarks.ofBits p.flags
  let type ← AnalysisM.declaredTypeIn v.context p "type"
  return { type, byRef := marks.byRef, variadic := marks.variadic
           optional := marks.variadic || (optional? p "default").isSome }

/-- The nodes of the parameters of a function value. -/
def paramNodes (n : Node) : List Node :=
  match n.childNode? "params" with
  | some ps => ps.list.filterMap Child.node?
  | none => []

/-- The type of a function value. -/
def closureType (params : List CallableParam) (result : UnionType) : AnalysisM UnionType := do
  return .of (← types (TypeM.intern (.callable { isClosure := true, params, result }) false))

/-- A closure. -/
def closure (v : Evaluator) (n : Node) : AnalysisM UnionType := do
  let params ← (paramNodes n).mapM v.closureParam
  closureType params (← AnalysisM.declaredTypeIn v.context n "returnType")

/-- The type that a parameter has inside the function. -/
def insideType (p : CallableParam) : TypeM UnionType :=
  if p.variadic then
    if p.type.isEmpty then pure (.native .array) else p.type.asArrays .int
  else pure p.type

/-- The scope of a function that is given by one expression: the variables around it and its
parameters. -/
def arrowScope (v : Evaluator) (n : Node) (params : List CallableParam) : AnalysisM Scope := do
  let outer ← AnalysisM.scopeOf v.context
  let copied := outer.variables.toList.foldl (fun s e => s.add e.1 e.2) Scope.function
  ((paramNodes n).zip params).foldlM (fun s (p, param) => do
    match p.childStr? "name" with
    | some name => return s.add name (← types (insideType param))
    | none => return s) copied

/-- A function that is given by one expression. Without a declared result its result is the type of
the expression. -/
def arrowFunction (v : Evaluator) (n : Node) : AnalysisM UnionType := do
  let params ← (paramNodes n).mapM v.closureParam
  match n.childNode? "returnType" with
  | some type => closureType params (← AnalysisM.declaredType v.context type)
  | none =>
    let scope ← v.arrowScope n params
    let isStatic := (Modifiers.ofBits n.flags).isStatic
    let inside ← AnalysisM.newContext fun w =>
      w.withScope { v.context with enclosing := some .closure, isStatic } scope
    closureType params (← v.visitIn inside (← required n "stmts"))

/-! ### All kinds of node -/

/-- Evaluates the child in a slot for its issues, if it is there. -/
def effectsOf (v : Evaluator) (n : Node) (slot : String) : AnalysisM Unit :=
  match optional? n slot with
  | some child => v.visitForEffects child
  | none => pure ()

/-- The type of a node. -/
def node (v : Evaluator) (n : Node) : AnalysisM UnionType := do
  match n.kind with
  | .variable => v.variableUse n
  | .name => v.className n
  | .constant => v.constant n
  | .classConst => v.classConst n
  | .className => v.classString n (← required n "class")
  | .magicConst => v.magicConst n
  | .binaryOp => v.binaryOp n
  | .unaryOp => v.unaryOp n
  | .preInc | .preDec | .postInc | .postDec => v.incDec n
  | .assign | .assignRef => v.visit (← required n "expr")
  | .assignOp => v.assignOp n
  | .cast => v.cast n
  | .instanceOf => v.instanceOf n
  | .conditional => v.conditional n
  | .array => v.arrayLiteral n
  | .dim => v.dim n
  | .prop | .nullsafeProp => v.prop n
  | .staticProp => v.staticProp n
  | .call => v.call n
  | .methodCall | .nullsafeMethodCall => v.methodCall n
  | .staticCall => v.staticCall n
  | .new => v.new n
  | .closure => v.closure n
  | .arrowFunc => v.arrowFunction n
  | .typeHint | .nullableType | .typeUnion => AnalysisM.declaredType v.context n
  | .isset | .empty => return .native .bool
  | .clone => v.clone n
  | .yieldExpr =>
    v.effectsOf n "value"
    v.effectsOf n "key"
    return .mixed
  | .yieldFrom | .includeExpr =>
    v.visitForEffects (← required n "expr")
    return .mixed
  | .print =>
    v.visitForEffects (← required n "expr")
    return .native .int
  | .encaps =>
    (n.list.filter fun c => c.node?.isSome).forM v.visitForEffects
    return .native .string
  | .shellExec =>
    v.visitForEffects (← required n "expr")
    return .native .string
  | .matchExpr => v.matchExpr n
  | .throwExpr | .exit =>
    v.effectsOf n "expr"
    return .empty
  | _ => unanalyzable n "not an expression"

end Evaluator

namespace AnalysisM

/-- Keeps the type of a node. -/
def keep (c : Context) (n : Node) (u : UnionType) : AnalysisM UnionType := do
  modify fun w => w.remember c n.id u
  return u

/-- The type of a node that was not evaluated before. -/
def evaluateNew (v : Evaluator) (n : Node) : AnalysisM UnionType :=
  recover (do keep v.context n (← v.node n)) fun
    | .unanalyzable .. => keep v.context n .empty
    | .issue i =>
      if v.catching then do
        emit i
        keep v.context n .empty
      else fail (.issue i)

/-- The type of a child, with a number of levels left. -/
def evaluateWithin : Nat → Bool → Context → Child → AnalysisM UnionType
  | levels, catching, c, child =>
    match child with
    | .node n => do
      match ((← get).cacheOf c)[n.id]? with
      | some u => return u
      | none =>
        match levels with
        | 0 => return .empty
        | k + 1 => evaluateNew ⟨c, catching, evaluateWithin k⟩ n
    | child => literalType ((child.scalar?).getD .null)

/-- The evaluator of expressions in a context, which reports issues as they arise. -/
def evaluator (c : Context) : Evaluator := ⟨c, true, evaluateWithin maxExpressionDepth⟩

/-- The type of a child. An issue fails it if issues are not caught. -/
def typeOf (catching : Bool) (c : Context) (child : Child) : AnalysisM UnionType :=
  evaluateWithin maxExpressionDepth catching c child

/-- The type of a child; issues are reported. -/
def evaluate (c : Context) (child : Child) : AnalysisM UnionType :=
  recover (typeOf true c child) fun _ => pure .empty

end AnalysisM

end UnionInference
