import UnionInference.Analysis.World
import UnionInference.Types.Template

/-!
Checks of what a program declares. A method must be usable wherever the method it overrides is, what
a function says it throws must be throwable, and the types that members declare must exist. The
checks report issues and change no type.
-/

namespace UnionInference

namespace TypeTable

set_option linter.unusedVariables false in
/-- Adds the classes named anywhere inside a type to those found so far. -/
def collectClasses (t : TypeTable) (found : List ClassName) (id : TypeId) :
    Checked (List ClassName) := do
  let ⟨ty, below⟩ ← t.fetchBelow id
  let found :=
    match ty.kind with
    | .object name _ => UnionType.addClass found name
    | _ => found
  ty.kind.embedded.attach.foldlM (fun found e => t.collectClasses found e.1) found
termination_by id
decreasing_by exact below _ e.2

end TypeTable

/-- The classes named anywhere inside a union, in the order in which they are met. -/
def UnionType.referencedClasses (u : UnionType) (t : TypeTable) : Checked (List ClassName) :=
  u.members.foldlM t.collectClasses []

/-! ### Methods as text -/

/-- A parameter as it is written in a message. -/
def Parameter.render (p : Parameter) (t : TypeTable) : Checked String := do
  let type ← p.type.display t
  return (if p.type.isEmpty then "" else type ++ " ") ++ (if p.marks.byRef then "&" else "") ++
    (if p.marks.variadic then "..." else "") ++ "$" ++ p.name ++
    (if p.hasDefault then " = default" else "")

/-- A method as it is written in a message. -/
def Method.render (m : Method) (t : TypeTable) : Checked String := do
  let params ← m.signature.params.mapM fun p => p.render t
  let result ← m.signature.result.display t
  return m.name.text ++ "(" ++ Text.join ", " params ++ ")" ++
    (if m.signature.result.isEmpty then "" else ": " ++ result)

namespace AnalysisM

/-- Reports an issue of a declaration. -/
def reportAt (l : Location) (kind : IssueKind) (args : List String) : AnalysisM Unit :=
  emit { file := l.file, line := l.line, kind, args }

/-! ### Overridden methods -/

/-- Whether a parameter accepts what the parameter that it overrides accepts. Unless the options
allow more, their types must be the same. -/
def acceptsParam (m : Method) (p : Parameter) (m' : Method) (p' : Parameter) :
    AnalysisM Bool := do
  let type ← types (p.type.resolveStatic m.name.owner)
  let type' ← types (p'.type.resolveStatic m'.name.owner)
  if type.same type' then return true
  else if !(← options).allowMethodParamTypeWidening then return false
  else if type.isEmpty then return true
  else hierarchy (type'.canCastExpanded type)

/-- Whether the parameters from place `i` on can stand for those that they override. -/
def acceptsParams (m m' : Method) : Nat → List Parameter → AnalysisM Bool
  | _, [] => return true
  | i, p' :: rest => do
    match m.signature.paramFor? i with
    | none => return false
    | some p =>
      if p.marks.byRef != p'.marks.byRef then return false
      else if p'.marks.variadic && !p.marks.variadic then return false
      else if ← acceptsParam m p m' p' then acceptsParams m m' (i + 1) rest
      else return false

/-- Whether the result of a method can stand for the result that it overrides. -/
def returnsCompatibly (m m' : Method) : AnalysisM Bool := do
  let result' ← types (m'.signature.result.resolveStatic m'.name.owner)
  if result'.isEmpty then return true
  else
    let result ← types (m.signature.result.resolveStatic m.name.owner)
    if result.isEmpty then return false else hierarchy (result.canCastExpanded result')

/-- Whether a method can be called wherever the method that it overrides is. -/
def isCompatible (m m' : Method) : AnalysisM Bool := do
  let takesRest := m.signature.params.getLast?.any fun p => p.marks.variadic
  if m.signature.params.length < m'.signature.params.length && !takesRest then return false
  else if m'.signature.requiredCount < m.signature.requiredCount then return false
  else if ← acceptsParams m m' 0 m'.signature.params then returnsCompatibly m m'
  else return false

/-- Checks that a method is at least as visible as the method that it overrides. -/
def checkVisibility (m m' : Method) (text text' : String) : AnalysisM Unit := do
  if m'.modifiers.rank < m.modifiers.rank then
    if m'.isInternal then reportAt m.location .accessSignatureMismatchInternal [text, text']
    else
      reportAt m.location .accessSignatureMismatch
        [text, text', m'.location.file, Text.decimalNat m'.location.line]

/-- Checks a method against the method that it overrides. Private methods are not overridden, and
constructors are free. -/
def checkOverride (m m' : Method) : AnalysisM Unit := do
  if m'.modifiers.isPrivate || Text.sameFolded m.name.name "__construct" then return
  else
    let text ← query m.render
    let text' ← query m'.render
    checkVisibility m m' text text'
    if !(← isCompatible m m') then
      if m'.isInternal then
        reportAt m.location .paramSignatureMismatchInternal [text, text', ""]
      else
        reportAt m.location .paramSignatureMismatch
          [text, text',
            " defined in " ++ m'.location.file ++ ":" ++ Text.decimalNat m'.location.line]

/-! ### What functions throw -/

/-- The interface that everything which can be thrown implements. -/
def throwable : ClassName := .ofFullName "\\Throwable"

/-- Checks a class that an element says it throws. -/
def checkThrownClass (element : String) (l : Location) (name : ClassName) : AnalysisM Unit := do
  if !(← hasClass name) then reportAt l .undeclaredTypeThrowsType [element, name.text]
  else
    let decl ← getClass name
    if decl.isTrait then reportAt l .typeInvalidThrowsIsTrait [element, name.text]
    else if name.sameClass throwable then return
    else
      let type ← types (TypeM.classType name)
      if !(← hierarchy ((UnionType.of type).hasAncestor throwable)) then
        let kind :=
          if decl.isInterface then IssueKind.typeInvalidThrowsIsInterface
          else .typeInvalidThrowsNonThrowable
        reportAt l kind [element, name.text]

/-- Checks the types that an element says it throws. -/
def checkThrows (element : String) (throws : UnionType) (l : Location) : AnalysisM Unit :=
  throws.members.forM fun id => do
    let ty ← query fun t => t.fetch id
    match ty.className? with
    | some name => checkThrownClass element l name
    | none =>
      if !ty.isObjectLike then
        reportAt l .typeInvalidThrowsNonObject [element, ← query fun t => t.typeKey id]

/-- Checks a function. -/
def checkFunction (f : FunctionDecl) : AnalysisM Unit :=
  checkThrows f.name.text f.signature.throws f.location

/-! ### Types of members -/

/-- Reports each class inside a type that does not exist. -/
def checkReferences (u : UnionType) (kind : IssueKind) (l : Location) (element : String) :
    AnalysisM Unit := do
  (← query u.referencedClasses).forM fun name => do
    if !(← hasClass name) then reportAt l kind [element, name.text]

/-- Checks the type that the comment of a class constant declares: without placeholders, of classes
that exist, and without objects. -/
def checkConstant (k : ClassConstant) : AnalysisM Unit := do
  if k.commentType.isEmpty then return
  else if ← query k.commentType.hasTemplate then
    reportAt k.location .templateTypeConstant [k.name.text]
  else
    checkReferences k.commentType .undeclaredTypeClassConstant k.location k.name.text
    if ← query k.commentType.hasObjectLike then
      reportAt k.location .commentObjectInClassConstantType
        [k.name.text, ← query k.commentType.display]

/-- Checks the type of a property. -/
def checkProperty (p : Property) : AnalysisM Unit :=
  checkReferences p.type .undeclaredTypeProperty p.location p.name.propertyText

/-! ### Classes -/

/-- Checks a method against the methods of the same name in the given classes, and what it throws.
-/
def checkMethod (ancestors : List ClassName) (m : Method) : AnalysisM Unit := do
  ancestors.forM fun ancestor => do
    match ← base (CodeBase.method? ancestor m.name.name) with
    | some overridden => checkOverride m overridden
    | none => pure ()
  checkThrows m.name.text m.signature.throws m.location

/-- Checks a class and the members that it declares itself. -/
def checkClass (name : ClassName) : AnalysisM Unit := do
  if ← hasClass name then
    let decl ← getClass name
    let own {μ : Type} [ClassMember μ] (ms : List μ) : List μ :=
      ms.filter fun m => !ClassMember.isInherited m
    (own (← base (CodeBase.methodsOf name))).forM
      (checkMethod (decl.parent.toList ++ decl.interfaces))
    (own (← base (CodeBase.constantsOf name))).forM checkConstant
    (own (← base (CodeBase.propertiesOf name))).forM checkProperty

end AnalysisM

end UnionInference
