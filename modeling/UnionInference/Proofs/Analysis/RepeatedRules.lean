import UnionInference.Proofs.Analysis.Repetition

/-!
The rules that evaluate nothing come again: what names mean, what is declared, and what becomes of
the types of operands, keys, receivers and arguments once these are known.
-/

namespace UnionInference

namespace AnalysisM

variable {α : Type} {c : Context} {s : Setup}

/-! ### Small steps -/

@[grind ←]
theorem repeats_report (d : Context) (kind : IssueKind) (line : Nat) (args : List String) :
    Repeats c s (report d kind line args) := .emit _

@[grind ←]
theorem repeats_failWith (d : Context) (kind : IssueKind) (line : Nat) (args : List String) :
    Repeats c s (failWith d kind line args : AnalysisM α) := .fail _

@[grind ←]
theorem repeats_unanalyzable (n : Node) (reason : String) :
    Repeats c s (unanalyzable n reason : AnalysisM α) := .fail _

@[grind ←]
theorem repeats_required (n : Node) (name : String) : Repeats c s (required n name) := by
  unfold required; grind

@[grind ←]
theorem repeats_options : Repeats c s options := Repeats.read.bind fun _ => .pure _

@[grind ←]
theorem repeats_literalType (x : Scalar) : Repeats c s (literalType x) :=
  repeats_options.bind fun o => .types (UnionType.recurs_ofScalar x o)

@[grind ←]
theorem repeats_display (u : UnionType) : Repeats c s (display u) := by unfold display; grind

/-! ### What names mean -/

@[grind ←]
theorem repeats_parentOf (d : Context) (owner : ClassName) (line : Nat) :
    Repeats c s (parentOf d owner line) := by unfold parentOf; grind

@[grind ←]
theorem repeats_classOfName (d : Context) (n : Node) : Repeats c s (classOfName d n) := by
  unfold classOfName; grind

@[grind ←]
theorem repeats_classListWith (d : Context) (missing : ClassName → IssueKind × Nat × List String)
    (u : UnionType) : Repeats c s (classListWith d missing u) := by unfold classListWith; grind

@[grind ←]
theorem repeats_addNamedClasses (u : UnionType) (found : List ClassName) :
    Repeats c s (addNamedClasses u found) := by unfold addNamedClasses; grind

@[grind ←]
theorem repeats_existingClass (d : Context) (name : ClassName) (line : Nat) :
    Repeats c s (existingClass d name line) := by unfold existingClass; grind

@[grind ←]
theorem repeats_receiverTemplates (u : UnionType) (owner : ClassName) :
    Repeats c s (receiverTemplates u owner) := by unfold receiverTemplates; grind

@[grind ←]
theorem repeats_canAccess (d : Context) (declaring owner : ClassName) (isPrivate : Bool) :
    Repeats c s (canAccess d declaring owner isPrivate) := by
  unfold canAccess
  split
  · exact .pure _
  split
  · exact .pure _
  refine .codeBase (fun b => ?_) fun b b₁ h => ?_
  · grind
  · rw [show b₁.class? = b.class? by funext q; rw [CodeBase.class?, CodeBase.class?, h.classes]]

@[grind ←]
theorem repeats_checkMethodAccess (d : Context) (m : Method) (line : Nat) :
    Repeats c s (checkMethodAccess d m line) := by unfold checkMethodAccess; grind

@[grind ←]
theorem repeats_checkPropertyAccess (d : Context) (p : Property) (line : Nat) :
    Repeats c s (checkPropertyAccess d p line) := by unfold checkPropertyAccess; grind

@[grind ←]
theorem repeats_findMethod (owner : ClassName) (name : String) (isStatic : Bool) :
    Repeats c s (findMethod owner name isStatic) := by unfold findMethod; grind

@[grind ←]
theorem repeats_resolveMethods (d : Context) (classes : List ClassName) (name : String)
    (isStatic : Bool) (receiver : UnionType) (line : Nat) :
    Repeats c s (resolveMethods d classes name isStatic receiver line) := by
  unfold resolveMethods
  cases classes with
  | nil => grind
  | cons first rest =>
    refine .bind (.foldlM (fun found owner => ?_) _ _) fun found => ?_
    · grind
    · grind

@[grind ←]
theorem repeats_findProperty (owner : ClassName) (name : String) (isStatic : Bool) :
    Repeats c s (findProperty owner name isStatic) := by unfold findProperty; grind

@[grind ←]
theorem repeats_resolveProperties (d : Context) (classes : List ClassName) (name : String)
    (isStatic : Bool) (line : Nat) :
    Repeats c s (resolveProperties d classes name isStatic line) := by
  unfold resolveProperties missingProperty; grind

@[grind ←]
theorem repeats_resolveFunction (d : Context) (n : Node) : Repeats c s (resolveFunction d n) := by
  unfold resolveFunction
  split
  · grind
  · refine .codeBase (fun b => ?_) fun b b₁ h => ?_
    · grind
    · rw [show b₁.function? = b.function? by
        funext q; rw [CodeBase.function?, CodeBase.function?, h.functions]]

@[grind ←]
theorem repeats_resolveGlobal (d : Context) (n : Node) : Repeats c s (resolveGlobal d n) := by
  unfold resolveGlobal
  split
  · grind
  · refine .codeBase (fun b => ?_) fun b b₁ h => ?_
    · grind
    · rw [show b₁.global? = b.global? by
        funext q; rw [CodeBase.global?, CodeBase.global?, h.globals]]

/-! ### Declared types -/

@[grind ←]
theorem repeats_declaredType (d : Context) (n : Node) : Repeats c s (declaredType d n) := by
  induction n using declaredType.induct with
  | case5 n hkind ih =>
    -- the types of a union are declared by the nodes in it
    rw [declaredType, hkind]
    exact .foldlM (fun result m => (ih m).bind fun u => .pure _) _ _
  | _ =>
    rw [declaredType]
    grind

@[grind ←]
theorem repeats_declaredTypeIn (d : Context) (n : Node) (slot : String) :
    Repeats c s (declaredTypeIn d n slot) := by unfold declaredTypeIn; grind

end AnalysisM

namespace Evaluator

open AnalysisM

variable {c : Context} {s : Setup} (v : Evaluator) (n : Node)

@[grind ←]
theorem repeats_report (kind : IssueKind) (line : Nat) (args : List String) :
    Repeats c s (v.report kind line args) := AnalysisM.repeats_report _ _ _ _

@[grind ←]
theorem repeats_failWith {α : Type} (kind : IssueKind) (line : Nat) (args : List String) :
    Repeats c s (v.failWith kind line args : AnalysisM α) := AnalysisM.repeats_failWith _ _ _ _

/-! ### Operators -/

@[grind ←]
theorem repeats_isArray (u : UnionType) : Repeats c s (isArray u) := by unfold isArray; grind

@[grind ←]
theorem repeats_isScalar (u : UnionType) : Repeats c s (isScalar u) := by unfold isScalar; grind

@[grind ←]
theorem repeats_checkComparison (op : BinaryOp) (left right : UnionType) :
    Repeats c s (v.checkComparison n op left right) := by unfold checkComparison; grind

@[grind ←]
theorem repeats_bitwiseType (left : UnionType) : Repeats c s (bitwiseType left) := by
  unfold bitwiseType; grind

@[grind ←]
theorem repeats_arithmeticType (op : BinaryOp) (left right : UnionType) :
    Repeats c s (v.arithmeticType n op left right) := by unfold arithmeticType; grind

@[grind ←]
theorem repeats_operationType (op : BinaryOp) (left right : UnionType) :
    Repeats c s (v.operationType n op left right) := by unfold operationType; grind

@[grind ←]
theorem repeats_intValue? (u : UnionType) : Repeats c s (intValue? u) := by
  unfold intValue?; grind

@[grind ←]
theorem repeats_signedType (op : UnaryOp) (u : UnionType) : Repeats c s (signedType op u) := by
  unfold signedType; grind

/-! ### Arrays -/

@[grind ←]
theorem repeats_literalKey (key : Child) (type : UnionType) :
    Repeats c s (literalKey key type) := by
  refine repeats_options.bind fun o => ?_
  cases key <;> grind

@[grind ←]
theorem repeats_keyKindOf (u : UnionType) : Repeats c s (keyKindOf u) := by unfold keyKindOf; grind

@[grind ←]
theorem repeats_hasArrayAccess (u : UnionType) : Repeats c s (hasArrayAccess u) := by
  unfold hasArrayAccess; grind

@[grind ←]
theorem repeats_checkStringOffset (base index : UnionType) :
    Repeats c s (v.checkStringOffset n base index) := by unfold checkStringOffset; grind

@[grind ←]
theorem repeats_checkKey (base index : UnionType) (kind : KeyKind) :
    Repeats c s (v.checkKey n base index kind) := by unfold checkKey; grind

@[grind ←]
theorem repeats_checkIndex (base nonNull index : UnionType) :
    Repeats c s (v.checkIndex n base nonNull index) := by unfold checkIndex; grind

@[grind ←]
theorem repeats_indexShapes (base nonNull : UnionType) (index : Option (Child × UnionType)) :
    Repeats c s (v.indexShapes n base nonNull index) := by
  refine (Repeats.query _).bind fun otherArrays => ?_
  rcases index with _ | ⟨child, type⟩
  · exact .bind (.pure none) fun key => by cases key <;> grind
  · exact .bind (repeats_literalKey child type) fun key => by cases key <;> grind

@[grind ←]
theorem repeats_valuesOfShapes (base nonNull : UnionType) (index : Option (Child × UnionType))
    (hasShape : Bool) : Repeats c s (v.valuesOfShapes n base nonNull index hasShape) := by
  unfold valuesOfShapes; grind

@[grind ←]
theorem repeats_valuesOfArrays (others : UnionType) (hasArray : Bool) :
    Repeats c s (valuesOfArrays others hasArray) := by unfold valuesOfArrays; grind

@[grind ←]
theorem repeats_reportNull (base nonNull : UnionType) :
    Repeats c s (v.reportNull n base nonNull) := by unfold reportNull; grind

@[grind ←]
theorem repeats_checkIndex? (base nonNull : UnionType) (index : Option (Child × UnionType)) :
    Repeats c s (v.checkIndex? n base nonNull index) := by unfold checkIndex?; grind

theorem repeats_dimKnown (base : UnionType) (index : Option (Child × UnionType)) :
    Repeats c s (v.dimKnown n base index) := by
  unfold dimKnown
  refine (Repeats.types base.recurs_withoutNull).bind fun nonNull => (Repeats.query _).bind
    fun hasShape => (repeats_valuesOfShapes v n base nonNull index hasShape).bind
    fun fromShapes => ?_
  grind

/-! ### Members and calls -/

@[grind ←]
theorem repeats_isOpaque (u : UnionType) : Repeats c s (isOpaque u) := by unfold isOpaque; grind

@[grind ←]
theorem repeats_calleeResult (callee : UnionType) : Repeats c s (calleeResult callee) := by
  unfold calleeResult; grind

@[grind ←]
theorem repeats_checkStaticCall (m : Method) (line : Nat) :
    Repeats c s (v.checkStaticCall m line) := by unfold checkStaticCall; grind

theorem repeats_objectType (owner : ClassName) (m : TemplateMap) (names : List String) :
    Repeats c s (match templateArgs? m names with
      | some templateArgs => types (TypeM.classTypeWith owner templateArgs)
      | none => types (TypeM.classType owner)) := by split <;> grind

@[grind ←]
theorem repeats_instantiate (owner : ClassName) (how : Instantiation) (args : List CallArgument)
    (line : Nat) : Repeats c s (v.instantiate owner how args line) := by
  unfold instantiate
  refine (Repeats.getClass owner).bind fun decl => ?_
  split
  · grind
  split
  · grind
  split
  · grind
  split
  · grind
  refine (repeats_findMethod _ _ _).bind fun found => ?_
  cases found with
  | found m =>
    exact (Repeats.types (recurs_bindArguments _ _)).bind fun m => repeats_objectType owner m _
  | _ => exact (Repeats.pure _).bind fun m => repeats_objectType owner m _

@[grind ←]
theorem repeats_propResult (receiver : UnionType) (found : List Property) :
    Repeats c s (propResult receiver found) := by unfold propResult; grind

@[grind ←]
theorem repeats_propKnown (name : String) (receiver : UnionType) :
    Repeats c s (v.propKnown n name receiver) := by
  unfold propKnown propOf AnalysisM.classList; grind

@[grind ←]
theorem repeats_methodResult (receiver : UnionType) (args : List CallArgument)
    (found : List Method) : Repeats c s (v.methodResult receiver args found) := by
  unfold methodResult; grind

@[grind ←]
theorem repeats_methodKnown (name : String) (receiver : UnionType) (args : List CallArgument) :
    Repeats c s (v.methodKnown n name receiver args) := by
  unfold methodKnown methodOf; grind

@[grind ←]
theorem repeats_staticResult (owner : Child) (args : List CallArgument)
    (found : List (Resolution Method)) : Repeats c s (v.staticResult n owner args found) := by
  unfold staticResult
  refine .foldlM (fun result r => ?_) _ _
  grind

@[grind ←]
theorem repeats_literalClasses (u : UnionType) : Repeats c s (literalClasses u) := by
  unfold literalClasses; grind

@[grind ←]
theorem repeats_newByName (name : Node) (args : List CallArgument) :
    Repeats c s (v.newByName n name args) := by unfold newByName; grind

/-! ### Names and functions as values -/

@[grind ←]
theorem repeats_className : Repeats c s (v.className n) := by unfold className; grind

@[grind ←]
theorem repeats_constant : Repeats c s (v.constant n) := by
  unfold constant
  split
  · exact repeats_unanalyzable _ _
  · -- the constants for truth and null have no declaration
    split
    · exact .pure _
    · exact .pure _
    · exact .pure _
    · exact (repeats_resolveGlobal _ _).bind fun _ => .pure _

@[grind ←]
theorem repeats_magicConst : Repeats c s (v.magicConst n) := by
  unfold magicConst classStringType; grind

@[grind ←]
theorem repeats_mayNameClass (u : UnionType) : Repeats c s (mayNameClass u) := by
  unfold mayNameClass; grind

@[grind ←]
theorem repeats_mayBeObject (u : UnionType) : Repeats c s (mayBeObject u) := by
  unfold mayBeObject; grind

@[grind ←]
theorem repeats_closureParam (p : Node) : Repeats c s (v.closureParam p) := by
  unfold closureParam; grind

@[grind ←]
theorem repeats_closureType (params : List CallableParam) (result : UnionType) :
    Repeats c s (closureType params result) := by unfold closureType; grind

end Evaluator

end UnionInference
