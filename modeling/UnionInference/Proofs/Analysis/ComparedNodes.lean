import UnionInference.Proofs.Analysis.ComparedCalls

/-!
Expressions in evaluations that are compared. The rule for each kind of node comes to the same types on
both sides, if its children do; so both sides give every expression the same type, as deeply as it is
looked into.
-/

namespace UnionInference

open TypeM (SameRegular)

namespace Evaluator

open AnalysisM

variable (v : Evaluator) (n : Node)

/-! ### What one of several adds to a result -/

/-- What a property is declared to hold, with what is known of the receiver. -/
def propType (receiver : UnionType) (p : Property) : AnalysisM UnionType := do
  let m ← receiverTemplates receiver p.name.owner
  let type ← types (p.type.substitute m)
  types (type.resolveStatic p.name.owner)

theorem propResult_eq (receiver : UnionType) (found : List Property) : propResult receiver found =
    found.foldlM (fun result p => result.union <$> propType receiver p) .empty := by
  simp only [propResult, propType, map_eq_pure_bind, bind_assoc]

/-- The result of a method, with what is known of the receiver. -/
def methodType (receiver : UnionType) (args : List CallArgument) (m : Method) :
    AnalysisM UnionType := do
  let templates ← receiverTemplates receiver m.name.owner
  let type ← types (v.resultType m.signature args templates)
  types (type.resolveStatic m.name.owner)

theorem methodResult_eq (receiver : UnionType) (args : List CallArgument) (found : List Method) :
    v.methodResult receiver args found =
      found.foldlM (fun result m => result.union <$> v.methodType receiver args m) .empty := by
  simp only [methodResult, methodType, map_eq_pure_bind, bind_assoc]

/-- The result of a method that is called on a class. -/
def staticType (owner : Child) (args : List CallArgument) (m : Method) : AnalysisM UnionType := do
  let type ← types (v.resultType m.signature args [])
  types (type.resolveStatic ((v.staticOwner? owner).getD m.name.owner))

/-- What a method that was looked for on a class comes to. -/
def staticTypeOf (owner : Child) (args : List CallArgument) :
    Resolution Method → AnalysisM UnionType
  | .notFound => return .empty
  | .found m => do
    v.checkStaticCall m n.line
    v.staticType owner args m
  | .viaMagic m => v.staticType owner args m

theorem staticResult_eq (owner : Child) (args : List CallArgument)
    (found : List (Resolution Method)) : v.staticResult n owner args found =
      found.foldlM (fun result y => result.union <$> v.staticTypeOf n owner args y) .empty := by
  refine congrArg (found.foldlM · UnionType.empty) (funext₂ fun result y => ?_)
  cases y with
  | notFound => rfl
  | found m | viaMagic m =>
    simp only [staticTypeOf, staticType, map_eq_pure_bind, bind_assoc, Resolution.member?]

/-- A new object of a class that an expression denotes, by its name or by an object. -/
def newType (args : List CallArgument) (named : List ClassName) (name : ClassName) :
    AnalysisM UnionType :=
  UnionType.of <$> v.instantiate name (if named.any name.sameClass then .named else .byObject) args
    n.line

theorem newByExpression_eq (owner : Child) (args : List CallArgument) :
    v.newByExpression n owner args = (do
      let classes ← v.classReference owner
      if classes.isEmpty then return .native .object
      else
        let named ← literalClasses (← v.visit owner)
        classes.foldlM (fun result name => result.union <$> v.newType n args named name)
          .empty) := by
  simp only [newByExpression, newType, map_eq_pure_bind, bind_assoc, pure_bind]
  rfl

@[grind ←]
theorem built_newType (args : List CallArgument) (named : List ClassName) (name : ClassName) :
    Built (v.newType n args named name) := by unfold newType; grind

@[grind ←]
theorem repeats_newType {c : Context} {s : Setup} (args : List CallArgument)
    (named : List ClassName) (name : ClassName) : Repeats c s (v.newType n args named name) := by
  unfold newType; grind

@[grind ←]
theorem built_propType (receiver : UnionType) (p : Property) : Built (propType receiver p) := by
  unfold propType; grind

@[grind ←]
theorem repeats_propType {c : Context} {s : Setup} (receiver : UnionType) (p : Property) :
    Repeats c s (propType receiver p) := by unfold propType; grind

@[grind ←]
theorem built_methodType (receiver : UnionType) (args : List CallArgument) (m : Method) :
    Built (v.methodType receiver args m) := by unfold methodType; grind

@[grind ←]
theorem repeats_methodType {c : Context} {s : Setup} (receiver : UnionType)
    (args : List CallArgument) (m : Method) : Repeats c s (v.methodType receiver args m) := by
  unfold methodType; grind

@[grind ←]
theorem built_staticTypeOf (owner : Child) (args : List CallArgument) (y : Resolution Method) :
    Built (v.staticTypeOf n owner args y) := by
  cases y <;> simp only [staticTypeOf, staticType] <;> grind

@[grind ←]
theorem repeats_staticTypeOf {c : Context} {s : Setup} (owner : Child)
    (args : List CallArgument) (y : Resolution Method) :
    Repeats c s (v.staticTypeOf n owner args y) := by
  cases y <;> simp only [staticTypeOf, staticType] <;> grind

end Evaluator

namespace Comparison

open AnalysisM Evaluator TypeM

variable {r : Regime} {x : Comparison r} {root child : Child} {ok : Child → Prop} {e : Evaluator}
  {n : Node} {α β : Type} {A : α → β → Prop} {u v : UnionType}

/-- Children are evaluated alike on both sides. -/
structure Tallying (x : Comparison r) (root : Child) (ok : Child → Prop) (e : Evaluator) : Prop where
  reporting : e = Evaluator.reporting x.context e.run
  closed : Child.Closed ok
  fits : ∀ child, ok child → child.Fits r
  built : ∀ catching c child, Built (e.run catching c child)
  echoing : Echoing root x.context x.setup x.context.cache ok e.run e.run
  same : ∀ child, ok child →
    x.Tallies (x.left.SameTypes x.right) (e.visit child) (e.visit child)

/-- Whether a value may be an object is seen alike on both sides. -/
theorem mayBeObject (huv : x.left.SameTypes x.right u v) :
    x.Tallies Eq (Evaluator.mayBeObject u) (Evaluator.mayBeObject v) := by
  unfold Evaluator.mayBeObject
  rw [UnionType.Matches.isEmpty_eq huv, x.siblings.hasMixed_eq huv]
  exact (Tallies.pure rfl).orM (by grind)
    ((Tallies.any huv .isObjectLike).orM (by grind) (.any huv .isTemplate))

/-- Whether a value may name a class is seen alike on both sides. -/
theorem mayNameClass (huv : x.left.SameTypes x.right u v) :
    x.Tallies Eq (Evaluator.mayNameClass u) (Evaluator.mayNameClass v) := by
  unfold Evaluator.mayNameClass
  rw [UnionType.Matches.isEmpty_eq huv, x.siblings.hasMixed_eq huv]
  exact (Tallies.pure rfl).orM (by grind) ((Tallies.any huv .isObjectLike).orM (by grind)
    ((Tallies.any huv .isStringLike).orM (by grind) (.any huv .isTemplate)))

/-- What a choice between two values may be. -/
theorem sameTypes_choice {u' v' : UnionType} (h : x.left.SameTypes x.right u v)
    (h' : x.left.SameTypes x.right u' v') : x.left.SameTypes x.right
      (if u.isEmpty != u'.isEmpty then (u.union u').insert NativeKind.mixed.id else u.union u')
      (if v.isEmpty != v'.isEmpty then (v.union v').insert NativeKind.mixed.id else v.union v') := by
  rw [UnionType.Matches.isEmpty_eq h, UnionType.Matches.isEmpty_eq h']
  split
  · exact x.siblings.insert_native (h.union h') .mixed
  · exact h.union h'

/-! ### Names and constants -/

theorem className (he : e.context = x.context) (hn : n.Fits r) (hkind : n.kind = .name) :
    x.Tallies (x.left.SameTypes x.right) (e.className n) (e.className n) := by
  unfold Evaluator.className
  rw [he]
  refine (Tallies.classOfName hn hkind).bind (by grind) fun p q hpq => ?_
  obtain ⟨rfl, hregular⟩ := hpq
  exact (Tallies.types (tallies_classType x.siblings ⟨rfl, hregular, hregular⟩)).bind
    (by grind) fun _ _ hij => .pure (.of hij)

theorem constant (he : e.context = x.context) :
    x.Tallies (x.left.SameTypes x.right) (e.constant n) (e.constant n) := by
  unfold Evaluator.constant
  split
  · exact .fail _ _
  split
  · exact .pure (x.siblings.sameTypes_native .true)
  · exact .pure (x.siblings.sameTypes_native .false)
  · exact .pure (x.siblings.sameTypes_native .null)
  · rw [he]
    refine (Tallies.resolveGlobal _).bind ⟨(repeats_resolveGlobal _ _).proceeds,
      (repeats_resolveGlobal _ _).proceeds, fun _ => .pure _, fun _ => .pure _⟩
      fun k k' hk => .pure ?_
    rw [← hk.1]
    exact sameTypes_of_inside hk.2

theorem magicConst (he : e.context = x.context) :
    x.Tallies (x.left.SameTypes x.right) (e.magicConst n) (e.magicConst n) := by
  have hstring : x.Tallies (x.left.SameTypes x.right) (pure (.native .string))
      (pure (.native .string)) := .pure (x.siblings.sameTypes_native .string)
  unfold Evaluator.magicConst
  rw [he]
  split
  · exact .literalType _
  · split
    · exact .literalType _
    · exact hstring
  · exact .literalType _
  · exact hstring
  · exact .fail _ _

/-! ### Members -/

/-- The class that a static type stands for is that of the context, or that of the member. -/
theorem sameRegular_staticOwner (he : e.context = x.context) (child : Child) {p q : ClassName}
    (h : SameRegular p q) :
    SameRegular ((e.staticOwner? child).getD p) ((e.staticOwner? child).getD q) := by
  cases howner : e.staticOwner? child with
  | none => exact h
  | some owner =>
    rw [staticOwner?, he] at howner
    split at howner
    · exact sameRegular_owner howner
    · cases howner

theorem propType (huv : x.left.SameTypes x.right u v) {k k' : Property}
    (hk : SameProperty x.start.types k k') :
    x.Tallies (x.left.SameTypes x.right) (Evaluator.propType u k) (Evaluator.propType v k') := by
  unfold Evaluator.propType
  refine (Tallies.receiverTemplates huv hk.owner.same).bind (by grind) fun m m' hm => ?_
  rw [hk.type]
  refine (Tallies.types (UnionType.tallies_substitute x.siblings (sameTypes_of_inside hk.inside)
    hm)).bind (by grind) fun a b hab => ?_
  exact .types (UnionType.tallies_resolveStatic x.siblings hab hk.owner)

theorem propResult (huv : x.left.SameTypes x.right u v) {found found' : List Property}
    (hfound : Matched (SameProperty x.start.types) found found') :
    x.Tallies (x.left.SameTypes x.right) (Evaluator.propResult u found)
      (Evaluator.propResult v found') := by
  rw [propResult_eq, propResult_eq]
  exact .foldlM_union (fun _ _ => rfl) (fun _ _ => rfl) hfound (by grind)
    fun _ _ _ _ hk => propType huv hk

theorem newType (e : Evaluator) {args args' : List CallArgument}
    (hargs : List.Forall₂ (CallArgument.Same r x.left x.right) args args')
    {named named' : List ClassName} (hnamed : Matched Eq named named') {p q : ClassName}
    (hpq : SameRegular p q) : x.Tallies (x.left.SameTypes x.right) (e.newType n args named p)
      (e.newType n args' named' q) := by
  have hhow : named.any p.sameClass = named'.any q.sameClass := hnamed.any_eq fun a _ b _ hab => by
    rw [hab, QualifiedName.sameClass, QualifiedName.sameClass, hpq.same]
  unfold Evaluator.newType
  rw [hhow]
  exact (Tallies.instantiate e hpq.same _ hargs n.line).map (by grind) fun _ _ => .of

theorem propKnown (e : Evaluator) (he : e.context = x.context) (name : String)
    (huv : x.left.SameTypes x.right u v) :
    x.Tallies (x.left.SameTypes x.right) (e.propKnown n name u) (e.propKnown n name v) := by
  unfold Evaluator.propKnown
  rw [he]
  refine (Tallies.withoutNull huv).bind (by grind [classList]) fun a b hab => ?_
  rw [UnionType.Matches.isEmpty_eq hab, x.siblings.hasMixed_eq hab]
  split
  · exact .pure .empty
  refine (Tallies.classListWith hab _).bind (by grind) fun classes classes' hclasses => ?_
  unfold propOf
  rw [hclasses.isEmpty_eq, he]
  split
  · refine (Tallies.isOpaque hab).bind (by grind) fun unknown _ hunknown => ?_
    cases hunknown
    split
    · exact .pure .empty
    · exact (Tallies.display _ _).bind (by grind) fun _ _ _ => .fail _ _
  · refine (Tallies.resolveProperties hclasses name false n.line).bind (by grind)
      fun found found' hfound => ?_
    exact (propResult hab hfound).bind (by grind)
      fun _ _ hresult => .pure (sameTypes_addNullIf hresult _)

theorem methodType (e : Evaluator) (huv : x.left.SameTypes x.right u v)
    {args args' : List CallArgument}
    (hargs : List.Forall₂ (CallArgument.Same r x.left x.right) args args') {m m' : Method}
    (hm : SameMethod r x.start.types m m') :
    x.Tallies (x.left.SameTypes x.right) (e.methodType u args m) (e.methodType v args' m') := by
  unfold Evaluator.methodType
  refine (Tallies.receiverTemplates huv hm.owner.same).bind (by grind) fun m₁ m₁' hm₁ => ?_
  rw [hm.signature]
  refine (Tallies.types (tallies_resultType x.siblings e hm.sound hargs hm₁)).bind (by grind)
    fun a b hab => ?_
  exact .types (UnionType.tallies_resolveStatic x.siblings hab hm.owner)

theorem methodResult (e : Evaluator) (huv : x.left.SameTypes x.right u v)
    {args args' : List CallArgument}
    (hargs : List.Forall₂ (CallArgument.Same r x.left x.right) args args')
    {found found' : List Method} (hfound : Matched (SameMethod r x.start.types) found found') :
    x.Tallies (x.left.SameTypes x.right) (e.methodResult u args found)
      (e.methodResult v args' found') := by
  rw [methodResult_eq, methodResult_eq]
  exact .foldlM_union (fun _ _ => rfl) (fun _ _ => rfl) hfound (by grind)
    fun _ _ _ _ hm => methodType e huv hargs hm

theorem methodKnown (e : Evaluator) (he : e.context = x.context) (name : String)
    (huv : x.left.SameTypes x.right u v) {args args' : List CallArgument}
    (hargs : List.Forall₂ (CallArgument.Same r x.left x.right) args args') :
    x.Tallies (x.left.SameTypes x.right) (e.methodKnown n name u args)
      (e.methodKnown n name v args') := by
  unfold Evaluator.methodKnown
  rw [he]
  refine (Tallies.withoutNull huv).bind (by grind) fun a b hab => ?_
  rw [UnionType.Matches.isEmpty_eq hab, x.siblings.hasMixed_eq hab]
  split
  · exact .pure .empty
  refine (Tallies.classListWith hab _).bind (by grind) fun classes classes' hclasses => ?_
  unfold methodOf
  rw [hclasses.isEmpty_eq, he]
  refine ((Tallies.pure rfl).andM (by grind) (Tallies.isOpaque hab)).bind (by grind)
      fun unknown _ hunknown => ?_
  cases hunknown
  split
  · exact .pure .empty
  refine (Tallies.resolveMethods hclasses name false n.line).bind (by grind)
      fun found found' hfound => ?_
  refine (methodResult e hab hargs ?_).bind (by grind)
      fun _ _ hresult => .pure (sameTypes_addNullIf hresult _)
  exact hfound.filterMap fun _ _ _ _ h => h.member?

theorem staticType (e : Evaluator) (he : e.context = x.context) (owner : Child)
    {args args' : List CallArgument}
    (hargs : List.Forall₂ (CallArgument.Same r x.left x.right) args args') {m m' : Method}
    (hm : SameMethod r x.start.types m m') :
    x.Tallies (x.left.SameTypes x.right) (e.staticType owner args m)
      (e.staticType owner args' m') := by
  unfold Evaluator.staticType
  rw [hm.signature]
  refine (Tallies.types (tallies_resultType x.siblings e hm.sound hargs
    TemplateMap.sameMap_nil)).bind (by grind) fun a b hab => ?_
  exact .types (UnionType.tallies_resolveStatic x.siblings hab
    (sameRegular_staticOwner he owner hm.owner))

theorem staticResult (e : Evaluator) (he : e.context = x.context) (owner : Child)
    {args args' : List CallArgument}
    (hargs : List.Forall₂ (CallArgument.Same r x.left x.right) args args')
    {found found' : List (Resolution Method)}
    (hfound : Matched (Resolution.Rel (SameMethod r x.start.types)) found found') :
    x.Tallies (x.left.SameTypes x.right) (e.staticResult n owner args found)
      (e.staticResult n owner args' found') := by
  rw [staticResult_eq, staticResult_eq]
  refine .foldlM_union (fun _ _ => rfl) (fun _ _ => rfl) hfound (by grind) fun y _ z _ hyz => ?_
  cases hyz with
  | notFound => exact .pure .empty
  | found hm =>
    exact (Tallies.checkStaticCall e he hm n.line).bind
      ⟨by grind, by grind, by grind [Evaluator.staticType], by grind [Evaluator.staticType]⟩
      fun _ _ _ => staticType e he owner hargs hm
  | viaMagic hm => exact staticType e he owner hargs hm

namespace Tallying

variable (h : x.Tallying root ok e)
include h

theorem context : e.context = x.context := by
  rw [h.reporting]
  rfl

/-! ### Children -/

theorem proceeds_visit (hchild : ok child) : x.Proceeds (e.visit child) := by
  rw [h.reporting]
  exact (echoes_visit h.echoing hchild).proceeds

theorem proceeds_visitForEffects (hchild : ok child) : x.Proceeds (e.visitForEffects child) := by
  rw [h.reporting]
  exact (echoes_visitForEffects h.echoing hchild).proceeds

/-- A child is evaluated first. -/
theorem visit (hchild : ok child) {f : UnionType → AnalysisM α} {g : UnionType → AnalysisM β}
    (hs : (∀ u, Built (f u)) ∧ ∀ v, Built (g v))
    (hfg : ∀ u v, x.left.SameTypes x.right u v → x.Tallies A (f u) (g v)) :
    x.Tallies A (e.visit child >>= f) (e.visit child >>= g) :=
  (h.same child hchild).bind ⟨h.proceeds_visit hchild, h.proceeds_visit hchild, hs⟩ hfg

/-- A child that must be there is evaluated first. -/
theorem visitRequired (hn : ∀ p ∈ n.children, ok p.2) {name : String}
    {f : UnionType → AnalysisM α} {g : UnionType → AnalysisM β}
    (hs : (∀ u, Built (f u)) ∧ ∀ v, Built (g v))
    (hfg : ∀ u v, x.left.SameTypes x.right u v → x.Tallies A (f u) (g v)) :
    x.Tallies A (required n name >>= fun child => e.visit child >>= f)
      (required n name >>= fun child => e.visit child >>= g) :=
  .required fun _ hc => h.visit (NodeOf.ok_child? hn hc) hs hfg

theorem visitForEffects (hchild : ok child) :
    x.Tallies (fun _ _ => True) (e.visitForEffects child) (e.visitForEffects child) :=
  .recover (h.visit hchild (by grind)
    fun _ _ _ => .pure trivial) trivial (fun _ w => ⟨w.issues, rfl⟩)
    fun _ w => ⟨w.issues, rfl⟩

/-- A child is evaluated for its issues first. -/
theorem effects (hchild : ok child) {f : Unit → AnalysisM α} {g : Unit → AnalysisM β}
    (hs : (∀ a, Built (f a)) ∧ ∀ b, Built (g b)) (hfg : ∀ a b, x.Tallies A (f a) (g b)) :
    x.Tallies A (e.visitForEffects child >>= f) (e.visitForEffects child >>= g) :=
  (h.visitForEffects hchild).bind ⟨h.proceeds_visitForEffects hchild,
    h.proceeds_visitForEffects hchild, hs⟩ fun a b _ => hfg a b

/-! ### Operators -/

theorem operation (hn : ∀ p ∈ n.children, ok p.2) (first second unknown : String)
    (hop : BinaryOp.ofCode? n.flags ≠ some .coalesce) :
    x.Tallies (x.left.SameTypes x.right) (e.operation n first second unknown)
      (e.operation n first second unknown) := by
  have hvisit := built_visit e h.built
  unfold Evaluator.operation
  cases ho : BinaryOp.ofCode? n.flags with
  | none => exact .fail _ _
  | some op =>
    refine .required fun left hl => .required fun right hr => ?_
    split
    · next hcoalesce => exact absurd (ho.trans (congrArg some hcoalesce)) hop
    · refine h.visit (NodeOf.ok_child? hn hl) (by grind) fun u v huv => ?_
      refine h.visit (NodeOf.ok_child? hn hr) (by grind) fun u' v' huv' => ?_
      exact .operationType e op huv huv'

theorem unaryOp (hn : ∀ p ∈ n.children, ok p.2) :
    x.Tallies (x.left.SameTypes x.right) (e.unaryOp n) (e.unaryOp n) := by
  unfold Evaluator.unaryOp
  cases UnaryOp.ofCode? n.flags with
  | none => exact .fail _ _
  | some op =>
    refine h.visitRequired hn (by cases op <;> grind) fun u v huv => ?_
    cases op with
    | boolNot => exact .pure (x.siblings.sameTypes_native .bool)
    | bitwiseNot =>
      refine (Tallies.all huv .isStringLike).bind (by grind) fun text _ htext => ?_
      cases htext
      split
      · exact .pure (x.siblings.sameTypes_native .string)
      · exact .pure (x.siblings.sameTypes_native .int)
    | silence => exact .pure huv
    | minus | plus => exact .signedType _ huv

theorem incDec (hn : ∀ p ∈ n.children, ok p.2) :
    x.Tallies (x.left.SameTypes x.right) (e.incDec n) (e.incDec n) := by
  unfold Evaluator.incDec
  refine h.visitRequired hn (by grind) fun u v huv => ?_
  refine (Tallies.all huv .isIntLike).bind (by grind) fun whole _ hwhole => ?_
  cases hwhole
  split
  · exact .pure (x.siblings.sameTypes_native .int)
  refine (Tallies.all huv (.isNative .float)).bind (by grind) fun float _ hfloat => ?_
  cases hfloat
  split
  · exact .pure (x.siblings.sameTypes_native .float)
  · exact .types (UnionType.tallies_widenLiterals x.siblings huv)

theorem cast (hn : ∀ p ∈ n.children, ok p.2) :
    x.Tallies (x.left.SameTypes x.right) (e.cast n) (e.cast n) := by
  have hnative (k : NativeKind) : x.Tallies (x.left.SameTypes x.right) (pure (.native k))
      (pure (.native k)) := .pure (x.siblings.sameTypes_native k)
  unfold Evaluator.cast
  refine h.visitRequired hn ⟨fun _ => by split <;> grind, fun _ => by split <;> grind⟩
      fun u v huv => ?_
  split
  · exact .fail _ _
  · exact hnative .null
  · exact hnative .bool
  · exact hnative .int
  · exact hnative .float
  · exact hnative .string
  · refine (Tallies.isArray huv).bind (by grind) fun array _ harray => ?_
    cases harray
    split
    · exact .withoutNull huv
    · exact hnative .array
  · refine (Tallies.all huv .isObjectLike).bind (by grind) fun object _ hobject => ?_
    cases hobject
    split
    · exact .pure huv
    · exact (Tallies.types (tallies_classType x.siblings
        ⟨rfl, regular_stdClass, regular_stdClass⟩)).bind (by grind) fun _ _ hij => .pure (.of hij)

theorem clone (hn : ∀ p ∈ n.children, ok p.2) :
    x.Tallies (x.left.SameTypes x.right) (e.clone n) (e.clone n) := by
  unfold Evaluator.clone
  refine h.visitRequired hn (by grind) fun u v huv => ?_
  refine (mayBeObject huv).bind (by grind) fun object _ hobject => ?_
  cases hobject
  split
  · exact .pure huv
  · exact (Tallies.display u v).bind (by grind) fun _ _ _ => .fail _ _

/-! ### Arrays -/

theorem addUnpacked (hn : ∀ p ∈ n.children, ok p.2) {k k' : LiteralKeys}
    (hk : LiteralKeys.Same x.left x.right k k') :
    x.Tallies (LiteralKeys.Same x.left x.right) (e.addUnpacked n k) (e.addUnpacked n k') := by
  unfold Evaluator.addUnpacked
  refine h.visitRequired hn (by grind) fun u v huv => ?_
  rw [UnionType.Matches.isEmpty_eq huv, x.siblings.hasMixed_eq huv]
  have hmixed := hk.addSpread .int (x.siblings.sameTypes_native .mixed)
  split
  · exact .pure hmixed
  refine (Tallies.any huv (Outward.isIterableLike.comp₂ .isObjectLike (· || ·))).bind
    (by grind) fun iterable _ hiterable => ?_
  cases hiterable
  split
  · exact (Tallies.display u v).bind (by grind) fun _ _ _ =>
      (Tallies.emit _ _).bind (by grind) fun _ _ _ => .pure hmixed
  obtain ⟨kind, hkind, hkind'⟩ := huv.keyKind_eq
  refine (Tallies.query (A := fun a b => a = b ∧ a = kind)
    ⟨kind, kind, hkind, hkind', rfl, rfl⟩).bind (by grind) fun kind _ hsame => ?_
  obtain ⟨rfl, -⟩ := hsame
  refine Tallies.options.bind (by grind) fun o _ ho => ?_
  cases ho
  have hvalues : x.Tallies (LiteralKeys.Same x.left x.right)
      (do
        let values ← AnalysisM.query u.iterableValues
        return k.addSpread (if o.allowStringKeyUnpack then kind.getD .int else .int) values.orMixed)
      (do
        let values ← AnalysisM.query v.iterableValues
        return k'.addSpread (if o.allowStringKeyUnpack then kind.getD .int else .int)
          values.orMixed) :=
    (Tallies.query (x.siblings.iterableValues huv)).bind (by grind) fun _ _ hvalues =>
      .pure (hk.addSpread _ (x.siblings.orMixed hvalues))
  dsimp only
  split
  · exact (Tallies.display u v).bind (by grind) fun _ _ _ =>
      (Tallies.emit _ _).bind (by grind) fun _ _ _ => hvalues
  · exact hvalues

theorem addElement (hn : ∀ p ∈ n.children, ok p.2) {k k' : LiteralKeys}
    (hk : LiteralKeys.Same x.left x.right k k') :
    x.Tallies (LiteralKeys.Same x.left x.right) (e.addElement n k) (e.addElement n k') := by
  have hvisit := built_visit e h.built
  unfold Evaluator.addElement
  split
  · exact h.addUnpacked hn hk
  refine h.visitRequired hn (by cases optional? n "key" <;> grind) fun u v huv => ?_
  · cases hc : optional? n "key" with
    | none =>
      rw [hk.next]
      exact .pure (hk.addKnown x.siblings
        (fun i hi => by cases hi; exact hk.next ▸ hk.isInteger) huv)
    | some child =>
      have hchild := NodeOf.ok_child? hn (child?_of_optional? hc)
      refine h.visit hchild (by grind) fun u' v' huv' => ?_
      refine (Tallies.literalKey (h.fits child hchild) huv').bind (by grind) fun key _ hkey => ?_
      obtain ⟨rfl, hbound⟩ := hkey
      cases key with
      | some key => exact .pure (hk.addKnown x.siblings (hbound key rfl) huv)
      | none =>
        refine (Tallies.keyKindOf huv').bind (by grind) fun kind _ hkind => ?_
        cases hkind
        exact .pure (hk.addUnknown x.siblings kind huv)

theorem arrayLiteral (hn : ∀ p ∈ n.children, ok p.2) :
    x.Tallies (x.left.SameTypes x.right) (e.arrayLiteral n) (e.arrayLiteral n) := by
  have helement := built_addElement e h.built
  have hproceeds (keys : LiteralKeys) : ∀ m ∈ n.list.filterMap Child.node?,
      x.Proceeds (e.addElement m keys) := fun m hm => by
    rw [h.reporting]
    exact (echoes_addElement h.echoing (h.closed.node m (NodeOf.ok_listNode hn hm)) keys).proceeds
  unfold Evaluator.arrayLiteral
  refine Tallies.bind (A := LiteralKeys.Same x.left x.right) ?_
    ⟨.foldlM hproceeds _, .foldlM hproceeds _, by grind, by grind⟩ fun k k' hk => .literalArray hk
  exact .foldlM .start (fun k k' => ⟨hproceeds k, hproceeds k', fun m => helement m k,
    fun m => helement m k'⟩) fun k k' m hm hk =>
      h.addElement (h.closed.node m (NodeOf.ok_listNode hn hm)) hk

/-- The index of an access. -/
theorem indexType (hn : ∀ p ∈ n.children, ok p.2) :
    x.Tallies x.SameIndex (e.indexType n) (e.indexType n) := by
  unfold Evaluator.indexType
  cases hc : optional? n "dim" with
  | none => exact .pure .none
  | some child =>
    have hchild := NodeOf.ok_child? hn (child?_of_optional? hc)
    exact h.visit hchild (by grind) fun u v huv => .pure (.some ⟨rfl, h.fits child hchild, huv⟩)

theorem proceeds_indexType (hn : ∀ p ∈ n.children, ok p.2) : x.Proceeds (e.indexType n) := by
  rw [h.reporting]
  exact (echoes_indexType h.echoing hn).proceeds

theorem dim (hn : ∀ p ∈ n.children, ok p.2) :
    x.Tallies (x.left.SameTypes x.right) (e.dim n) (e.dim n) := by
  have hindex := built_indexType e n h.built
  have hknown := built_dimKnown e n
  rw [dim_eq]
  refine h.visitRequired hn (by grind) fun u v huv => ?_
  refine (h.indexType hn).bind ⟨h.proceeds_indexType hn, h.proceeds_indexType hn, by grind,
    by grind⟩ fun index index' hindex => ?_
  rw [UnionType.Matches.isEmpty_eq huv]
  split
  · exact .pure .empty
  · exact .dimKnown e huv hindex

/-! ### Members -/

theorem proceeds_classReference (hchild : ok child) : x.Proceeds (e.classReference child) := by
  rw [h.reporting]
  exact (echoes_classReference h.echoing hchild).proceeds

theorem classReference (hchild : ok child) {f : List ClassName → AnalysisM α}
    {g : List ClassName → AnalysisM β}
    (hs : (∀ ps, Built (f ps)) ∧ ∀ qs, Built (g qs))
    (hfg : ∀ ps qs, Matched SameRegular ps qs → x.Tallies A (f ps) (g qs)) :
    x.Tallies A (e.classReference child >>= f) (e.classReference child >>= g) := by
  have hsame :
      x.Tallies (Matched SameRegular) (e.classReference child) (e.classReference child) := by
    unfold Evaluator.classReference
    rw [h.context]
    exact .classReference (h.fits child hchild) (h.same child hchild) (h.proceeds_visit hchild)
      (built_visit e h.built child)
  exact hsame.bind ⟨h.proceeds_classReference hchild,
    h.proceeds_classReference hchild, hs⟩ hfg

theorem prop (hn : ∀ p ∈ n.children, ok p.2) :
    x.Tallies (x.left.SameTypes x.right) (e.prop n) (e.prop n) := by
  rw [prop_eq]
  refine h.visitRequired hn (by grind) fun u v huv => ?_
  cases n.childStr? "prop" with
  | none => exact .fail _ _
  | some name => exact propKnown e h.context name huv

theorem staticProp (hn : ∀ p ∈ n.children, ok p.2) :
    x.Tallies (x.left.SameTypes x.right) (e.staticProp n) (e.staticProp n) := by
  refine .required fun owner ho => ?_
  cases n.childStr? "prop" with
  | none => exact .fail _ _
  | some name =>
    refine h.classReference (NodeOf.ok_child? hn ho) (by grind) fun classes classes' hclasses => ?_
    rw [h.context]
    refine (Tallies.resolveProperties hclasses name true n.line).bind (by grind)
        fun found found' hfound => ?_
    refine .foldlM_union (fun _ _ => (map_eq_pure_bind _ _).symm)
      (fun _ _ => (map_eq_pure_bind _ _).symm) hfound (by grind) fun k _ k' _ hk => ?_
    rw [hk.type]
    exact .types (UnionType.tallies_resolveStatic x.siblings (sameTypes_of_inside hk.inside)
      (sameRegular_staticOwner h.context owner hk.owner))

/-! ### Calls -/

theorem argument (hchild : ok child) :
    x.Tallies (CallArgument.Same r x.left x.right) (e.argument child) (e.argument child) := by
  unfold Evaluator.argument
  cases child with
  | node m =>
    dsimp only
    split
    · refine h.visitRequired (h.closed.node m hchild) (by grind) fun u v huv => ?_
      exact (Tallies.query (x.siblings.iterableValues huv)).bind (by grind) fun _ _ hvalues =>
        .pure ⟨hvalues, rfl, nofun⟩
    · exact h.visit hchild (by grind) fun u v huv => .pure ⟨huv, rfl, nofun⟩
  | str s =>
    refine h.visit hchild (by grind) fun u v huv => .pure ⟨huv, rfl, fun z hz => ?_⟩
    cases hz
    exact (h.fits _ hchild).accepts
  | _ => exact h.visit hchild (by grind) fun u v huv => .pure ⟨huv, rfl, nofun⟩

/-- The arguments are evaluated first. -/
theorem arguments (hn : ∀ p ∈ n.children, ok p.2)
    {f : List CallArgument → AnalysisM α} {g : List CallArgument → AnalysisM β}
    (hs : (∀ as, Built (f as)) ∧ ∀ bs, Built (g bs))
    (hfg : ∀ as bs, List.Forall₂ (CallArgument.Same r x.left x.right) as bs →
      x.Tallies A (f as) (g bs)) :
    x.Tallies A (e.arguments n >>= f) (e.arguments n >>= g) := by
  have hproceeds : x.Proceeds (e.arguments n) := by
    rw [h.reporting]
    exact (echoes_arguments h.echoing h.closed hn).proceeds
  refine Tallies.bind (A := List.Forall₂ (CallArgument.Same r x.left x.right)) ?_
    ⟨hproceeds, hproceeds, hs⟩ hfg
  unfold Evaluator.arguments
  cases hlist : n.childNode? "args" with
  | none => exact .pure .nil
  | some list =>
    have hall := h.closed.node list (NodeOf.ok_childNode? hn hlist)
    have hargument : ∀ child ∈ list.list, x.Proceeds (e.argument child) := fun child hchild => by
      rw [h.reporting]
      exact (echoes_argument h.echoing h.closed (NodeOf.ok_list hall hchild)).proceeds
    refine .mapM_forall₂ (R := Eq) (List.forall₂_refl _) ⟨hargument, hargument,
      built_argument e h.built, built_argument e h.built⟩ fun a ha b _ hab => ?_
    cases hab
    exact h.argument (NodeOf.ok_list hall ha)

theorem call (hn : ∀ p ∈ n.children, ok p.2) :
    x.Tallies (x.left.SameTypes x.right) (e.call n) (e.call n) := by
  have hvisit := built_visit e h.built
  have harguments := built_arguments e n h.built
  unfold Evaluator.call
  rw [h.context]
  refine .required fun callee hc => h.arguments hn (by grind) fun args args' hargs => ?_
  split
  · next name _ =>
    refine (Tallies.resolveFunction name).bind (by grind) fun f f' hf => ?_
    obtain ⟨rfl, hsig⟩ := hf
    exact .types (tallies_resultType x.siblings e hsig hargs TemplateMap.sameMap_nil)
  · exact h.visit (NodeOf.ok_child? hn hc) (by grind) fun u v huv => .calleeResult huv

theorem methodCall (hn : ∀ p ∈ n.children, ok p.2) :
    x.Tallies (x.left.SameTypes x.right) (e.methodCall n) (e.methodCall n) := by
  have harguments := built_arguments e n h.built
  rw [methodCall_eq]
  refine h.visitRequired hn (by grind) fun u v huv =>
    h.arguments hn (by grind) fun args args' hargs => ?_
  cases n.childStr? "method" with
  | none => exact .fail _ _
  | some name => exact methodKnown e h.context name huv hargs

theorem staticCall (hn : ∀ p ∈ n.children, ok p.2) :
    x.Tallies (x.left.SameTypes x.right) (e.staticCall n) (e.staticCall n) := by
  have hclass := built_classReference e h.built
  rw [staticCall_eq]
  refine .required fun owner ho => h.arguments hn (by grind) fun args args' hargs => ?_
  cases n.childStr? "method" with
  | none => exact .fail _ _
  | some name =>
    refine h.classReference (NodeOf.ok_child? hn ho) (by grind) fun classes classes' hclasses => ?_
    rw [h.context]
    exact (Tallies.resolveMethods hclasses name true n.line).bind (by grind)
      fun found found' hfound =>
      staticResult e h.context owner hargs hfound

theorem newByExpression (hchild : ok child) {args args' : List CallArgument}
    (hargs : List.Forall₂ (CallArgument.Same r x.left x.right) args args') :
    x.Tallies (x.left.SameTypes x.right) (e.newByExpression n child args)
      (e.newByExpression n child args') := by
  have hvisit := built_visit e h.built
  rw [newByExpression_eq, newByExpression_eq]
  refine h.classReference hchild (by grind) fun classes classes' hclasses => ?_
  rw [hclasses.isEmpty_eq]
  split
  · exact .pure (x.siblings.sameTypes_native .object)
  refine h.visit hchild (by grind) fun u v huv => ?_
  refine (Tallies.literalClasses huv).bind (by grind) fun named named' hnamed => ?_
  exact .foldlM_union (fun _ _ => rfl) (fun _ _ => rfl) hclasses (by grind)
    fun p _ q _ hpq => newType e hargs hnamed hpq

theorem new (hn : ∀ p ∈ n.children, ok p.2) :
    x.Tallies (x.left.SameTypes x.right) (e.new n) (e.new n) := by
  have hnew := built_newByExpression e n h.built
  unfold Evaluator.new
  refine .required fun owner ho => h.arguments hn (by cases owner <;> grind)
    fun args args' hargs => ?_
  have howner := NodeOf.ok_child? hn ho
  cases owner with
  | node m =>
    dsimp only
    split
    · next hkind => exact .newByName e h.context (h.fits _ howner) hkind hargs
    split
    · exact .pure (x.siblings.sameTypes_native .object)
    · exact h.newByExpression howner hargs
  | _ => exact h.newByExpression howner hargs

/-! ### Names, choices and functions as values -/

theorem classString (hchild : ok child) :
    x.Tallies (x.left.SameTypes x.right) (e.classString n child) (e.classString n child) := by
  unfold Evaluator.classString
  cases child with
  | node m =>
    dsimp only
    split
    · next hkind =>
      rw [h.context]
      refine (Tallies.classOfName (h.fits _ hchild) hkind).bind (by grind [classStringType])
          fun p q hpq => ?_
      obtain ⟨rfl, -⟩ := hpq
      exact .literalType _
    · exact h.effects hchild (by grind) fun _ _ => .pure (x.siblings.sameTypes_native .string)
  | _ => exact .fail _ _

theorem classConst (hn : ∀ p ∈ n.children, ok p.2) :
    x.Tallies (x.left.SameTypes x.right) (e.classConst n) (e.classConst n) := by
  refine .required fun owner ho => ?_
  have howner := NodeOf.ok_child? hn ho
  cases n.childStr? "const" with
  | none => exact .fail _ _
  | some name =>
    dsimp only
    split
    · exact h.classString howner
    have hproceeds : x.Proceeds (resolveClassConstant e.context e.visit owner name n.line) := by
      rw [h.reporting]
      exact (echoes_resolveClassConstant h.echoing howner name n.line).proceeds
    rw [h.context] at hproceeds ⊢
    refine (Tallies.resolveClassConstant (h.fits owner howner) (h.same owner howner)
      (h.proceeds_visit howner) (built_visit e h.built owner) name n.line).bind
      ⟨hproceeds, hproceeds, by grind, by grind⟩ (fun found found' hfound => .pure ?_)
    have htypes : Matched (x.left.SameTypes x.right) (found.map fun k => k.type)
        (found'.map fun k => k.type) := hfound.map fun k _ k' _ hk => by
      rw [hk.1]
      exact sameTypes_of_inside hk.2
    have hunion := UnionType.Matches.foldl_union htypes .empty
    rwa [List.foldl_map, List.foldl_map] at hunion

omit h in
theorem testedName {m : Node} (hm : m.Fits r) (hkind : m.kind = .name) :
    x.Tallies (fun _ _ => True)
      (do
        let owner ← classOfName x.context m
        if !(← AnalysisM.hasClass owner) then
          e.report .undeclaredClassInstanceof n.line [owner.text])
      (do
        let owner ← classOfName x.context m
        if !(← AnalysisM.hasClass owner) then
          e.report .undeclaredClassInstanceof n.line [owner.text]) := by
  refine (Tallies.classOfName hm hkind).bind (by grind) fun p q hpq => ?_
  obtain ⟨rfl, -⟩ := hpq
  refine (Tallies.hasClass rfl).bind (by grind) fun known _ hknown => ?_
  obtain ⟨rfl, -⟩ := hknown
  split
  · exact .emit _ _
  · exact .pure trivial

theorem classTest (hchild : ok child) :
    x.Tallies (x.left.SameTypes x.right) (e.classTest n child) (e.classTest n child) := by
  have hbool : x.Tallies (x.left.SameTypes x.right) (pure (.native .bool)) (pure (.native .bool)) :=
    .pure (x.siblings.sameTypes_native .bool)
  unfold Evaluator.classTest
  split
  · next m hm =>
    obtain ⟨hm, hkind⟩ := Option.filter_eq_some_iff.1 hm
    rw [h.context]
    have hfits : m.Fits r := .of_node? (h.fits _ hchild) hm
    have hproceeds {p : AnalysisM Unit} (hp : Repeats x.context x.setup p) : x.Proceeds (aside p) :=
      (echoes_aside (.refl hp : Echoes root x.context x.setup p p)).proceeds
    exact ((testedName hfits (by simpa using hkind)).recover trivial aside_failed
      aside_failed).bind ⟨hproceeds (by grind), hproceeds (by grind), by grind, by grind⟩
        fun _ _ _ => hbool
  · refine h.visit hchild (by grind) fun u v huv => ?_
    refine (mayNameClass huv).bind (by grind) fun may _ hmay => ?_
    cases hmay
    split
    · exact (Tallies.display u v).bind (by grind) fun _ _ _ =>
        (Tallies.emit _ _).bind (by grind) fun _ _ _ => hbool
    · exact hbool

theorem instanceOf (hn : ∀ p ∈ n.children, ok p.2) :
    x.Tallies (x.left.SameTypes x.right) (e.instanceOf n) (e.instanceOf n) := by
  have htest := built_classTest e n h.built
  rw [instanceOf_eq]
  refine .required fun child hc => h.effects (NodeOf.ok_child? hn hc) (by grind) fun _ _ =>
    .required fun owner ho => ?_
  exact h.classTest (NodeOf.ok_child? hn ho)

theorem knownConditional (holds : Bool) {cond no : Child} {yes : Option Child} (hcond : ok cond)
    (hyes : ∀ child, yes = some child → ok child) (hno : ok no) :
    x.Tallies (x.left.SameTypes x.right) (e.knownConditional holds cond yes no)
      (e.knownConditional holds cond yes no) := by
  have hvisit := built_visit e h.built
  have heffects := built_visitForEffects e h.built
  refine h.visit hcond (by cases holds <;> cases yes <;> grind) fun u v huv => ?_
  cases yes with
  | some yes =>
    have hsame := h.same yes (hyes yes rfl)
    cases holds with
    | true => exact h.effects hno (by grind) fun _ _ => hsame
    | false => exact h.effects (hyes yes rfl) (by grind) fun _ _ => h.same no hno
  | none =>
    cases holds with
    | true => exact h.effects hno (by grind) fun _ _ => .pure huv
    | false => exact h.same no hno

theorem conditional (hnarrow : x.setup.narrowing = {}) (hn : ∀ p ∈ n.children, ok p.2) :
    x.Tallies (x.left.SameTypes x.right) (e.conditional n) (e.conditional n) := by
  unfold Evaluator.conditional
  rw [h.context]
  refine .required fun cond hcond => .required fun no hno => ?_
  have hcond := NodeOf.ok_child? hn hcond
  have hno := NodeOf.ok_child? hn hno
  cases ht : cond.truthiness? with
  | some holds =>
    exact h.knownConditional holds hcond
      (fun child hy => NodeOf.ok_child? hn (child?_of_optional? hy)) hno
  | none =>
    have hvisit := built_visit e h.built
    have hin (child : Child) : e.visitIn x.context child = e.visit child := by
      rw [visitIn, Evaluator.visit, h.context]
    refine .narrow hnarrow true (.narrow hnarrow false ?_)
    simp only [hin]
    cases hyes : optional? n "true" with
    | some yes =>
      refine h.visit hcond (by grind) fun _ _ _ => ?_
      refine h.visit (NodeOf.ok_child? hn (child?_of_optional? hyes)) (by grind) fun a b hab => ?_
      exact h.visit hno (by grind) fun a' b' hab' => .pure (sameTypes_choice hab hab')
    | none =>
      refine h.visit hcond (by grind) fun u v huv => ?_
      refine ((Tallies.withoutNull huv).map (B := x.left.SameTypes x.right) (by grind)
        fun _ _ hab => x.siblings.erase_native hab .false).bind (by grind) fun a b hab => ?_
      exact h.visit hno (by grind) fun a' b' hab' => .pure (sameTypes_choice hab hab')

/-- Children are evaluated for their issues first. -/
theorem effectsAll {list : List Child} (hlist : ∀ child ∈ list, ok child)
    {f : PUnit → AnalysisM α} {g : PUnit → AnalysisM β}
    (hs : (∀ a, Built (f a)) ∧ ∀ b, Built (g b)) (hfg : ∀ a b, x.Tallies A (f a) (g b)) :
    x.Tallies A (list.forM e.visitForEffects >>= f) (list.forM e.visitForEffects >>= g) := by
  have hproceeds : x.Proceeds (list.forM e.visitForEffects) := by
    rw [h.reporting]
    exact (Echoes.forM fun child hc => echoes_visitForEffects h.echoing (hlist child hc)).proceeds
  have hround (child : Child) (hc : child ∈ list) : x.Proceeds (e.visitForEffects child) :=
    h.proceeds_visitForEffects (hlist child hc)
  have hbuilt := built_visitForEffects e h.built
  exact (Tallies.forM ⟨hround, hround, hbuilt, hbuilt⟩ fun child hc =>
    h.visitForEffects (hlist child hc)).bind ⟨hproceeds, hproceeds, hs⟩ fun a b _ => hfg a b

/-- A child that may be there is evaluated for its issues first. -/
theorem effectsOf (hn : ∀ p ∈ n.children, ok p.2) (slot : String) {f : Unit → AnalysisM α}
    {g : Unit → AnalysisM β} (hs : (∀ a, Built (f a)) ∧ ∀ b, Built (g b))
    (hfg : ∀ a b, x.Tallies A (f a) (g b)) :
    x.Tallies A (e.effectsOf n slot >>= f) (e.effectsOf n slot >>= g) := by
  have hproceeds : x.Proceeds (e.effectsOf n slot) := by
    rw [h.reporting]
    exact (echoes_effectsOf h.echoing hn slot).proceeds
  have hsame : x.Tallies (fun _ _ => True) (e.effectsOf n slot) (e.effectsOf n slot) := by
    unfold Evaluator.effectsOf
    cases hc : optional? n slot with
    | some child => exact h.visitForEffects (NodeOf.ok_child? hn (child?_of_optional? hc))
    | none => exact .pure trivial
  exact hsame.bind ⟨hproceeds, hproceeds, hs⟩ fun a b _ => hfg a b

theorem addArm (hn : ∀ p ∈ n.children, ok p.2) (huv : x.left.SameTypes x.right u v) :
    x.Tallies (x.left.SameTypes x.right) (e.addArm u n) (e.addArm v n) := by
  have hvisit := built_visit e h.built
  have hresult : x.Tallies (x.left.SameTypes x.right)
      (do return u.union (← e.visit (← required n "expr")))
      (do return v.union (← e.visit (← required n "expr"))) :=
    h.visitRequired hn (by grind) fun _ _ hvalue => .pure (huv.union hvalue)
  unfold Evaluator.addArm
  cases hconds : n.childNode? "cond" with
  | none => exact hresult
  | some conds =>
    have hall := h.closed.node conds (NodeOf.ok_childNode? hn hconds)
    have hlist : ∀ child ∈ conds.list, ok child := fun child hc => NodeOf.ok_list hall hc
    exact h.effectsAll hlist (by grind) fun _ _ => hresult

theorem matchExpr (hn : ∀ p ∈ n.children, ok p.2) :
    x.Tallies (x.left.SameTypes x.right) (e.matchExpr n) (e.matchExpr n) := by
  have harm := built_addArm e h.built
  rw [matchExpr_eq]
  refine .required fun cond hc => h.effects (NodeOf.ok_child? hn hc) (by grind) fun _ _ => ?_
  cases harms : n.childNode? "stmts" with
  | none => exact .fail _ _
  | some arms =>
    have hall (arm : Node) (ha : arm ∈ arms.list.filterMap Child.node?) :
        ∀ p ∈ arm.children, ok p.2 :=
      h.closed.node arm
        (NodeOf.ok_listNode (h.closed.node arms (NodeOf.ok_childNode? hn harms)) ha)
    have hproceeds (result : UnionType) (arm : Node) (ha : arm ∈ arms.list.filterMap Child.node?) :
        x.Proceeds (e.addArm result arm) := by
      rw [h.reporting]
      exact (echoes_addArm h.echoing h.closed (hall arm ha) result).proceeds
    exact .foldlM .empty (fun u v => ⟨hproceeds u, hproceeds v, harm u, harm v⟩)
      fun u v arm ha huv => h.addArm (hall arm ha) huv

omit h in
theorem closureParam (he : e.context = x.context) (hn : n.Fits r) :
    x.Tallies (CallableParam.Matches (x.left.Corresponds x.right)) (e.closureParam n)
      (e.closureParam n) := by
  unfold Evaluator.closureParam
  rw [he]
  exact (Tallies.declaredTypeIn hn "type").bind (by grind) fun u v huv =>
    .pure ⟨x.siblings.orMixed huv, rfl, rfl, rfl⟩

theorem closure (hn : n.Fits r) :
    x.Tallies (x.left.SameTypes x.right) (e.closure n) (e.closure n) := by
  unfold Evaluator.closure
  refine Tallies.bind (A := List.Forall₂ (CallableParam.Matches (x.left.Corresponds x.right))) ?_
    (by grind) fun params params' hparams => ?_
  · refine .mapM_forall₂ (R := Eq) (List.forall₂_refl _) (by grind) fun p hp q _ hpq => ?_
    cases hpq
    exact closureParam h.context (fits_of_mem_paramNodes hn hp)
  · rw [h.context]
    refine (Tallies.declaredTypeIn hn "returnType").bind (by grind) fun u v huv => ?_
    refine (Tallies.types (tallies_intern x.siblings
      (a := .callable { isClosure := true, params, result := u })
      (b := .callable { isClosure := true, params := params', result := v }) trivial trivial
      ⟨rfl, hparams, huv⟩ false)).bind (by grind) fun _ _ hij => .pure (.of hij)

/-! ### All kinds of node -/

/-- What a node comes to is the same on both sides, if its children do. -/
theorem node (hn : ∀ p ∈ n.children, ok p.2) (hfits : n.Fits r) (hnarrow : x.setup.narrowing = {})
    (harrow : n.kind ≠ .arrowFunc)
    (hop : n.kind = .binaryOp ∨ n.kind = .assignOp → BinaryOp.ofCode? n.flags ≠ some .coalesce) :
    x.Tallies (x.left.SameTypes x.right) (e.node n) (e.node n) := by
  have hnative (k : NativeKind) : x.Tallies (x.left.SameTypes x.right) (pure (.native k))
      (pure (.native k)) := .pure (x.siblings.sameTypes_native k)
  unfold Evaluator.node
  cases hk : n.kind with
  | «variable» =>
    unfold variableUse
    cases n.childStr? "name" with
    | none => exact .fail _ _
    | some name =>
      rw [h.context]
      exact .resolveOrCreateVariable name n.line
  | name => exact className h.context hfits hk
  | constant => exact constant h.context
  | classConst => exact h.classConst hn
  | className => exact .required fun owner ho => h.classString (NodeOf.ok_child? hn ho)
  | magicConst => exact magicConst h.context
  | binaryOp => exact h.operation hn "left" "right" _ (hop (.inl hk))
  | unaryOp => exact h.unaryOp hn
  | preInc | preDec | postInc | postDec => exact h.incDec hn
  | assign | assignRef => exact .required fun child hc => h.same child (NodeOf.ok_child? hn hc)
  | assignOp => exact h.operation hn "var" "expr" _ (hop (.inr hk))
  | cast => exact h.cast hn
  | instanceOf => exact h.instanceOf hn
  | conditional => exact h.conditional hnarrow hn
  | array => exact h.arrayLiteral hn
  | dim => exact h.dim hn
  | prop | nullsafeProp => exact h.prop hn
  | staticProp => exact h.staticProp hn
  | call => exact h.call hn
  | methodCall | nullsafeMethodCall => exact h.methodCall hn
  | staticCall => exact h.staticCall hn
  | new => exact h.new hn
  | closure => exact h.closure hfits
  | arrowFunc => exact absurd hk harrow
  | typeHint | nullableType | typeUnion =>
    rw [h.context]
    exact .declaredType hfits
  | isset | empty => exact hnative .bool
  | clone => exact h.clone hn
  | yieldExpr =>
    have hslot := built_effectsOf e n h.built
    exact h.effectsOf hn "value" (by grind) fun _ _ =>
      h.effectsOf hn "key" (by grind) fun _ _ => hnative .mixed
  | yieldFrom | includeExpr =>
    exact .required fun _ hc => h.effects (NodeOf.ok_child? hn hc) (by grind)
      fun _ _ => hnative .mixed
  | print =>
    exact .required fun _ hc => h.effects (NodeOf.ok_child? hn hc) (by grind)
      fun _ _ => hnative .int
  | shellExec =>
    exact .required fun _ hc => h.effects (NodeOf.ok_child? hn hc) (by grind)
      fun _ _ => hnative .string
  | encaps =>
    have hlist : ∀ child ∈ n.list.filter fun c => c.node?.isSome, ok child := fun child hc =>
      NodeOf.ok_list hn (List.mem_filter.1 hc).1
    exact h.effectsAll hlist (by grind) fun _ _ => hnative .string
  | matchExpr => exact h.matchExpr hn
  | throwExpr | exit =>
    exact h.effectsOf hn "expr" (by grind) fun _ _ => .pure .empty
  | _ => exact .fail _ _

end Tallying

end Comparison

end UnionInference
