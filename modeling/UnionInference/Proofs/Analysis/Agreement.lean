import UnionInference.Proofs.Analysis.Receivers
import UnionInference.Proofs.Analysis.Transparency
import UnionInference.Proofs.Types.Descent
import UnionInference.Proofs.Types.NullTwins

/-!
What the two ways of evaluating an expression have in common, and where they part. A part that is
evaluated for its issues alone ends at its first failure, unless failures are reported on the way;
then it goes on, and may ask the table for a type that comes up once more later on. The table keeps
the members of a union in the order in which they were asked for first, and the first of them that is
out of reach decides which issue it is. So an expression may fail with one issue and report another
one.
-/

namespace UnionInference

namespace AnalysisM

variable {t t₁ : TypeTable} {w w₁ : World} {s : Setup} {c : Context} {i j k : Nat} {u : UnionType}
  {n : Node} {catching : Bool}

/-- Reporting issues gives every expression a type, and without it an expression fails only with an
issue. Where nothing is reported both ways have the same outcome. Where moreover no part is evaluated
for its issues alone, an expression that has a type has it both ways, and one that fails does so with
an issue that is reported. -/
theorem typeOf_agree (s : Setup) (w : World) (c : Context) (child : Child) :
    (∀ r w', typeOf true c child s w = .ok (r, w') → ∃ u, r = .ok u) ∧
    (∀ f w', typeOf false c child s w = .ok (.error f, w') → ∃ i, f = .issue i) ∧
    (∀ r w', typeOf true c child s w = .ok (r, w') → w'.issues.since w.issues.size = [] →
      typeOf false c child s w = .ok (r, w')) ∧
    (child.Direct →
      (∀ u w', typeOf false c child s w = .ok (.ok u, w') →
        typeOf true c child s w = .ok (.ok u, w')) ∧
      ∀ i w', typeOf false c child s w = .ok (.error (.issue i), w') →
        ∀ r w'', typeOf true c child s w = .ok (r, w'') →
          i ∈ w''.issues.since w.issues.size) := by
  have hcaught : ∀ f w', typeOf true c child s w ≠ .ok (.error f, w') := fun f w' h =>
    absurd (evaluateWithin_eq_error h).1 (by decide)
  refine ⟨fun r w' h => ?_, fun f w' h => (evaluateWithin_eq_error h).2, fun r w' h hnone => ?_,
    fun hdirect => ⟨fun u w' h => ?_, fun i w' h r w'' h' => ?_⟩⟩
  · cases r with
    | ok u => exact ⟨u, rfl⟩
    | error f => exact absurd h (hcaught f w')
  · have hagree := agrees_evaluateWithin (d := False) maxExpressionDepth c child False.elim
    rcases hagree.outcome s w with heq | ⟨i, hi, -⟩
    · exact heq.trans h
    · have hmem : i ∈ w'.issues.since w.issues.size := hi r w' h
      rw [hnone] at hmem
      cases hmem
  · have hagree := agrees_evaluateWithin (d := True) maxExpressionDepth c child fun _ => hdirect
    rcases hagree.outcome s w with heq | ⟨i, -, hi⟩
    · exact heq.symm.trans h
    · obtain ⟨w₁, hi⟩ := hi trivial
      rw [typeOf, hi] at h
      cases h
  · have hagree := agrees_evaluateWithin (d := True) maxExpressionDepth c child fun _ => hdirect
    rcases hagree.outcome s w with heq | ⟨j, hj, hfail⟩
    · exact absurd (heq.symm.trans h) (hcaught (.issue i) w')
    · obtain ⟨w₁, hfail⟩ := hfail trivial
      rw [typeOf, hfail] at h
      cases h
      exact hj r w'' h'

/-- The class around a place, by name. -/
def selfName : Node := ⟨0, .name, NameKind.notFullyQualified.code, 1, [(.name "name", .str "self")]⟩

/-- There is no class around the place. -/
def noSelf : Issue := { file := "f.php", line := 1, kind := .contextNotObject, args := ["self"] }

theorem typeOf_selfName (catching : Bool) (hcaches : w.caches = #[]) :
    typeOf catching outside (.node selfName) s w =
      evaluateNew ⟨outside, catching, evaluateWithin 499⟩ selfName s w := by
  refine typeOf_of_not_kept ?_
  rw [World.cacheOf, hcaches]
  exact Std.HashMap.getElem?_empty

/-- The name fails one way, and so it is reported the other way. -/
theorem typeOf_agree_selfName :
    typeOf false outside (.node selfName) {} (World.create {}) =
      .ok (.error (.issue noSelf), World.create {}) ∧
    ∃ w, typeOf true outside (.node selfName) {} (World.create {}) = .ok (.ok .empty, w) ∧
      noSelf ∈ w.issues.since (World.create {}).issues.size := by
  have hfails : typeOf false outside (.node selfName) {} (World.create {}) =
      .ok (.error (.issue noSelf), World.create {}) := typeOf_selfName false rfl
  have hdirect : (Child.node selfName).Direct := .node rfl fun p hp => by
    rw [List.mem_singleton.1 hp]
    exact .literal rfl
  obtain ⟨w, hreports⟩ : ∃ w, typeOf true outside (.node selfName) {} (World.create {}) =
      .ok (.ok .empty, w) := ⟨_, typeOf_selfName true rfl⟩
  obtain ⟨-, -, -, hagree⟩ := typeOf_agree {} (World.create {}) outside (.node selfName)
  exact ⟨hfails, w, hreports, (hagree hdirect).2 _ _ hfails _ _ hreports⟩

/-! ### Parts that fail -/

/-- A failure ends the work. -/
theorem bind_of_error {α β : Type} {p : AnalysisM α} {f : α → AnalysisM β} {e : Failure}
    (h : p s w = .ok (.error e, w₁)) : (p >>= f) s w = .ok (.error e, w₁) := by
  rw [bind_apply, h]

/-- A node fails as its rule fails, and nothing is kept. -/
theorem evaluateWithin_of_issue {x : Issue} (hkept : (w.cacheOf c)[n.id]? = none)
    (hnode : Evaluator.node ⟨c, false, evaluateWithin k⟩ n s w = .ok (.error (.issue x), w₁)) :
    evaluateWithin (k + 1) false c (.node n) s w = .ok (.error (.issue x), w₁) := by
  rw [evaluateWithin_node, bind_of_ok (a := w) rfl, hkept]
  dsimp only
  rw [evaluateNew, recover_apply, bind_apply, hnode]
  rfl

/-- A node is reported as its rule fails, and nothing is known of it. -/
theorem evaluateWithin_of_reported {x : Issue} (hkept : (w.cacheOf c)[n.id]? = none)
    (hnode : Evaluator.node ⟨c, true, evaluateWithin k⟩ n s w = .ok (.error (.issue x), w₁)) :
    evaluateWithin (k + 1) true c (.node n) s w = .ok (.ok .empty,
      ({ w₁ with issues := w₁.issues.add x } : World).remember c n.id .empty) := by
  rw [evaluateWithin_node, bind_of_ok (a := w) rfl, hkept]
  dsimp only
  rw [evaluateNew, recover_apply, bind_apply, hnode]
  rfl

/-! ### Two classes with a property that is out of reach -/

/-- A class. -/
def rival (name : String) (id : TypeId) : ClassDecl where
  name := .make "\\" name
  type := .of id

/-- Its property. -/
def secretOf (name : String) (modifiers : Modifiers) : Property where
  name := ⟨.make "\\" name, "p"⟩
  modifiers := modifiers

/-- The private property of `A`. -/
def secretOfA : Property := secretOf "A" { isPrivate := true }

/-- The protected property of `B`. -/
def secretOfB : Property := secretOf "B" { isProtected := true }

/-- The code base with the classes, whose members are not handed down on demand. -/
def rivalBase : CodeBase :=
  ((((CodeBase.create false).addClass (rival "A" 31)).addClass (rival "B" 32)).addProperty
    secretOfA).addProperty secretOfB

/-- The types that are asked for, from place 31 on. -/
def rivalRows : List TypeEntry :=
  [⟨⟨.object (.make "\\" "A") [], false⟩, "\\A"⟩, ⟨⟨.object (.make "\\" "B") [], false⟩, "\\B"⟩]

/-- Where they are found. -/
def rivalNames : List (String × TypeId) := [("\\B", 32), ("\\b", 32), ("\\A", 31), ("\\a", 31)]

/-- A function without variables. -/
def rivalWorld (t : TypeTable) : World where
  types := t
  base := rivalBase
  scopes := #[Scope.function]
  caches := #[{}]

theorem selfContained_rivalBase : rivalBase.SelfContained :=
  ⟨⟨rfl, (OrderedTable.valid_empty.insert _ _).insert _ _, fun _ _ hp => by
    simp [rivalBase, CodeBase.addProperty, CodeBase.addClass, CodeBase.changed, CodeBase.record,
      CodeBase.create] at hp⟩, rfl⟩

theorem hasClass_rivalBase {q : ClassName} {d : ClassDecl} (h : rivalBase.class? q = some d) :
    CodeBase.hasClass q rivalBase = (true, rivalBase) := by
  rw [selfContained_rivalBase.hasClass, selfContained_rivalBase.loadable.isRegistered_eq, h]
  rfl

theorem class?_rivalBase_eq (q : ClassName) : rivalBase.class? q =
    if (rival "B" 32).name.fold = q.fold then some (rival "B" 32)
    else if (rival "A" 31).name.fold = q.fold then some (rival "A" 31) else none := by
  have hvalid : ((CodeBase.create false).addClass (rival "A" 31)).classes.Valid :=
    OrderedTable.valid_empty.insert _ _
  have hfirst : ((CodeBase.create false).addClass (rival "A" 31)).class? q = _ :=
    CodeBase.class?_addClass OrderedTable.valid_empty (rival "A" 31) q
  have hnone : (CodeBase.create false).class? q = none := CodeBase.class?_create false q
  rw [hnone] at hfirst
  rw [← hfirst]
  exact CodeBase.class?_addClass hvalid (rival "B" 32) q

theorem class?_rivalBase : rivalBase.class? (.make "\\" "A") = some (rival "A" 31) ∧
    rivalBase.class? (.make "\\" "B") = some (rival "B" 32) := by
  rw [class?_rivalBase_eq, class?_rivalBase_eq]
  exact ⟨(if_neg (by decide)).trans (if_pos rfl), if_pos rfl⟩

/-- The classes have no ancestors. -/
theorem acyclic_rivalBase : rivalBase.Acyclic := by
  refine CodeBase.acyclic_of_measure (fun _ => 0) fun x q hx => ?_
  obtain ⟨y, hy, -⟩ := hx
  rw [CodeBase.sourcesOf, class?_rivalBase_eq] at hy
  split_ifs at hy <;> cases hy

theorem property?_rivalBase {q : ClassName} {d : ClassDecl} {p : Property}
    (h : rivalBase.class? q = some d) (hp : rivalBase.properties.get? q "p" = some p) :
    CodeBase.property? q "p" rivalBase = (some p, rivalBase) := by
  have hprepare : CodeBase.prepare q rivalBase = ((), rivalBase) := by
    show (if (CodeBase.hasClass q rivalBase).1 then _ else _ : BaseM Unit)
      (CodeBase.hasClass q rivalBase).2 = _
    rw [hasClass_rivalBase h]
    rfl
  show ((CodeBase.prepare q rivalBase).2.properties.get? q "p", (CodeBase.prepare q rivalBase).2) = _
  rw [hprepare, hp]

theorem get?_rivalBase : rivalBase.properties.get? (.make "\\" "A") "p" = some secretOfA ∧
    rivalBase.properties.get? (.make "\\" "B") "p" = some secretOfB := by
  have hfirst := MemberTables.valid_empty.get?_add secretOfA
  have hboth := (MemberTables.valid_empty.add secretOfA).get?_add secretOfB
  exact ⟨((hboth _ _).trans (if_neg (by decide))).trans ((hfirst _ _).trans (if_pos ⟨rfl, rfl⟩)),
    (hboth _ _).trans (if_pos ⟨rfl, rfl⟩)⟩

/-- The issue of a property that is out of reach. -/
def secretIssue (p : Property) : Issue := outside.issue
  (if p.modifiers.isPrivate then .accessPropertyPrivate else .accessPropertyProtected) 2
  (accessArgs p.name.propertyText p.location)

/-- The first class whose property is out of reach decides. -/
theorem resolveProperties_hidden (hw : w.base = rivalBase) {q : ClassName} {d : ClassDecl}
    {p : Property} {rest : List ClassName} (h : rivalBase.class? q = some d)
    (hp : rivalBase.properties.get? q "p" = some p) (hstatic : p.modifiers.isStatic = false)
    (hhidden : p.modifiers.isVisible = false) :
    resolveProperties outside (q :: rest) "p" false 2 s w =
      .ok (.error (.issue (secretIssue p)), w) := by
  have hproperty : base (CodeBase.property? q "p") s w = .ok (.ok (some p), w) :=
    base_of_eq (by rw [hw, property?_rivalBase h hp])
  have hfind : findProperty q "p" false s w = .ok (.ok (.found p), w) := by
    rw [findProperty, bind_of_ok hproperty]
    dsimp only
    rw [hstatic]
    rfl
  have hcheck : checkPropertyAccess outside p 2 s w =
      .ok (.error (.issue (secretIssue p)), w) := by
    rw [checkPropertyAccess, hhidden]
    rfl
  rw [resolveProperties, List.foldlM_cons, bind_assoc, bind_assoc, bind_of_ok hfind]
  dsimp only
  rw [bind_assoc, bind_apply, hcheck]

/-! ### Closures that give one class or the other -/

/-- A closure that declares to give one class or the other. -/
def closureOf (id : Nat) (x y : String) : Node := ⟨id, .closure, 0, 2,
  [(.name "returnType", .node ⟨id + 1, .typeUnion, 0, 2,
    [(.index 0, .node (classAt (id + 2) x)), (.index 1, .node (classAt (id + 3) y))]⟩)]⟩

/-- The closure, called. -/
def callOfClosure : Node := ⟨8, .call, 0, 2, [(.name "expr", .node (closureOf 9 "A" "B"))]⟩

/-- A property of what the call gives. -/
def propOfCall : Node :=
  ⟨7, .prop, 0, 2, [(.name "expr", .node callOfClosure), (.name "prop", .str "p")]⟩

/-- A use of a variable that does not exist. -/
def missing : Node := ⟨2, .variable, 0, 1, [(.name "name", .str "missing")]⟩

/-- The variable, and then a closure that declares the classes the other way round. -/
def missingFirst : Node := ⟨1, .binaryOp, BinaryOp.concat.code, 1,
  [(.name "left", .node missing), (.name "right", .node (closureOf 3 "B" "A"))]⟩

/-- A test in which the variable is looked at on the side, and the property after it. -/
def testOf : Node := ⟨0, .instanceOf, 0, 2,
  [(.name "expr", .node missingFirst), (.name "class", .node propOfCall)]⟩

/-- The closure as a type. -/
def giverOf (u : UnionType) : TypeKind :=
  .callable { isClosure := true, params := [], result := u }

theorem declaredType_classAt {name : String} {q : ClassName} (hname : isOwnerName name = false)
    (hq : outside.resolveClass name .notFullyQualified = q)
    (h : TypeM.classType q w.types = .ok (j, w.types)) :
    declaredType outside (classAt i name) s w = .ok (.ok (.of j), w) := by
  have htypes : types (TypeM.classType q) s w = .ok (.ok j, w) :=
    types_eq_ok.2 ⟨j, w.types, h, rfl, rfl⟩
  have hkind : (classAt i name).kind = .name := rfl
  rw [declaredType, hkind]
  dsimp only
  exact (bind_of_ok (classOfName_classAt hname hq)).trans ((bind_of_ok htypes).trans rfl)

/-- One class or the other, in this order. -/
def eitherOf (a b : TypeId) : UnionType := (UnionType.empty.union (.of a)).union (.of b)

/-- The world after a closure was evaluated. -/
def afterClosure (w : World) (t : TypeTable) (i : Nat) (j : TypeId) : World :=
  ({ w with types := t } : World).remember outside i (.of j)

/-- A closure has the type that was asked for first. -/
theorem evaluateWithin_closureOf {x y : String} {a b : TypeId}
    (hx : ∀ i, declaredType outside (classAt i x) s w = .ok (.ok (.of a), w))
    (hy : ∀ i, declaredType outside (classAt i y) s w = .ok (.ok (.of b), w))
    (hkept : (w.cacheOf outside)[i]? = none)
    (hrun : TypeM.intern (giverOf (eitherOf a b)) false w.types = .ok (j, t₁)) :
    evaluateWithin (k + 1) catching outside (.node (closureOf i x y)) s w =
      .ok (.ok (.of j), afterClosure w t₁ i j) := by
  have hresult : Evaluator.closureType [] (eitherOf a b) s w =
      .ok (.ok (.of j), { w with types := t₁ }) := by
    rw [Evaluator.closureType]
    exact (bind_of_ok (types_eq_ok.2 ⟨j, t₁, hrun, rfl, rfl⟩)).trans rfl
  have hdeclared : declaredTypeIn outside (closureOf i x y) "returnType" s w =
      .ok (.ok (eitherOf a b), w) := by
    show declaredType outside ⟨i + 1, .typeUnion, 0, 2, _⟩ s w = _
    rw [declaredType]
    dsimp only
    refine (congrFun (congrFun (foldlM_attach (g := fun (result : UnionType) m => do
      return result.union (← declaredType outside m)) (fun _ _ => rfl) _) s) w).trans ?_
    refine (bind_of_ok ((bind_of_ok (hx (i + 2))).trans rfl)).trans ?_
    exact (bind_of_ok ((bind_of_ok (hy (i + 3))).trans rfl)).trans rfl
  refine evaluateWithin_of_node hkept ?_
  show Evaluator.closure _ (closureOf i x y) s w = _
  exact (bind_of_ok (a := []) rfl).trans ((bind_of_ok hdeclared).trans hresult)

/-- The call gives the classes in the order in which they were asked for first. -/
theorem evaluateWithin_callOfClosure {a b : TypeId}
    (hclosure : evaluateWithin (k + 1) catching outside (.node (closureOf 9 "A" "B")) s w =
      .ok (.ok (.of j), w₁))
    (hkept : (w.cacheOf outside)[8]? = none)
    (hentry : w₁.types.get? j = some ⟨giverOf (eitherOf a b), false⟩) :
    evaluateWithin (k + 2) catching outside (.node callOfClosure) s w =
      .ok (.ok (UnionType.empty.union (eitherOf a b)),
        w₁.remember outside 8 (UnionType.empty.union (eitherOf a b))) := by
  have hfetch : query (fun t => t.fetch j) s w₁ =
      .ok (.ok ⟨giverOf (eitherOf a b), false⟩, w₁) :=
    query_eq_ok.2 ⟨_, TypeTable.fetch_of_get? hentry, rfl, rfl⟩
  refine evaluateWithin_of_node hkept ?_
  show Evaluator.call _ callOfClosure s w = _
  rw [Evaluator.call, bind_of_ok (a := .node (closureOf 9 "A" "B")) rfl]
  refine (bind_of_ok (a := []) rfl).trans ?_
  refine (bind_of_ok hclosure).trans ?_
  rw [Evaluator.calleeResult, UnionType.members_of, List.foldlM_cons, bind_assoc, bind_of_ok hfetch]
  rfl

theorem members_eitherOf {a b : TypeId} (hab : a ≠ b) :
    (UnionType.empty.union (eitherOf a b)).members = [a, b] := by
  simp [eitherOf, UnionType.union, UnionType.insert, UnionType.empty, UnionType.of,
    UnionType.ofList, hab.symm]

/-- A union of classes is left as it is. -/
theorem withoutNull_of_classes (hnull : NativeKind.null.id ∉ u.members)
    (h : ∀ i ∈ u.members, ∃ q, w.types.get? i = some ⟨.object q [], false⟩) :
    types u.withoutNull s w = .ok (.ok u, w) := by
  refine types_eq_ok.2 ⟨u, w.types, ?_, rfl, rfl⟩
  rw [UnionType.withoutNull, UnionType.erase_of_notMem hnull]
  refine UnionType.mapMembers_self fun i hi => ?_
  obtain ⟨q, hq⟩ := h i hi
  exact TypeM.bind_eq_ok.2 ⟨_, w.types,
    TypeM.fetch_eq_ok.2 ⟨rfl, Option.map_eq_some_iff.1 hq⟩, rfl⟩

theorem classList_eitherOf {a b : TypeId} {x y : ClassName} (hab : a ≠ b)
    (ha : w.types.get? a = some ⟨.object x [], false⟩)
    (hb : w.types.get? b = some ⟨.object y [], false⟩) (hxy : y.sameClass x = false)
    (hbase : w.base = rivalBase) (hx : rivalBase.isRegistered x = true)
    (hy : rivalBase.isRegistered y = true) :
    classList outside (UnionType.empty.union (eitherOf a b)) 2 s w = .ok (.ok [x, y], w) := by
  have htypes : (UnionType.empty.union (eitherOf a b)).typesIn w.types =
      [⟨.object x [], false⟩, ⟨.object y [], false⟩] := by
    rw [UnionType.typesIn, members_eitherOf hab, List.filterMap_cons_some ha,
      List.filterMap_cons_some hb, List.filterMap_nil]
  refine (classListWith_eq ?_ ?_).trans ?_
  · rw [members_eitherOf hab]
    simp [TypeTable.lt_size_of_get? ha, TypeTable.lt_size_of_get? hb]
  · rw [htypes, hbase]
    simp [receiverClass, hx, hy]
  · rw [htypes]
    simp [receiverClass, distinctClasses, UnionType.addClass, hxy]

/-- The property fails at the first class of what the call gives. -/
theorem node_propOfCall {a b : TypeId} {x y : ClassName} {d d' : ClassDecl} {p : Property}
    (hcall : evaluateWithin k catching outside (.node callOfClosure) s w =
      .ok (.ok (UnionType.empty.union (eitherOf a b)), w₁)) (hab : a ≠ b)
    (hplain : ∀ i ∈ [a, b], i ≠ NativeKind.null.id ∧ i ≠ NativeKind.mixed.id)
    (ha : w₁.types.get? a = some ⟨.object x [], false⟩)
    (hb : w₁.types.get? b = some ⟨.object y [], false⟩) (hxy : y.sameClass x = false)
    (hbase : w₁.base = rivalBase) (hx : rivalBase.class? x = some d)
    (hy : rivalBase.class? y = some d') (hp : rivalBase.properties.get? x "p" = some p)
    (hstatic : p.modifiers.isStatic = false) (hhidden : p.modifiers.isVisible = false) :
    Evaluator.node ⟨outside, catching, evaluateWithin k⟩ propOfCall s w =
      .ok (.error (.issue (secretIssue p)), w₁) := by
  have hmembers := members_eitherOf hab
  have hnonNull : types (UnionType.empty.union (eitherOf a b)).withoutNull s w₁ =
      .ok (.ok (UnionType.empty.union (eitherOf a b)), w₁) := by
    refine withoutNull_of_classes (fun hnull => ?_) fun i hi => ?_
    · rw [hmembers] at hnull
      exact (hplain _ hnull).1 rfl
    · rw [hmembers] at hi
      rcases List.mem_pair.1 hi with rfl | rfl
      · exact ⟨x, ha⟩
      · exact ⟨y, hb⟩
  have hknown : ((UnionType.empty.union (eitherOf a b)).isEmpty ||
      (UnionType.empty.union (eitherOf a b)).hasMixed) = false := by
    rw [UnionType.isEmpty, UnionType.hasMixed, UnionType.contains, hmembers]
    simp [(hplain a (by simp)).2.symm, (hplain b (by simp)).2.symm]
  have hregistered : ∀ {q : ClassName} {e : ClassDecl}, rivalBase.class? q = some e →
      rivalBase.isRegistered q = true := fun h => by
    rw [selfContained_rivalBase.loadable.isRegistered_eq, h]
    rfl
  show Evaluator.prop _ propOfCall s w = _
  rw [Evaluator.prop, bind_of_ok (a := .node callOfClosure) rfl]
  refine (bind_of_ok hcall).trans ?_
  refine (bind_of_ok hnonNull).trans ?_
  rw [if_neg (by rw [hknown]; exact Bool.false_ne_true)]
  refine (bind_of_ok (classList_eitherOf hab ha hb hxy hbase (hregistered hx)
    (hregistered hy))).trans ?_
  rw [if_neg (by exact Bool.false_ne_true)]
  exact bind_of_error (resolveProperties_hidden hbase hx hp hstatic hhidden)

/-- The issue of the variable. -/
def missingIssue : Issue := outside.issue .undeclaredVariable 1 ["missing"]

theorem node_missing (hscope : w.scopeOf outside = .function) (run) :
    Evaluator.node ⟨outside, catching, run⟩ missing s w =
      .ok (.error (.issue missingIssue), w) := by
  have hfunction : scopeOf outside s w = .ok (.ok Scope.function, w) :=
    congrArg (fun x => Except.ok (Except.ok x, w)) hscope
  have hnone : variableType? outside "missing" s w = .ok (.ok none, w) := by
    unfold variableType?
    refine (bind_of_ok hfunction).trans ?_
    have hget : Scope.function.get? "missing" = none := by
      simp [Scope.get?, Scope.function, OrderedTable.get?]
    rw [hget]
    rfl
  show resolveOrCreateVariable outside "missing" 1 s w = _
  rw [resolveOrCreateVariable, bind_of_ok hnone]
  exact (bind_of_ok hfunction).trans rfl

theorem evaluateWithin_missingFirst (hscope : w.scopeOf outside = .function)
    (hnone : ∀ i ∈ [1, 2], (w.cacheOf outside)[i]? = none) :
    evaluateWithin (k + 2) false outside (.node missingFirst) s w =
      .ok (.error (.issue missingIssue), w) := by
  have hmissing := evaluateWithin_of_issue (s := s) (n := missing) (hnone 2 (by simp))
    (node_missing hscope (evaluateWithin k))
  refine evaluateWithin_of_issue (hnone 1 (by simp)) ?_
  show Evaluator.binaryOp _ missingFirst s w = _
  refine (bind_of_ok (a := .node missing) rfl).trans ?_
  refine (bind_of_ok (a := .node (closureOf 3 "B" "A")) rfl).trans ?_
  exact bind_of_error hmissing

theorem evaluateWithin_missingFirst_reported (hscope : w.scopeOf outside = .function)
    (hnone : ∀ i ∈ [1, 2], (w.cacheOf outside)[i]? = none)
    (hclosure : evaluateWithin (k + 1) true outside (.node (closureOf 3 "B" "A")) s
        (({ w with issues := w.issues.add missingIssue } : World).remember outside 2 .empty) =
      .ok (.ok u, w₁)) :
    evaluateWithin (k + 2) true outside (.node missingFirst) s w =
      .ok (.ok (.native .string), w₁.remember outside 1 (.native .string)) := by
  have hmissing := evaluateWithin_of_reported (s := s) (n := missing) (hnone 2 (by simp))
    (node_missing hscope (evaluateWithin k))
  refine evaluateWithin_of_node (hnone 1 (by simp)) ?_
  show Evaluator.binaryOp _ missingFirst s w = _
  refine (bind_of_ok (a := .node missing) rfl).trans ?_
  refine (bind_of_ok (a := .node (closureOf 3 "B" "A")) rfl).trans ?_
  exact (bind_of_ok hmissing).trans ((bind_of_ok hclosure).trans rfl)

/-! ### The closure in the table -/

/-- The two classes and the closure. -/
def closureRows (u : UnionType) : List TypeEntry :=
  rivalRows ++ [⟨⟨giverOf u, false⟩, "Closure():(\\A|\\B)"⟩]

/-- Where they are found. -/
def closureNames : List (String × TypeId) :=
  ("Closure():(\\A|\\B)", 33) :: ("Closure():(\\A|\\B)", 33) :: rivalNames

/-- The closure is written alike in both orders. -/
theorem writes_giverOf {rows : List TypeEntry} {names : List (String × TypeId)}
    (h : t.Lists rows names) (hrows : rivalRows <+: rows) {a b : TypeId}
    (hab : [a, b] = [31, 32] ∨ [a, b] = [32, 31]) :
    t.Writes (giverOf (eitherOf a b)) false ⟨giverOf (eitherOf a b), false⟩
      "Closure():(\\A|\\B)" "Closure():(\\A|\\B)" := by
  obtain ⟨rest, rfl⟩ := hrows
  have hA := h.entry (i := 31) (e := rivalRows[0]) rfl
  have hB := h.entry (i := 32) (e := rivalRows[1]) rfl
  have hmembers : (eitherOf a b).members = [a, b] := by
    rcases hab with hab | hab <;> cases hab <;> rfl
  have hsame : (eitherOf a b).SameMembers (.ofList [31, 32]) := by
    intro i
    rw [hmembers]
    rcases hab with hab | hab <;> rw [hab]
    · rfl
    · exact List.Perm.mem_iff (List.Perm.swap _ _ _)
  have hunion : t.renderUnion (eitherOf a b) = "\\A|\\B" := by
    rw [t.renderUnion_congr hsame, t.renderUnion_pair (by decide), TypeTable.key_eq hA,
      TypeTable.key_eq hB]
    · rfl
    · rw [TypeTable.key_eq hA, TypeTable.key_eq hB]
      decide
  have hrender : t.render ⟨giverOf (eitherOf a b), false⟩ = "Closure():(\\A|\\B)" := by
    show "" ++ ("Closure" ++ "(" ++ Text.join "," [] ++ ")" ++ t.renderResult (eitherOf a b)) = _
    rw [TypeTable.renderResult.eq_def, hmembers, hunion]
    rfl
  refine ⟨fun e he => ?_, rfl, hrender, hrender⟩
  change e ∈ (eitherOf a b).members at he
  rw [hmembers] at he
  rcases hab with hab | hab <;> rw [hab] at he <;> rcases List.mem_pair.1 he with rfl | rfl
  · exact TypeTable.lt_size_of_entry hA
  · exact TypeTable.lt_size_of_entry hB
  · exact TypeTable.lt_size_of_entry hB
  · exact TypeTable.lt_size_of_entry hA

theorem intern_giverOf_new (h : t.Lists rivalRows rivalNames) {a b : TypeId}
    (hab : [a, b] = [31, 32] ∨ [a, b] = [32, 31]) :
    ∃ t₁, TypeM.intern (giverOf (eitherOf a b)) false t = .ok (33, t₁) ∧
      t₁.Lists (closureRows (eitherOf a b)) closureNames := by
  obtain ⟨t₁, hrun, h₁, -⟩ :=
    h.intern_new (writes_giverOf h (List.prefix_rfl) hab) (by decide) rfl
  exact ⟨t₁, hrun, h₁⟩

theorem declaredType_rivals (rest : List TypeEntry) (others : List (String × TypeId))
    (h : w.types.Lists (rivalRows ++ rest) (others ++ rivalNames))
    (hothers : others.lookup "\\a" = none ∧ others.lookup "\\b" = none) (i : Nat) :
    declaredType outside (classAt i "A") s w = .ok (.ok (.of 31), w) ∧
      declaredType outside (classAt i "B") s w = .ok (.ok (.of 32), w) := by
  have hlookup : ∀ {k : String} {id : TypeId}, others.lookup k = none →
      rivalNames.lookup k = some id → (others ++ rivalNames).lookup k = some id := by
    intro k id hnone hid
    rw [List.lookup_append, hnone, Option.none_or, hid]
  have hA : TypeM.classType (.make "\\" "A") w.types = .ok (31, w.types) :=
    h.intern_found (w.types.writes_object (.make "\\" "A") false) (by decide)
      (hlookup hothers.1 rfl)
  have hB : TypeM.classType (.make "\\" "B") w.types = .ok (32, w.types) :=
    h.intern_found (w.types.writes_object (.make "\\" "B") false) (by decide)
      (hlookup hothers.2 rfl)
  exact ⟨declaredType_classAt (by decide) (by decide) hA,
    declaredType_classAt (by decide) (by decide) hB⟩

/-- The property after a closure that has been evaluated, and the world that it leaves. -/
theorem node_propOfCall_of_closure {a b : TypeId} {x y : ClassName} {d d' : ClassDecl}
    {p : Property} (hclosure : evaluateWithin (k + 1) catching outside
        (.node (closureOf 9 "A" "B")) s w = .ok (.ok (.of 33), w₁))
    (hkept : (w.cacheOf outside)[8]? = none)
    (h : w₁.types.Lists (closureRows (eitherOf a b)) closureNames)
    (hab : [a, b] = [31, 32] ∧ [x, y] = [.make "\\" "A", .make "\\" "B"] ∨
      [a, b] = [32, 31] ∧ [x, y] = [.make "\\" "B", .make "\\" "A"])
    (hbase : w₁.base = rivalBase) (hx : rivalBase.class? x = some d)
    (hy : rivalBase.class? y = some d') (hp : rivalBase.properties.get? x "p" = some p)
    (hstatic : p.modifiers.isStatic = false) (hhidden : p.modifiers.isVisible = false) :
    Evaluator.node ⟨outside, catching, evaluateWithin (k + 2)⟩ propOfCall s w =
      .ok (.error (.issue (secretIssue p)),
        w₁.remember outside 8 (UnionType.empty.union (eitherOf a b))) := by
  have hA := TypeTable.get?_eq (h.entry (i := 31) (e := rivalRows[0]) rfl)
  have hB := TypeTable.get?_eq (h.entry (i := 32) (e := rivalRows[1]) rfl)
  have hentry := TypeTable.get?_eq (h.entry (i := 33) rfl)
  have hcall := evaluateWithin_callOfClosure hclosure hkept hentry
  rcases hab with ⟨⟨⟩, ⟨⟩⟩ | ⟨⟨⟩, ⟨⟩⟩
  · exact node_propOfCall hcall (by decide) (by decide) hA hB (by decide) hbase hx hy hp hstatic
      hhidden
  · exact node_propOfCall hcall (by decide) (by decide) hB hA (by decide) hbase hx hy hp hstatic
      hhidden

theorem not_kept_rivalWorld (t : TypeTable) (n : Nat) :
    ((rivalWorld t).cacheOf outside)[n]? = none := Std.HashMap.getElem?_empty

/-- One way the test fails with the first property in the order of its own closure. -/
theorem typeOf_testOf_fails (h : t.Lists rivalRows rivalNames) :
    ∃ w₁, typeOf false outside (.node testOf) s (rivalWorld t) =
      .ok (.error (.issue (secretIssue secretOfA)), w₁) := by
  obtain ⟨t₁, hrun, h₁⟩ := intern_giverOf_new h (a := 31) (b := 32) (.inl rfl)
  have hclasses := declaredType_rivals (w := rivalWorld t) (s := s) [] [] h ⟨rfl, rfl⟩
  have hclosure : evaluateWithin 497 false outside (.node (closureOf 9 "A" "B")) s (rivalWorld t) =
      .ok (.ok (.of 33), afterClosure (rivalWorld t) t₁ 9 33) :=
    evaluateWithin_closureOf (fun i => (hclasses i).1) (fun i => (hclasses i).2)
      (not_kept_rivalWorld t 9) hrun
  obtain ⟨w₁, hprop⟩ : ∃ w₁, evaluateWithin 499 false outside (.node propOfCall) s (rivalWorld t) =
      .ok (.error (.issue (secretIssue secretOfA)), w₁) :=
    ⟨_, evaluateWithin_of_issue (not_kept_rivalWorld t 7) <|
      node_propOfCall_of_closure hclosure (not_kept_rivalWorld t 8) h₁ (.inl ⟨rfl, rfl⟩) rfl
        class?_rivalBase.1 class?_rivalBase.2 get?_rivalBase.1 rfl rfl⟩
  have hfirst : evaluateWithin 499 false outside (.node missingFirst) s (rivalWorld t) =
      .ok (.error (.issue missingIssue), rivalWorld t) :=
    evaluateWithin_missingFirst rfl fun i _ => not_kept_rivalWorld t i
  have heffects : Evaluator.visitForEffects ⟨outside, false, evaluateWithin 499⟩
      (.node missingFirst) s (rivalWorld t) = .ok (.ok (), rivalWorld t) := by
    have hvisit : Evaluator.visit ⟨outside, false, evaluateWithin 499⟩ (.node missingFirst) s
        (rivalWorld t) = .ok (.error (.issue missingIssue), rivalWorld t) := hfirst
    rw [Evaluator.visitForEffects, recover_apply, bind_apply, hvisit]
    rfl
  have hnode : Evaluator.node ⟨outside, false, evaluateWithin 499⟩ testOf s (rivalWorld t) =
      .ok (.error (.issue (secretIssue secretOfA)), w₁) := by
    show Evaluator.instanceOf _ testOf s (rivalWorld t) = _
    refine (bind_of_ok (a := .node missingFirst) rfl).trans ?_
    refine (bind_of_ok heffects).trans ?_
    refine (bind_of_ok (a := .node propOfCall) rfl).trans ?_
    exact bind_of_error hprop
  exact ⟨w₁, evaluateWithin_of_issue (not_kept_rivalWorld t 0) hnode⟩

/-- The other way the closure that is looked at on the side comes first, so it is the second property
that is reported. -/
theorem typeOf_testOf_reports (h : t.Lists rivalRows rivalNames) :
    ∃ w₁, typeOf true outside (.node testOf) s (rivalWorld t) = .ok (.ok (.native .bool), w₁) ∧
      w₁.issues.toList = [missingIssue, secretIssue secretOfB] := by
  obtain ⟨t₁, hrun, h₁⟩ := intern_giverOf_new h (a := 32) (b := 31) (.inr rfl)
  let w := ({ rivalWorld t with issues := ⟨#[missingIssue]⟩ } : World).remember outside 2 .empty
  have hnone : ∀ i, i ≠ 2 → (w.cacheOf outside)[i]? = none := fun i hi => by
    rw [World.cacheOf_remember_of_ne hi]
    exact not_kept_rivalWorld t i
  have hclasses := declaredType_rivals (w := w) (s := s) [] [] h ⟨rfl, rfl⟩
  have hside : evaluateWithin 498 true outside (.node (closureOf 3 "B" "A")) s w =
      .ok (.ok (.of 33), afterClosure w t₁ 3 33) :=
    evaluateWithin_closureOf (fun i => (hclasses i).2) (fun i => (hclasses i).1)
      (hnone 3 (by decide)) hrun
  have hfirst : evaluateWithin 499 true outside (.node missingFirst) s (rivalWorld t) =
      .ok (.ok (.native .string), (afterClosure w t₁ 3 33).remember outside 1 (.native .string)) :=
    evaluateWithin_missingFirst_reported rfl (fun i _ => not_kept_rivalWorld t i) hside
  let w₁ := (afterClosure w t₁ 3 33).remember outside 1 (.native .string)
  have hnone₁ : ∀ i ∈ [0, 7, 8, 9], (w₁.cacheOf outside)[i]? = none := fun i hi => by
    have hne : i ≠ 1 ∧ i ≠ 3 ∧ i ≠ 2 := by
      refine ⟨?_, ?_, ?_⟩ <;> rintro rfl <;> simp at hi
    rw [World.cacheOf_remember_of_ne hne.1, afterClosure, World.cacheOf_remember_of_ne hne.2.1]
    exact hnone i hne.2.2
  have hclasses₁ := declaredType_rivals (w := w₁) (s := s) _
    [("Closure():(\\A|\\B)", 33), ("Closure():(\\A|\\B)", 33)] h₁ ⟨rfl, rfl⟩
  have hagain : TypeM.intern (giverOf (eitherOf 31 32)) false w₁.types = .ok (33, w₁.types) :=
    h₁.intern_found (writes_giverOf h₁ (List.prefix_append _ _) (.inl rfl)) (by decide) rfl
  have hclosure : evaluateWithin 497 true outside (.node (closureOf 9 "A" "B")) s w₁ =
      .ok (.ok (.of 33), afterClosure w₁ w₁.types 9 33) :=
    evaluateWithin_closureOf (fun i => (hclasses₁ i).1) (fun i => (hclasses₁ i).2)
      (hnone₁ 9 (by decide)) hagain
  obtain ⟨w₂, hprop, hissues⟩ : ∃ w₂, evaluateWithin 499 true outside (.node propOfCall) s w₁ =
      .ok (.ok .empty, w₂) ∧ w₂.issues.toList = [missingIssue, secretIssue secretOfB] :=
    ⟨_, evaluateWithin_of_reported (hnone₁ 7 (by decide)) <|
      node_propOfCall_of_closure hclosure (hnone₁ 8 (by decide)) h₁ (.inr ⟨rfl, rfl⟩) rfl
        class?_rivalBase.2 class?_rivalBase.1 get?_rivalBase.2 rfl rfl, rfl⟩
  have heffects : Evaluator.visitForEffects ⟨outside, true, evaluateWithin 499⟩
      (.node missingFirst) s (rivalWorld t) = .ok (.ok (), w₁) := by
    have hvisit : Evaluator.visit ⟨outside, true, evaluateWithin 499⟩ (.node missingFirst) s
        (rivalWorld t) = .ok (.ok (.native .string), w₁) := hfirst
    rw [Evaluator.visitForEffects, recover_apply, bind_apply, hvisit]
    rfl
  have hnode : Evaluator.node ⟨outside, true, evaluateWithin 499⟩ testOf s (rivalWorld t) =
      .ok (.ok (.native .bool), w₂) := by
    show Evaluator.instanceOf _ testOf s (rivalWorld t) = _
    refine (bind_of_ok (a := .node missingFirst) rfl).trans ?_
    refine (bind_of_ok heffects).trans ?_
    refine (bind_of_ok (a := .node propOfCall) rfl).trans ?_
    exact (bind_of_ok hprop).trans rfl
  exact ⟨_, evaluateWithin_of_node (not_kept_rivalWorld t 0) hnode, hissues⟩

/-- The test fails with an issue of which nothing is reported the other way. -/
theorem typeOf_disagree_testOf : rivalBase.SelfContained ∧ rivalBase.Acyclic ∧
    ∃ t : TypeTable, t.Reachable TypeKind.WellNamed ∧
      (∃ w₁, typeOf false outside (.node testOf) {} (rivalWorld t) =
        .ok (.error (.issue (outside.issue .accessPropertyPrivate 2 ["\\A::$p", "", "0"])), w₁)) ∧
      ∃ w₁, typeOf true outside (.node testOf) {} (rivalWorld t) = .ok (.ok (.native .bool), w₁) ∧
        ∀ i ∈ w₁.issues.toList, i.kind ≠ .accessPropertyPrivate := by
  have hstart : TypeTable.Reachable TypeKind.WellNamed (.initial false) := ⟨false, .refl⟩
  have hA : TypeKind.WellNamed (.object (.make "\\" "A") []) :=
    ⟨["A".toList], by decide, by decide, by decide⟩
  have hB : TypeKind.WellNamed (.object (.make "\\" "B") []) :=
    ⟨["B".toList], by decide, by decide, by decide⟩
  obtain ⟨t₁, hreach₁, l₁⟩ := (TypeTable.lists_initial false).reaches_new hstart hA
    (TypeTable.writes_object _ (.make "\\" "A") false) (by decide) rfl
  obtain ⟨t₂, hreach₂, l₂⟩ := l₁.reaches_new hreach₁ hB
    (TypeTable.writes_object _ (.make "\\" "B") false) (by decide) rfl
  obtain ⟨w₁, hfails⟩ := typeOf_testOf_fails (s := {}) l₂
  obtain ⟨w₂, hreports, hissues⟩ := typeOf_testOf_reports (s := {}) l₂
  refine ⟨selfContained_rivalBase, acyclic_rivalBase, t₂, hreach₂, ⟨w₁, hfails⟩, w₂, hreports, ?_⟩
  rw [hissues]
  decide

end AnalysisM

end UnionInference
