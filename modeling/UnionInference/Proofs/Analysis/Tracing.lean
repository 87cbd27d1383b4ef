import UnionInference.Proofs.Analysis.Frame
import UnionInference.Proofs.Analysis.Safety
import UnionInference.Proofs.Types.Listing

/-!
Where the placeholders of results come from. Where the texts of types tell them apart, a placeholder
in what a call gives belongs to where the call stands, or the callee, the receiver or an argument
mentions it. A property of an object may bring along a placeholder of its declaration: what is known
of the receiver is put in, and the placeholders of which nothing is known are left.
-/

namespace UnionInference

open AnalysisM

/-- Names are regular, so that the texts of types tell them apart; results may depend on strings, and
hierarchies may be of any depth. -/
def Regime.exact : Regime := ⟨True, True, True⟩

namespace Evaluator

variable {r : Regime} {v : Evaluator} {s : Setup} {w w' : World} {c : Context} {n : Node}
  {u : UnionType} {t : TypeTable}

/-- The accesses and calls whose placeholders are followed. -/
def isFollowed (n : Node) : Bool :=
  n.kind ∈ [.call, .methodCall, .nullsafeMethodCall, .staticCall, .prop, .nullsafeProp]

/-- Whether a node fetches the property of an object. -/
def isFetch (n : Node) : Bool := n.kind ∈ [.prop, .nullsafeProp]

/-- Each rule says where the placeholders of its result come from. -/
theorem traced_of_node (hv : v.Safe r s) (hs : r.strict) (hw : w.Sound r s) (hn : n.Fits r)
    (hkind : isFollowed n = true) (h : v.node n s w = .ok (.ok u, w')) :
    ∃ os w₁, v.operands n s w = .ok (.ok os, w₁) ∧ ∀ x, u.Mentions w'.types x →
      Traced v.context w₁.types os x ∨ (isFetch n = true ∧ v.FromProperty n s w x) := by
  -- the rule of a call answers for all placeholders, that of a fetch for those it can
  have hcall {rule : AnalysisM UnionType} {operandsOf : AnalysisM (List UnionType)}
      (hnode : v.node n = rule) (hoperands : v.operands n = operandsOf)
      (hruns : Runs r s w rule fun w' u => ∃ os w₁, operandsOf s w = .ok (.ok os, w₁) ∧
        u.Held (fun x => r.strict → Traced v.context w₁.types os x) w'.types) :
      ∃ os w₁, v.operands n s w = .ok (.ok os, w₁) ∧ ∀ x, u.Mentions w'.types x →
        Traced v.context w₁.types os x ∨ (isFetch n = true ∧ v.FromProperty n s w x) := by
    obtain ⟨-, os, w₁, hrun, hu⟩ := hruns.post (hnode ▸ h)
    exact ⟨os, w₁, hoperands ▸ hrun, fun x hx => .inl (hu.of_mentions hx hs)⟩
  have hfetch (hnode : v.node n = v.prop n) (hoperands : v.operands n = v.propOperands n)
      (hkind : isFetch n = true) :
      ∃ os w₁, v.operands n s w = .ok (.ok os, w₁) ∧ ∀ x, u.Mentions w'.types x →
        Traced v.context w₁.types os x ∨ (isFetch n = true ∧ v.FromProperty n s w x) := by
    obtain ⟨-, os, w₁, hrun, hu⟩ := (runs_prop hv hw hn).post (hnode ▸ h)
    exact ⟨os, w₁, hoperands ▸ hrun, fun x hx => (hu.of_mentions hx hs).imp_right fun h => ⟨hkind, h⟩⟩
  simp only [isFollowed, List.mem_cons, List.not_mem_nil, or_false, decide_eq_true_eq] at hkind
  rcases hkind with hk | hk | hk | hk | hk | hk
  · exact hcall (by rw [node, hk]) (by rw [operands, hk]) (runs_call hv hw hn)
  · exact hcall (by rw [node, hk]) (by rw [operands, hk]) (runs_methodCall hv hw hn)
  · exact hcall (by rw [node, hk]) (by rw [operands, hk]) (runs_methodCall hv hw hn)
  · exact hcall (by rw [node, hk]) (by rw [operands, hk]) (runs_staticCall hv hw hn)
  · exact hfetch (by rw [node, hk]) (by rw [operands, hk]) (by rw [isFetch, hk]; decide)
  · exact hfetch (by rw [node, hk]) (by rw [operands, hk]) (by rw [isFetch, hk]; decide)

/-- Where names are regular, the placeholders in what a call gives are those of where it stands and of
its operands. What the property of an object gives may have those of its declaration besides. -/
theorem placeholders_traced {levels : Nat} {catching : Bool} (hr : r.strict) (hw : w.Sound r s)
    (hc : c.Fits r) (hn : n.Fits r) (hkind : isFollowed n = true)
    (h : Evaluator.node ⟨c, catching, evaluateWithin levels⟩ n s w = .ok (.ok u, w')) :
    ∃ os w₁, operands ⟨c, catching, evaluateWithin levels⟩ n s w = .ok (.ok os, w₁) ∧
      ∀ x, u.Mentions w'.types x → Traced c w₁.types os x ∨
        (isFetch n = true ∧ FromProperty ⟨c, catching, evaluateWithin levels⟩ n s w x) :=
  traced_of_node (v := ⟨c, catching, evaluateWithin levels⟩) ⟨hc, runs_evaluateWithin levels⟩
    hr hw hn hkind h

/-! ### A property that keeps its placeholder

An object of a generic class that is known without arguments: what the placeholder of the class stands
for is not known, and the property that is declared by it gives the placeholder itself. -/

end Evaluator

/-- A node that was not evaluated before has the type that the rule of its kind gives, and the type is
kept. -/
theorem AnalysisM.evaluateWithin_of_node {s : Setup} {w w' : World} {c : Context} {n : Node}
    {u : UnionType} {levels : Nat} {catching : Bool} (hkept : (w.cacheOf c)[n.id]? = none)
    (hnode : Evaluator.node ⟨c, catching, evaluateWithin levels⟩ n s w = .ok (.ok u, w')) :
    evaluateWithin (levels + 1) catching c (.node n) s w = .ok (.ok u, w'.remember c n.id u) := by
  rw [evaluateWithin_node, bind_of_ok (a := w) rfl, hkept]
  dsimp only
  rw [evaluateNew, recover_apply, bind_apply, hnode]
  rfl

/-- A variable that was added to a new scope is there. -/
theorem Scope.get?_function_add (name : String) (u : UnionType) :
    (Scope.function.add name u).get? name = some u := by
  simp [function, get?, add, OrderedTable.get?, OrderedTable.insert]

/-- The use of a variable gives its type, and the type is kept. -/
theorem AnalysisM.evaluateWithin_variable {s : Setup} {w : World} {c : Context} {n : Node}
    {u : UnionType} {name : String} {levels : Nat} {catching : Bool} (hkind : n.kind = .variable)
    (hname : n.childStr? "name" = some name) (howner : c.owner = none)
    (hscope : (w.scopeOf c).get? name = some u) (hkept : (w.cacheOf c)[n.id]? = none) :
    evaluateWithin (levels + 1) catching c (.node n) s w = .ok (.ok u, w.remember c n.id u) := by
  have hfound : variableType? c name s w = .ok (.ok (some u), w) := by
    unfold variableType?
    rw [howner]
    refine (bind_of_ok (a := w.scopeOf c) rfl).trans ?_
    rw [hscope]
    rfl
  refine evaluateWithin_of_node hkept ?_
  rw [Evaluator.node, hkind]
  show Evaluator.variableUse _ n s w = _
  rw [Evaluator.variableUse, hname]
  show resolveOrCreateVariable c name n.line s w = _
  rw [resolveOrCreateVariable, bind_of_ok hfound]
  rfl

theorem AnalysisM.fits_outside (r : Regime) : outside.Fits r :=
  ⟨by decide, fun _ => .inl rfl, by simp [outside], by simp [outside]⟩

/-- A class by its name. -/
def AnalysisM.classAt (id : Nat) (name : String) : Node :=
  ⟨id, .name, NameKind.notFullyQualified.code, 1, [(.name "name", .str name)]⟩

theorem AnalysisM.classOfName_classAt {s : Setup} {w : World} {i : Nat} {name : String}
    {q : ClassName} (hname : isOwnerName name = false)
    (hq : outside.resolveClass name .notFullyQualified = q) :
    classOfName outside (classAt i name) s w = .ok (.ok q, w) := by
  have hkind : nameKind (classAt i name) = .notFullyQualified := rfl
  have hstr : (classAt i name).childStr? "name" = some name := rfl
  unfold classOfName
  rw [hstr, hkind]
  dsimp only
  rw [hname, ← hq]
  rfl

/-- A question to the code base that leaves it as it is. -/
theorem AnalysisM.base_of_eq {α : Type} {s : Setup} {w : World} {work : BaseM α} {a : α}
    (h : work w.base = (a, w.base)) : base work s w = .ok (.ok a, w) := by
  show Except.ok (Except.ok (work w.base).1, { w with base := (work w.base).2 }) = _
  rw [h]

namespace Evaluator

variable {t : TypeTable}

/-- A class with a placeholder. -/
def box : ClassDecl where
  name := .make "\\" "Box"
  templates := ["T"]
  type := .of 31

/-- Its property, of the type of the placeholder. -/
def boxValue : Property where
  name := ⟨.make "\\" "Box", "value"⟩
  type := .of 32

/-- The types that are asked for, from place 31 on. -/
def boxRows : List TypeEntry :=
  [⟨⟨.object (.make "\\" "Box") [], false⟩, "\\Box"⟩, ⟨⟨.template "T", false⟩, "T"⟩]

/-- Where they are found. -/
def boxNames : List (String × TypeId) := [("T", 32), ("T", 32), ("\\Box", 31), ("\\box", 31)]

/-- The code base with the class, whose members are not handed down on demand. -/
def boxBase : CodeBase := ((CodeBase.create false).addClass box).addProperty boxValue

/-- A function with the variable `$b` of the class. -/
def boxWorld (t : TypeTable) : World where
  types := t
  base := boxBase
  scopes := #[Scope.function.add "b" (.of 31)]
  caches := #[{}]

/-- A use of the variable `$b`. -/
def useOfBox : Node := ⟨1, .variable, 0, 1, [(.name "name", .str "b")]⟩

/-- The property of `$b`. -/
def valueOfBox : Node :=
  ⟨0, .prop, 0, 1, [(.name "expr", .node useOfBox), (.name "prop", .str "value")]⟩

theorem regular_box : box.name.Regular :=
  ⟨⟨["Box".toList], by decide, by decide, by decide⟩, by unfold QualifiedName.Divided; decide⟩

theorem regular_placeholder : (TypeKind.template "T").Regular .exact :=
  ⟨fun _ => ⟨⟨by decide, by rintro c ⟨⟩; rfl⟩, fun k => by cases k <;> decide⟩, nofun⟩

theorem exists_boxTable : ∃ t : TypeTable, t.Lists boxRows boxNames ∧ t.Sound .exact := by
  obtain ⟨t₁, h₁, l₁, -⟩ := (TypeTable.lists_initial false).intern_new
    (TypeTable.writes_object _ box.name false) (by decide) rfl
  obtain ⟨t₂, h₂, l₂, -⟩ := l₁.intern_new (t₁.writes_template "T") (by decide) rfl
  refine ⟨t₂, l₂, TypeTable.Reachable.sound ⟨false, .step (r := .intern (.template "T") false)
    (.step (r := .classType box.name []) .refl ?_ h₁) ?_ h₂⟩⟩
  · rintro kind ⟨⟩
    exact ⟨⟨regular_box.typable, fun _ => regular_box⟩, by rintro _ _ ⟨⟩; exact regular_box⟩
  · rintro kind ⟨⟩
    exact regular_placeholder

theorem sound_boxWorld (h : t.Lists boxRows boxNames) (ht : t.Sound .exact) :
    (boxWorld t).Sound .exact {} := by
  have hheld {i : TypeId} {e : TypeEntry} (he : t.entries[i]? = some e) : (UnionType.of i).Inside t :=
    UnionType.held_of (TypeTable.holds_of_lt (TypeTable.lt_size_of_entry he) fun _ => trivial)
  have hbox := hheld (h.entry (i := 31) (e := boxRows[0]) rfl)
  have hvalue := hheld (h.entry (i := 32) (e := boxRows[1]) rfl)
  have hbase : boxBase.Sound .exact t :=
    ((CodeBase.sound_create .exact t false).addClass regular_box
      ⟨nofun, hbox, .inl trivial⟩).addProperty ⟨regular_box, regular_box, hvalue⟩
  refine ⟨⟨ht, hbase, .inl trivial⟩, ?_, ?_, by simp, by simp⟩
  · intro x hx
    rw [List.mem_singleton.1 (Array.mem_toList_iff.2 hx)]
    exact Scope.Inside.add (fun e he => by cases he) "b" hbox
  · intro m hm k u hu
    rw [List.mem_singleton.1 (Array.mem_toList_iff.2 hm)] at hu
    simp at hu

theorem fits_text {x : String} (hx : (QualifiedName.ofFullName x).Regular) :
    (Child.str x).Fits .exact := .intro (fun _ _ => .inr (.inr (.inr hx))) nofun

theorem fits_useOfBox : useOfBox.Fits .exact := by
  refine .intro ⟨nofun, fun _ => by decide⟩ ?_
  rintro n ⟨⟩ e he
  obtain rfl := List.mem_singleton.1 he
  exact fits_text ⟨⟨["b".toList], by decide, by decide, by decide⟩, by
    unfold QualifiedName.Divided; decide⟩

theorem fits_valueOfBox : valueOfBox.Fits .exact := by
  refine .intro ⟨nofun, fun _ => by decide⟩ ?_
  rintro n ⟨⟩ e he
  rcases List.mem_cons.1 he with rfl | he
  · exact fits_useOfBox
  · obtain rfl := List.mem_singleton.1 he
    exact fits_text ⟨⟨["value".toList], by decide, by decide, by decide⟩, by
      unfold QualifiedName.Divided; decide⟩

theorem class?_boxBase : boxBase.class? box.name = some box :=
  (CodeBase.class?_addClass OrderedTable.valid_empty box box.name).trans (if_pos rfl)

theorem hasClass_boxBase : CodeBase.hasClass box.name boxBase = (true, boxBase) := by
  have hb : boxBase.SelfContained :=
    ⟨⟨rfl, OrderedTable.valid_empty.insert _ _, fun _ _ hp => by
      simp [boxBase, CodeBase.addProperty, CodeBase.addClass, CodeBase.changed, CodeBase.record,
        CodeBase.create] at hp⟩, rfl⟩
  rw [hb.hasClass, hb.loadable.isRegistered_eq, class?_boxBase]
  rfl

theorem property?_boxBase :
    CodeBase.property? box.name "value" boxBase = (some boxValue, boxBase) := by
  have hget : boxBase.properties.get? box.name "value" = some boxValue :=
    (MemberTables.valid_empty.get?_add boxValue box.name "value").trans (if_pos ⟨rfl, rfl⟩)
  have hprepare : CodeBase.prepare box.name boxBase = ((), boxBase) := by
    show (if (CodeBase.hasClass box.name boxBase).1 then _ else _ : BaseM Unit)
      (CodeBase.hasClass box.name boxBase).2 = _
    rw [hasClass_boxBase]
    rfl
  show ((CodeBase.prepare box.name boxBase).2.properties.get? box.name "value",
    (CodeBase.prepare box.name boxBase).2) = _
  rw [hprepare, hget]

/-- The world after the box was evaluated. -/
def afterBox (t : TypeTable) : World := (boxWorld t).remember outside 1 (.of 31)

theorem visit_useOfBox (t : TypeTable) :
    evaluateWithin 499 true outside (.node useOfBox) {} (boxWorld t) =
      .ok (.ok (.of 31), afterBox t) :=
  evaluateWithin_variable rfl rfl rfl (Scope.get?_function_add "b" _) Std.HashMap.getElem?_empty

theorem fetch_afterBox (h : t.Lists boxRows boxNames) : query (fun t => t.fetch 31) {} (afterBox t) =
    .ok (.ok ⟨.object box.name [], false⟩, afterBox t) :=
  query_eq_ok.2 ⟨_, TypeTable.fetch_eq (h.entry (i := 31) (e := boxRows[0]) rfl), rfl, rfl⟩

theorem hasClass_afterBox : hasClass box.name {} (afterBox t) = .ok (.ok true, afterBox t) :=
  base_of_eq hasClass_boxBase

theorem withoutNull_afterBox (h : t.Lists boxRows boxNames) :
    types (UnionType.of 31).withoutNull {} (afterBox t) = .ok (.ok (.of 31), afterBox t) := by
  refine types_eq_ok.2 ⟨.of 31, t, TypeM.bind_eq_ok.2 ⟨[31], t, ?_, rfl⟩, rfl, rfl⟩
  refine TypeM.bind_eq_ok.2 ⟨31, t, ?_, rfl⟩
  have hbox := h.entry (i := 31) (e := boxRows[0]) rfl
  exact TypeM.bind_eq_ok.2 ⟨_, t, TypeM.fetch_eq_ok.2 ⟨rfl, _, hbox, rfl⟩, rfl⟩

theorem classList_afterBox (h : t.Lists boxRows boxNames) :
    classList outside (.of 31) 1 {} (afterBox t) = .ok (.ok [box.name], afterBox t) := by
  rw [classList, classListWith, UnionType.members_of, List.foldlM_cons, bind_assoc,
    bind_of_ok (fetch_afterBox h)]
  show ((do
    let found ← hasClass box.name
    if found then return ([] : List ClassName) ++ [box.name] else _) >>= fun found =>
      List.foldlM _ found ([] : List TypeId) : AnalysisM (List ClassName)) {} (afterBox t) = _
  rw [bind_assoc, bind_of_ok hasClass_afterBox]
  rfl

theorem resolveProperties_afterBox :
    resolveProperties outside [box.name] "value" false 1 {} (afterBox t) =
      .ok (.ok [boxValue], afterBox t) := by
  have hproperty : base (CodeBase.property? box.name "value") {} (afterBox t) =
      .ok (.ok (some boxValue), afterBox t) := base_of_eq property?_boxBase
  have hfind : findProperty box.name "value" false {} (afterBox t) =
      .ok (.ok (.found boxValue), afterBox t) := by
    rw [findProperty, bind_of_ok hproperty]
    rfl
  rw [resolveProperties, List.foldlM_cons, bind_assoc, bind_assoc, bind_of_ok hfind]
  rfl

/-- The box was made without arguments, so nothing is known of its placeholder. -/
theorem receiverTemplates_afterBox (h : t.Lists boxRows boxNames) :
    receiverTemplates (.of 31) box.name {} (afterBox t) = .ok (.ok [], afterBox t) := by
  have hget : getClass box.name {} (afterBox t) = .ok (.ok box, afterBox t) := by
    refine getClass_eq_ok.2 ⟨box, boxBase, ?_, rfl, rfl⟩
    have hfilled : (if (afterBox t).base.hydrateLazily then
        (CodeBase.hydrate box.name (afterBox t).base).2 else (afterBox t).base) = boxBase := rfl
    rw [CodeBase.getClass_apply]
    dsimp only
    rw [hfilled, class?_boxBase]
  rw [receiverTemplates, bind_of_ok hasClass_afterBox]
  refine (bind_of_ok hget).trans ?_
  rw [if_neg (by decide), UnionType.members_of, List.foldlM_cons, bind_assoc,
    bind_of_ok (fetch_afterBox h)]
  rfl

theorem resolveStatic_afterBox (h : t.Lists boxRows boxNames) :
    types ((UnionType.of 32).resolveStatic box.name) {} (afterBox t) =
      .ok (.ok (.of 32), afterBox t) := by
  have hvalue := h.entry (i := 32) (e := boxRows[1]) rfl
  refine types_eq_ok.2 ⟨.of 32, t, ?_, rfl, rfl⟩
  refine TypeM.bind_eq_ok.2 ⟨31, t, h.intern_found
    (TypeTable.writes_object t (.make "\\" "Box") false) (by decide) rfl, ?_⟩
  refine TypeM.bind_eq_ok.2 ⟨[32], t, TypeM.bind_eq_ok.2 ⟨32, t, ?_, rfl⟩, rfl⟩
  obtain ⟨below, hbelow⟩ := TypeTable.exists_fetchBelow (TypeTable.get?_eq hvalue)
  rw [TypeM.resolveStatic]
  refine TypeM.bind_eq_ok.2 ⟨⟨boxRows[1].type, below⟩, t, ?_, rfl⟩
  rw [TypeM.fetchBelow, TypeM.query, hbelow]
  rfl

theorem prop_valueOfBox (h : t.Lists boxRows boxNames) :
    prop ⟨outside, true, evaluateWithin 499⟩ valueOfBox {} (boxWorld t) =
      .ok (.ok (.of 32), afterBox t) := by
  have hresult : (do
      let m ← receiverTemplates (.of 31) box.name
      let type ← types ((UnionType.of 32).substitute m)
      return UnionType.empty.union (← types (type.resolveStatic box.name)) : AnalysisM UnionType)
      {} (afterBox t) = .ok (.ok (.of 32), afterBox t) := by
    have hsame : types ((UnionType.of 32).substitute []) {} (afterBox t) =
        .ok (.ok (.of 32), afterBox t) := rfl
    rw [bind_of_ok (receiverTemplates_afterBox h), bind_of_ok hsame,
      bind_of_ok (resolveStatic_afterBox h)]
    rfl
  rw [prop, bind_of_ok (a := .node useOfBox) rfl]
  refine (bind_of_ok (visit_useOfBox t)).trans ?_
  show (types (UnionType.of 31).withoutNull >>= fun receiver => _ : AnalysisM UnionType) {}
    (afterBox t) = _
  rw [bind_of_ok (withoutNull_afterBox h)]
  refine (bind_of_ok (classList_afterBox h)).trans ?_
  refine (bind_of_ok resolveProperties_afterBox).trans ?_
  rw [List.foldlM_cons, bind_assoc]
  exact (bind_of_ok hresult).trans rfl

theorem mentions_template (h : t.Lists boxRows boxNames) : (UnionType.of 32).Mentions t "T" := by
  obtain ⟨below, hbelow⟩ := TypeTable.exists_fetchBelow
    (TypeTable.get?_eq (h.entry (i := 32) (e := boxRows[1]) rfl))
  refine ⟨["T"], ?_, List.mem_singleton_self _⟩
  rw [UnionType.templateNames, UnionType.members_of, List.foldlM_cons, TypeTable.collectTemplates,
    hbelow]
  rfl

/-! ### A callee that mentions a placeholder -/

/-- A closure that gives the placeholder. -/
def giver : CallableSignature where
  isClosure := true
  params := []
  result := .of 31

/-- The types that are asked for, from place 31 on. -/
def giverRows : List TypeEntry :=
  [⟨⟨.template "T", false⟩, "T"⟩, ⟨⟨.callable giver, false⟩, "Closure():T"⟩]

/-- Where they are found. -/
def giverNames : List (String × TypeId) :=
  [("Closure():T", 32), ("Closure():T", 32), ("T", 31), ("T", 31)]

/-- A function whose variable `$b` is the closure. -/
def giverWorld (t : TypeTable) : World where
  types := t
  base := .create false
  scopes := #[Scope.function.add "b" (.of 32)]
  caches := #[{}]

/-- A call of `$b`. -/
def callOfGiver : Node := ⟨0, .call, 0, 1, [(.name "expr", .node useOfBox)]⟩

theorem exists_giverTable : ∃ t : TypeTable, t.Lists giverRows giverNames ∧ t.Sound .exact := by
  obtain ⟨t₁, h₁, l₁, -⟩ := (TypeTable.lists_initial false).intern_new
    (TypeTable.writes_template _ "T") (by decide) rfl
  have hplaceholder := l₁.entry (i := 31) (e := giverRows[0]) rfl
  have hrender : t₁.render ⟨.callable giver, false⟩ = "Closure():T" := by
    show "" ++ ("Closure" ++ "(" ++ Text.join "," [] ++ ")" ++
      (":" ++ t₁.renderUnion (.of 31))) = _
    rw [TypeTable.renderUnion_of, TypeTable.key_eq hplaceholder]
    rfl
  have hinside : ∀ e ∈ (TypeKind.callable giver).embedded, e < t₁.size := fun e he =>
    List.mem_singleton.1 he ▸ TypeTable.lt_size_of_entry hplaceholder
  have hwrites : t₁.Writes (.callable giver) false ⟨.callable giver, false⟩ "Closure():T"
      "Closure():T" := ⟨hinside, rfl, hrender, hrender⟩
  obtain ⟨t₂, h₂, l₂, -⟩ := l₁.intern_new hwrites (by decide) rfl
  refine ⟨t₂, l₂, TypeTable.Reachable.sound ⟨false, .step (r := .intern (.callable giver) false)
    (.step (r := .intern (.template "T") false) .refl ?_ h₁) ?_ h₂⟩⟩
  · rintro kind ⟨⟩
    exact regular_placeholder
  · rintro kind ⟨⟩
    exact ⟨trivial, nofun⟩

theorem sound_giverWorld (h : t.Lists giverRows giverNames) (ht : t.Sound .exact) :
    (giverWorld t).Sound .exact {} := by
  have hclosure : (UnionType.of 32).Inside t := UnionType.held_of (TypeTable.holds_of_lt
    (TypeTable.lt_size_of_entry (h.entry (i := 32) (e := giverRows[1]) rfl)) fun _ => trivial)
  refine ⟨⟨ht, CodeBase.sound_create .exact t false, .inl trivial⟩, ?_, ?_, by simp, by simp⟩
  · intro x hx
    rw [List.mem_singleton.1 (Array.mem_toList_iff.2 hx)]
    exact Scope.Inside.add (fun e he => by cases he) "b" hclosure
  · intro m hm k u hu
    rw [List.mem_singleton.1 (Array.mem_toList_iff.2 hm)] at hu
    simp at hu

theorem fits_callOfGiver : callOfGiver.Fits .exact := by
  refine .intro ⟨nofun, fun _ => by decide⟩ ?_
  rintro n ⟨⟩ e he
  obtain rfl := List.mem_singleton.1 he
  exact fits_useOfBox

theorem call_callOfGiver (h : t.Lists giverRows giverNames) :
    call ⟨outside, true, evaluateWithin 499⟩ callOfGiver {} (giverWorld t) =
      .ok (.ok (.of 31), (giverWorld t).remember outside 1 (.of 32)) := by
  have hvisit : evaluateWithin 499 true outside (.node useOfBox) {} (giverWorld t) =
      .ok (.ok (.of 32), (giverWorld t).remember outside 1 (.of 32)) :=
    evaluateWithin_variable rfl rfl rfl (Scope.get?_function_add "b" _) Std.HashMap.getElem?_empty
  have hfetch : query (fun t => t.fetch 32) {} ((giverWorld t).remember outside 1 (.of 32)) =
      .ok (.ok ⟨.callable giver, false⟩, (giverWorld t).remember outside 1 (.of 32)) :=
    query_eq_ok.2 ⟨_, TypeTable.fetch_eq (h.entry (i := 32) (e := giverRows[1]) rfl), rfl, rfl⟩
  rw [call, bind_of_ok (a := .node useOfBox) rfl]
  refine (bind_of_ok (a := []) rfl).trans ?_
  refine (bind_of_ok hvisit).trans ?_
  rw [calleeResult, UnionType.members_of, List.foldlM_cons, bind_assoc, bind_of_ok hfetch]
  rfl

theorem mentions_given (h : t.Lists giverRows giverNames) : (UnionType.of 31).Mentions t "T" := by
  obtain ⟨below, hbelow⟩ := TypeTable.exists_fetchBelow
    (TypeTable.get?_eq (h.entry (i := 31) (e := giverRows[0]) rfl))
  refine ⟨["T"], ?_, List.mem_singleton_self _⟩
  rw [UnionType.templateNames, UnionType.members_of, List.foldlM_cons, TypeTable.collectTemplates,
    hbelow]
  rfl

/-- The placeholder that the property gives stands in its declaration; the one that the closure gives
is mentioned by the closure. -/
theorem placeholders_traced_box :
    (∃ t u w', Evaluator.node ⟨outside, true, evaluateWithin 499⟩ valueOfBox {} (boxWorld t) =
        .ok (.ok u, w') ∧ u.Mentions w'.types "T" ∧
      ∃ os w₁, operands ⟨outside, true, evaluateWithin 499⟩ valueOfBox {} (boxWorld t) =
        .ok (.ok os, w₁) ∧ (Traced outside w₁.types os "T" ∨
          FromProperty ⟨outside, true, evaluateWithin 499⟩ valueOfBox {} (boxWorld t) "T")) ∧
    ∃ t u w', Evaluator.node ⟨outside, true, evaluateWithin 499⟩ callOfGiver {} (giverWorld t) =
        .ok (.ok u, w') ∧ u.Mentions w'.types "T" ∧
      ∃ os w₁, operands ⟨outside, true, evaluateWithin 499⟩ callOfGiver {} (giverWorld t) =
        .ok (.ok os, w₁) ∧ Traced outside w₁.types os "T" := by
  constructor
  · obtain ⟨t, h, ht⟩ := exists_boxTable
    have hrun := prop_valueOfBox h
    obtain ⟨os, w₁, hoperands, htraced⟩ := placeholders_traced (n := valueOfBox) (u := .of 32)
      trivial (sound_boxWorld h ht) (fits_outside _) fits_valueOfBox rfl hrun
    exact ⟨t, _, _, hrun, mentions_template h, os, w₁, hoperands,
      (htraced "T" (mentions_template h)).imp_right And.right⟩
  · obtain ⟨t, h, ht⟩ := exists_giverTable
    have hrun := call_callOfGiver h
    obtain ⟨os, w₁, hoperands, htraced⟩ := placeholders_traced (n := callOfGiver) (u := .of 31)
      trivial (sound_giverWorld h ht) (fits_outside _) fits_callOfGiver rfl hrun
    refine ⟨t, _, _, hrun, mentions_given h, os, w₁, hoperands, ?_⟩
    -- a call fetches no property
    exact (htraced "T" (mentions_given h)).resolve_right fun hfetch => nomatch hfetch.1

/-- Neither the object nor the place of the access mentions the placeholder. -/
theorem placeholder_leaks_box : ∃ t u w' os w₁, Evaluator.node ⟨outside, true, evaluateWithin 499⟩
      valueOfBox {} (boxWorld t) = .ok (.ok u, w') ∧ u.Mentions w'.types "T" ∧
    operands ⟨outside, true, evaluateWithin 499⟩ valueOfBox {} (boxWorld t) =
      .ok (.ok os, w₁) ∧ ¬ Traced outside w₁.types os "T" := by
  obtain ⟨t, h, -⟩ := exists_boxTable
  have hoperands : operands ⟨outside, true, evaluateWithin 499⟩ valueOfBox {} (boxWorld t) =
      .ok (.ok [.of 31], (boxWorld t).remember outside 1 (.of 31)) := by
    show propOperands _ valueOfBox {} (boxWorld t) = _
    rw [propOperands, bind_of_ok (a := .node useOfBox) rfl]
    exact (bind_of_ok (visit_useOfBox t)).trans rfl
  refine ⟨t, _, _, _, _, prop_valueOfBox h, mentions_template h, hoperands, ?_⟩
  have hnone : (UnionType.of 31).Held (fun _ => False) t :=
    UnionType.held_of (.intro (TypeTable.get?_eq (h.entry (i := 31) (e := boxRows[0]) rfl))
      (by simp [boxRows, TypeKind.embedded]) (by simp [boxRows]))
  rintro (hown | ⟨o, ho, hmentions⟩)
  · simp [outside] at hown
  · rw [List.mem_singleton.1 ho] at hmentions
    exact hnone.of_mentions hmentions

end Evaluator

end UnionInference
