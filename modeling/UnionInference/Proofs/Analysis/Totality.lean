import UnionInference.Proofs.Analysis.Tracing
import UnionInference.Proofs.CodeBase.Ancestry
import UnionInference.Proofs.Types.Arrays

/-!
Every expression has a type. On a sound world, where names in the tree and in the context may be any
text that can name a class and no hierarchy nests too deeply, evaluation ends without a violation and
gives a union of types that the table holds. A class that is written like an array shows why the
names of declarations are restricted.
-/

namespace UnionInference

/-- The names in trees and contexts may be any text that can name a class, results may depend on
strings, and every hierarchy can be expanded. -/
def Regime.lenient : Regime := ⟨False, True, False⟩

namespace AnalysisM

variable {s : Setup} {w : World} {c : Context} {child : Child} {t : TypeTable} {b : CodeBase}

/-- Evaluation ends without a violation: whatever the tree, it gives a union of types that the table
holds, and leaves a sound world. -/
theorem evaluate_total (hw : w.Sound .lenient s) (hc : c.Fits .lenient)
    (hchild : child.Fits .lenient) :
    ∃ u w₁, evaluate c child s w = .ok (.ok u, w₁) ∧ u.Inside w₁.types ∧ w₁.Sound .lenient s := by
  rcases runs_evaluateWithin maxExpressionDepth true c child w hc hchild hw with
    ⟨x, w₁, hrun, hleads, hinside⟩ | ⟨hdeep, -⟩
  · cases x with
    | ok u =>
      refine ⟨u, w₁, ?_, hinside u rfl, hleads.sound⟩
      rw [evaluate, recover_apply, typeOf, hrun]
    | error f =>
      refine ⟨.empty, w₁, ?_, UnionType.held_empty, hleads.sound⟩
      rw [evaluate, recover_apply, typeOf, hrun]
      rfl
  · exact hdeep.elim

/-! ### A new object -/

/-- A class without ancestors. -/
def single : ClassDecl where
  name := .make "\\" "A"
  type := .ofList [31]

/-- A new object of the class. -/
def newSingle : Node :=
  ⟨0, .new, 0, 1, [(.name "class", .node
    ⟨1, .name, NameKind.fullyQualified.code, 1, [(.name "name", .str "A")]⟩)]⟩

/-- A world with the class, and with the scope and the store of a file. -/
def singleWorld (t : TypeTable) : World where
  types := t
  base := (CodeBase.create true).addClass single
  scopes := #[.global]
  caches := #[{}]

theorem regular_single : single.name.Regular :=
  ⟨⟨["A".toList], by decide, by decide, by decide⟩, by unfold QualifiedName.Divided; decide⟩

theorem fits_newSingle : (Child.node newSingle).Fits .lenient := by
  refine .intro ⟨nofun, False.elim⟩ ?_
  rintro n ⟨⟩ e he
  obtain rfl := List.mem_singleton.1 he
  refine .intro ⟨?_, False.elim⟩ ?_
  · rintro - name ⟨⟩
    exact ⟨by decide, ⟨'A', by decide, by decide⟩, False.elim⟩
  · rintro n ⟨⟩ e he
    obtain rfl := List.mem_singleton.1 he
    exact .intro nofun nofun

/-- The type of the class is the only one that is asked for. -/
theorem sound_singleWorld : ∃ t, t.get? 31 = some ⟨.object single.name [], false⟩ ∧
    (singleWorld t).Sound .lenient {} := by
  obtain ⟨t, hrun, hlists, -⟩ := (TypeTable.lists_initial false).intern_new
    (TypeTable.writes_object _ single.name false) (by decide) rfl
  have htype : t.get? 31 = some ⟨.object single.name [], false⟩ :=
    TypeTable.get?_eq (hlists.entry (e := ⟨⟨.object single.name [], false⟩, "\\A"⟩) rfl)
  have htable : t.Sound .lenient := by
    refine TypeTable.Reachable.sound ⟨false, .step (r := .classType single.name []) .refl ?_ hrun⟩
    rintro kind ⟨⟩
    exact ⟨⟨regular_single.typable, fun _ => regular_single⟩, by rintro _ _ ⟨⟩; exact regular_single⟩
  have hmembers : ∀ i ∈ single.type.members, i = 31 := by decide
  have hdecl : single.Sound .lenient t := by
    refine ⟨nofun, fun i hi => ?_, .inr fun i hi => ?_⟩
    · rw [hmembers i hi]
      exact TypeTable.holds_of_lt (TypeTable.lt_size_of_get? htype) fun _ => trivial
    · rw [hmembers i hi]
      exact ⟨_, htype, rfl, nofun⟩
  have hbase := (CodeBase.sound_create .lenient t true).addClass regular_single hdecl
  have hdeclared : ∀ c u, ((CodeBase.create true).addClass single).declared? c = some u →
      single.name.fold = c.fold ∧ single.type = u := by
    intro c u hu
    rw [CodeBase.declared?, CodeBase.class?_addClass OrderedTable.valid_empty,
      CodeBase.class?_create] at hu
    split at hu <;> simp_all [CodeBase.addClass, CodeBase.changed, CodeBase.record, CodeBase.create]
  have hclass : ∀ c u, ((CodeBase.create true).addClass single).declared? c = some u →
      ∀ i ∈ u.members, t.classOf? i = some single.name := by
    intro c u hu i hi
    obtain ⟨-, rfl⟩ := hdeclared c u hu
    rw [hmembers i hi, TypeTable.classOf?, htype]
    rfl
  have hshallow : Shallow .lenient t ((CodeBase.create true).addClass single) := by
    refine .of_walks htable hbase (fun c u hu i hi => ⟨_, hclass c u hu i hi⟩) ?_
    -- the class declares no type but its own
    intro c walk hlength hchain
    obtain ⟨d, rest, rfl⟩ := List.exists_cons_of_length_pos (l := walk) (by rw [hlength]; decide)
    obtain ⟨hne, u, hu, i, hi, hd⟩ := (List.isChain_cons_cons.1 hchain).1
    cases (hclass c u hu i hi).symm.trans hd
    rw [QualifiedName.sameClass, (hdeclared c u hu).1] at hne
    simp at hne
  refine ⟨t, htype, hshallow, ?_, ?_, by simp, by simp⟩
  · intro x hx e he
    rw [List.mem_singleton.1 (Array.mem_toList_iff.2 hx)] at he
    cases he
  · intro m hm k u hu
    rw [List.mem_singleton.1 (Array.mem_toList_iff.2 hm)] at hu
    simp at hu

/-- A new object has a type. -/
theorem evaluate_total_newSingle : ∃ t u w₁,
    evaluate outside (.node newSingle) {} (singleWorld t) = .ok (.ok u, w₁) ∧ u.Inside w₁.types := by
  obtain ⟨t, -, hw⟩ := sound_singleWorld
  obtain ⟨u, w₁, hrun, hu, -⟩ := evaluate_total hw (fits_outside _) fits_newSingle
  exact ⟨t, u, w₁, hrun, hu⟩

/-! ### A class that declares its own arrays

The arrays of `\a` are written like a class `\a[]`. When they are there first, a class `\a` with the
parent `\a[]` declares them, just as if it had been given them as a further type; it has no ancestor
that has an ancestor, and yet its type cannot be expanded. -/

/-- The class, with its own type and the arrays of it. -/
def looped (parent : Option ClassName) : ClassDecl where
  name := .make "\\" "a"
  parent
  type := .ofList [31, 32]

/-- The arrays are asked for before the parent. -/
def loopedRequests (parent : Option ClassName) : List Request :=
  [.type (.classType (.make "\\" "a") []), .type (.array .mixed 31 false),
    .type (.classType (.make "\\" "a[]") []), .register (.classDecl (looped parent))]

/-- The types that are asked for, from place 31 on. -/
def loopedRows : List TypeEntry :=
  [⟨⟨.object (.make "\\" "a") [], false⟩, "\\a"⟩, ⟨⟨.array .mixed 31, false⟩, "\\a[]"⟩]

/-- Where they are found. -/
def loopedNames : List (String × TypeId) :=
  [("\\a[]", 32), ("\\a[]", 32), ("\\a", 31), ("\\a", 31)]

/-- The code base with the class. -/
def loopedBase (parent : Option ClassName) : CodeBase :=
  .registered true [.classDecl (looped parent)]

/-- A function with the variable `$v` of the class. -/
def loopedWorld (t : TypeTable) (parent : Option ClassName) : World where
  types := t
  base := loopedBase parent
  scopes := #[Scope.function.add "v" (.of 31)]
  caches := #[{}]

/-- A use of the variable `$v`. -/
def useOfV : Node := ⟨1, .variable, 0, 1, [(.name "name", .str "v")]⟩

/-- The place after the last element of `$v`. -/
def endOfV : Node := ⟨0, .dim, 0, 1, [(.name "expr", .node useOfV), (.name "dim", .null)]⟩

theorem class?_loopedBase (parent : Option ClassName) (c : ClassName) :
    (loopedBase parent).class? c =
      if (looped parent).name.fold = c.fold then some (looped parent) else none := by
  rw [← CodeBase.class?_create true c]
  exact CodeBase.class?_addClass OrderedTable.valid_empty _ c

theorem run_loopedRequests (parent : Option ClassName) :
    ∃ t, (loopedRequests parent).forM Request.run (.initial false, .create true) =
        .ok ((), t, loopedBase parent) ∧ t.Lists loopedRows loopedNames ∧ t.cache = {} := by
  have hl := TypeTable.lists_initial false
  have hc := TypeTable.cache_initial false
  generalize TypeTable.initial false = t₀ at hl hc ⊢
  obtain ⟨t₁, h₁, l₁, c₁⟩ := hl.intern_new (TypeTable.writes_object _ (.make "\\" "a") false)
    (by decide) rfl
  obtain ⟨t₂, h₂, l₂, c₂⟩ := l₁.intern_new (l₁.writes_array 31 rfl false) (by decide) rfl
  have h₃ : TypeM.intern (.object (.make "\\" "a[]") []) false t₂ = .ok (32, t₂) :=
    l₂.intern_found (TypeTable.writes_object t₂ (.make "\\" "a[]") false) (by decide) rfl
  refine ⟨t₂, ?_, l₂, by rw [c₂, c₁, hc]⟩
  refine ExpandM.bind_eq_ok.2 ⟨(), (t₁, .create true), Request.run_type h₁, ?_⟩
  refine ExpandM.bind_eq_ok.2 ⟨(), (t₂, .create true), Request.run_type h₂, ?_⟩
  exact ExpandM.bind_eq_ok.2 ⟨(), (t₂, .create true), Request.run_type h₃, rfl⟩

variable (parent : Option ClassName)

/-- The class leads to its arrays and these back to the class, whatever the number of levels. -/
theorem expandWithin_looped (h : t.Lists loopedRows loopedNames) (n : Nat) :
    (∃ key, expandWithin n 31 (t, loopedBase parent) =
      .error (.expansionTooDeep key maxExpansionDepth)) ∧
    ∃ key, expandWithin n 32 (t, loopedBase parent) =
      .error (.expansionTooDeep key maxExpansionDepth) := by
  have hclass := h.entry (i := 31) (e := loopedRows[0]) rfl
  have harray := h.entry (i := 32) (e := loopedRows[1]) rfl
  induction n with
  | zero =>
    have hzero {i : TypeId} (hi : i < t.size) : expandWithin 0 i (t, loopedBase parent) =
        .error (.expansionTooDeep (t.key i) maxExpansionDepth) := by
      rw [expandWithin, ExpandM.bind_apply, ExpandM.query, ExpandM.types_apply, TypeM.query,
        TypeTable.typeKey, if_pos hi]
      rfl
    exact ⟨⟨_, hzero (TypeTable.lt_size_of_entry hclass)⟩,
      ⟨_, hzero (TypeTable.lt_size_of_entry harray)⟩⟩
  | succ n ih =>
    obtain ⟨⟨key, hfirst⟩, key', hsecond⟩ := ih
    have hb : (loopedBase parent).SelfContained := (CodeBase.fresh_registered true _).selfContained
    have hdecl : (loopedBase parent).class? (.make "\\" "a") = some (looped parent) :=
      (class?_loopedBase parent _).trans (if_pos rfl)
    constructor
    · refine ⟨key', ?_⟩
      rw [ExpandM.expandWithin_object hclass rfl, hb.declaredType, hdecl]
      have harrays : ExpandM.addDeclared n 31 (.make "\\" "a") false (.of 31) 32
          (t, loopedBase parent) = .error (.expansionTooDeep key' maxExpansionDepth) := by
        show ExpandM.addAncestor n 31 (.make "\\" "a") (.of 31) 32 (t, loopedBase parent) = _
        rw [ExpandM.addAncestor, if_neg (by decide), ExpandM.bind_apply, ExpandM.fetch_apply harray]
        show (expandWithin n 32 >>= fun u => pure ((UnionType.of 31).union u) :
          ExpandM CodeBase UnionType) (t, loopedBase parent) = _
        rw [ExpandM.bind_apply, hsecond]
        rfl
      show (ExpandM.addDeclared n 31 (.make "\\" "a") false (.of 31) 32 >>= fun u => _ :
        ExpandM CodeBase UnionType) (t, loopedBase parent) = _
      rw [ExpandM.bind_apply, harrays]
      rfl
    · refine ⟨key, ?_⟩
      rw [ExpandM.expandWithin_array harray rfl hclass rfl, ExpandM.bind_apply, hfirst]
      rfl

theorem hasAncestor_looped (h : t.Lists loopedRows loopedNames) (hcache : t.cache = {})
    (owner : ClassName) : ∃ key, (UnionType.of 31).hasAncestor owner (t, loopedBase parent) =
      .error (.expansionTooDeep key maxExpansionDepth) := by
  obtain ⟨key, hexpand⟩ := (expandWithin_looped parent (t := t.syncCache
    (loopedBase parent).generation) ⟨h.entries, h.byKey⟩ maxExpansionDepth).1
  have hnone : (t.cache.sync (loopedBase parent).generation).entries[31]? = none := by
    rw [hcache]
    exact Std.HashMap.getElem?_empty
  refine ⟨key, ?_⟩
  rw [ExpandM.hasAncestor_eq, ExpandM.bind_apply, ExpandM.expand_of, expandType_apply, hnone,
    hexpand]
  rfl

theorem visit_useOfV (t : TypeTable) :
    evaluateWithin 499 true outside (.node useOfV) s (loopedWorld t parent) =
      .ok (.ok (.of 31), (loopedWorld t parent).remember outside 1 (.of 31)) :=
  evaluateWithin_variable rfl rfl rfl (Scope.get?_function_add "v" _) Std.HashMap.getElem?_empty

theorem anyMember_looped (h : t.Lists loopedRows loopedNames) (p : Ty → Bool) :
    (UnionType.of 31).anyMember t p = .ok (p ⟨.object (.make "\\" "a") [], false⟩) :=
  UnionType.anyMember_of (TypeTable.get?_eq (h.entry (i := 31) (e := loopedRows[0]) rfl)) p

theorem hasArrayAccess_looped (h : t.Lists loopedRows loopedNames) (hcache : t.cache = {})
    (hw : w.types = t) (hb : w.base = loopedBase parent) :
    ∃ key, Evaluator.hasArrayAccess (.of 31) s w =
      .error (.expansionTooDeep key maxExpansionDepth) := by
  subst hw
  obtain ⟨key, hancestor⟩ := hasAncestor_looped parent h hcache
    (.ofFullName "\\ArrayAccess")
  have hclasses : query (UnionType.of 31).classNames s w = .ok (.ok [.make "\\" "a"], w) := by
    refine query_eq_ok.2 ⟨_, ?_, rfl, rfl⟩
    rw [UnionType.classNames, UnionType.members_of, List.foldlM_cons,
      TypeTable.fetch_eq (h.entry (i := 31) (e := loopedRows[0]) rfl)]
    rfl
  have hclass : types (TypeM.classType (.make "\\" "a")) s w = .ok (.ok 31, w) :=
    types_eq_ok.2 ⟨31, w.types, h.intern_found (TypeTable.writes_object _ (.make "\\" "a") false)
      (by decide) rfl, rfl, rfl⟩
  have hrefused : hierarchy ((UnionType.of 31).hasAncestor (.ofFullName "\\ArrayAccess")) s w =
      .error (.expansionTooDeep key maxExpansionDepth) := by
    show ((UnionType.of 31).hasAncestor _ (w.types, w.base) >>= _ : Checked _) = _
    rw [hb, hancestor]
    rfl
  refine ⟨key, ?_⟩
  rw [Evaluator.hasArrayAccess, bind_of_ok hclasses, List.anyM, bind_apply, if_neg (by decide),
    bind_of_ok hclass, hrefused]

/-- The question whether objects of the class can be indexed is refused. -/
theorem dim_endOfV (h : t.Lists loopedRows loopedNames) (hcache : t.cache = {}) :
    ∃ key, Evaluator.dim ⟨outside, true, evaluateWithin 499⟩ endOfV s (loopedWorld t parent) =
      .error (.expansionTooDeep key maxExpansionDepth) := by
  let w := (loopedWorld t parent).remember outside 1 (.of 31)
  obtain ⟨key, haccess⟩ := hasArrayAccess_looped parent (s := s) (w := w) h hcache rfl rfl
  have hany (p : Ty → Bool) : query (fun t => (UnionType.of 31).anyMember t p) s w =
      .ok (.ok (p ⟨.object (.make "\\" "a") [], false⟩), w) :=
    query_eq_ok.2 ⟨_, anyMember_looped h p, rfl, rfl⟩
  have hclass := h.entry (i := 31) (e := loopedRows[0]) rfl
  have hwithout : types (UnionType.of 31).withoutNull s w = .ok (.ok (.of 31), w) := by
    refine types_eq_ok.2 ⟨.of 31, t, TypeM.bind_eq_ok.2 ⟨[31], t, ?_, rfl⟩, rfl, rfl⟩
    refine TypeM.bind_eq_ok.2 ⟨31, t, ?_, rfl⟩
    exact TypeM.bind_eq_ok.2 ⟨_, t, TypeM.fetch_eq_ok.2 ⟨rfl, _, hclass, rfl⟩, rfl⟩
  have hothers : query (UnionType.of 31).withoutShapes s w = .ok (.ok (.of 31), w) := by
    refine query_eq_ok.2 ⟨.of 31, ?_, rfl, rfl⟩
    rw [UnionType.withoutShapes, UnionType.filterMembers, UnionType.members_of, List.filterM,
      List.filterAuxM, show w.types.fetch 31 = _ from TypeTable.fetch_eq hclass]
    rfl
  have harrays : (query (UnionType.of 31).hasArrayLike <||> pure (UnionType.of 31).hasMixed) s w =
      .ok (.ok false, w) := (bind_of_ok (hany Ty.isArrayLike)).trans rfl
  have hobject : (query (UnionType.of 31).hasTemplate <||> Evaluator.hasArrayAccess (.of 31)) s w =
      .error (.expansionTooDeep key maxExpansionDepth) :=
    (bind_of_ok (hany Ty.isTemplate)).trans haccess
  refine ⟨key, ?_⟩
  rw [Evaluator.dim, bind_of_ok (a := .node useOfV) rfl]
  refine (bind_of_ok (visit_useOfV parent t)).trans ?_
  refine (bind_of_ok (a := none) rfl).trans ?_
  rw [if_neg (by decide), bind_of_ok hwithout]
  refine (bind_of_ok (hany Ty.isShape)).trans ?_
  refine (bind_of_ok (a := .empty) rfl).trans ?_
  refine (bind_of_ok hothers).trans ?_
  refine (bind_of_ok harrays).trans ?_
  refine (bind_of_ok (a := .empty) rfl).trans ?_
  refine (bind_of_ok (hany Ty.isStringLike)).trans ?_
  rw [bind_apply, hobject]

/-- No class that is declared derives from another one, and yet an evaluation is refused: whether the
parent of the class is written like its arrays, or these were given to it as a further type. -/
theorem evaluate_refused_looped :
    (QualifiedName.make "\\" "a[]").Typable ∧
    ∀ parent ∈ [some (QualifiedName.make "\\" "a[]"), none], ∃ t key,
      (loopedRequests parent).forM Request.run (.initial false, .create true) =
        .ok ((), t, loopedBase parent) ∧
      (∀ c, ¬ Climbs t (loopedBase parent) maxExpansionDepth c) ∧
      evaluate outside (.node endOfV) {} (loopedWorld t parent) =
        .error (.expansionTooDeep key maxExpansionDepth) := by
  refine ⟨⟨by decide, by decide, by decide, by decide, by decide⟩, fun parent _ => ?_⟩
  obtain ⟨t, hrun, hlists, hcache⟩ := run_loopedRequests parent
  obtain ⟨key, hdim⟩ := dim_endOfV parent (s := {}) hlists hcache
  refine ⟨t, key, hrun, fun c hlong => ?_, ?_⟩
  · obtain ⟨d, ⟨hne, decl, hdecl, i, hi, d', hd', hfold⟩, -⟩ := climbs_succ.1 hlong
    obtain ⟨hname, rfl⟩ : (looped parent).name.fold = c.fold ∧ looped parent = decl := by
      simpa [class?_loopedBase] using hdecl
    have hmembers : ∀ i ∈ (UnionType.ofList [31, 32]).members, i = 31 ∨ i = 32 := by decide
    rcases hmembers i hi with rfl | rfl
    · rw [TypeTable.classOf?, TypeTable.get?_eq (hlists.entry (e := loopedRows[0]) rfl)] at hd'
      cases hd'
      exact hne (hname.symm.trans hfold)
    · rw [TypeTable.classOf?, TypeTable.get?_eq (hlists.entry (e := loopedRows[1]) rfl)] at hd'
      cases hd'
  · have hnode : Evaluator.node ⟨outside, true, evaluateWithin 499⟩ endOfV {}
        (loopedWorld t parent) = .error (.expansionTooDeep key maxExpansionDepth) := hdim
    rw [evaluate, recover_apply, typeOf_of_not_kept Std.HashMap.getElem?_empty, evaluateNew,
      recover_apply, bind_apply, hnode]

end AnalysisM

end UnionInference
