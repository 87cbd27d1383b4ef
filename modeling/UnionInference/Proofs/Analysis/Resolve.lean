import UnionInference.Proofs.Analysis.Sound

/-!
What names mean on sound worlds. Where the names that contexts and nodes spell may be those of
classes, every question for a class, a member, a variable or a function is answered: a class is taken
from the code base only after it was found there, and what is found mentions types that the table
holds.
-/

namespace UnionInference

/-! ### Trees -/

/-- A child may stand in a tree: what a name node spells may be the name of a class, and where names
are strict numbers are those of the language and strings name regular classes. -/
def Regime.Accepts (r : Regime) : Child → Prop
  | .node n =>
    (n.kind = .name → ∀ name, n.childStr? "name" = some name → r.Spells name) ∧
      (r.strict → Text.isInteger n.line = true)
  | .int i => r.strict → Text.isInteger i = true
  | .str x => r.Plain x
  | _ => True

/-- The child and all below it may stand in a tree. -/
inductive Child.Fits (r : Regime) : Child → Prop
  | intro {child : Child} (here : r.Accepts child)
      (below : ∀ n, child = .node n → ∀ e ∈ n.children, Fits r e.2) : Fits r child

/-- The node and all below it may stand in a tree. -/
abbrev NodeOf.Fits (r : Regime) (n : Node) : Prop := (Child.node n).Fits r

variable {r : Regime} {s : Setup} {w w₁ w₂ : World} {n : Node} {child : Child}

theorem Child.Fits.accepts (h : child.Fits r) : r.Accepts child := by
  cases h with
  | intro here _ => exact here

namespace NodeOf.Fits

theorem children (h : n.Fits r) {e : Slot × Child} (he : e ∈ n.children) : e.2.Fits r := by
  cases h with
  | intro _ below => exact below n rfl e he

theorem child? (h : n.Fits r) {name : String} (hchild : n.child? name = some child) :
    child.Fits r := by
  obtain ⟨⟨slot, c⟩, hmem, hc⟩ := List.exists_of_findSome?_eq_some hchild
  dsimp only at hc
  split at hc
  · cases hc
    exact h.children hmem
  · cases hc

theorem optional? (h : n.Fits r) {name : String} (hchild : optional? n name = some child) :
    child.Fits r := h.child? (Option.filter_eq_some_iff.1 hchild).1

theorem childNode? (h : n.Fits r) {name : String} {m : Node} (hm : n.childNode? name = some m) :
    m.Fits r := by
  obtain ⟨c, hc, hnode⟩ := Option.bind_eq_some_iff.1 hm
  cases c with
  | node m' =>
    cases hnode
    exact h.child? hc
  | _ => cases hnode

theorem list (h : n.Fits r) (hchild : child ∈ n.list) : child.Fits r := by
  obtain ⟨⟨slot, c⟩, hmem, hc⟩ := List.mem_filterMap.1 hchild
  cases slot with
  | index i =>
    cases hc
    exact h.children hmem
  | name x => cases hc

theorem listNode (h : n.Fits r) {m : Node} (hm : m ∈ n.list.filterMap Child.node?) : m.Fits r := by
  obtain ⟨c, hc, hnode⟩ := List.mem_filterMap.1 hm
  cases c with
  | node m' =>
    cases hnode
    exact h.list hc
  | _ => cases hnode

theorem spells (h : n.Fits r) (hkind : n.kind = .name) {name : String}
    (hname : n.childStr? "name" = some name) : r.Spells name := h.accepts.1 hkind name hname

theorem of_node? (h : child.Fits r) {m : Node} (hm : child.node? = some m) : m.Fits r := by
  cases child with
  | node m' =>
    cases hm
    exact h
  | _ => cases hm

end NodeOf.Fits

/-! ### What names mean -/

namespace AnalysisM

variable {c : Context} {u : UnionType} {q : String → Prop}

theorem runs_required (hw : w.Sound r s) (hn : n.Fits r) (name : String) :
    Runs r s w (required n name) fun _ child => child.Fits r ∧ n.child? name = some child := by
  unfold required
  split
  · next child hchild => exact runs_pure hw ⟨hn.child? hchild, hchild⟩
  · exact runs_unanalyzable hw n _

theorem runs_parentOf (hw : w.Sound r s) (c : Context) (owner : ClassName) (line : Nat) :
    Runs r s w (parentOf c owner line) fun _ q => q.Regular := by
  unfold parentOf
  refine (runs_hasClass hw owner).bind fun found w₁ h₁ hfound => ?_
  cases found with
  | false => exact runs_failWith h₁.sound ..
  | true =>
    refine (runs_getClass h₁.sound (hfound rfl)).bind fun decl w₂ h₂ hdecl => ?_
    split
    · exact runs_failWith h₂.sound ..
    · split
      · next parent hparent => exact runs_pure h₂.sound (hdecl.parent parent hparent)
      · exact runs_failWith h₂.sound ..

theorem runs_classOfName (hw : w.Sound r s) (hc : c.Fits r) (hn : n.Fits r)
    (hkind : n.kind = .name) : Runs r s w (classOfName c n) fun _ q => r.Admits q := by
  unfold classOfName
  split
  · exact runs_unanalyzable hw n _
  · next name hname =>
    dsimp only
    split
    · exact runs_pure hw (hc.resolveClass (hn.spells hkind hname) _)
    · split
      · exact runs_failWith hw ..
      · next owner howner =>
        split
        · exact (runs_parentOf hw c owner n.line).imp fun _ _ _ h => h.admits
        · exact runs_pure hw (hc.owner owner howner)

theorem runs_classListWith (hw : w.Sound r s) (c : Context)
    (missing : ClassName → IssueKind × Nat × List String) (hu : u.Held q w.types) :
    Runs r s w (classListWith c missing u) fun w₁ found => ∀ x ∈ found, w₁.Has x := by
  refine runs_foldlM hw (by simp) fun found w₁ i hi h₁ hfound => ?_
  refine (runs_fetch h₁.sound (h₁.keeps.holds (hu i hi))).bind fun ty w₂ h₂ _ => ?_
  have hfound₂ : ∀ x ∈ found, w₂.Has x := fun x hx => h₂.has (hfound x hx)
  split
  · exact runs_pure h₂.sound hfound₂
  · next name _ =>
    split
    · exact runs_pure h₂.sound hfound₂
    · refine (runs_hasClass h₂.sound name).bind fun known w₃ h₃ hknown => ?_
      cases known with
      | false => exact runs_failWith h₃.sound ..
      | true =>
        refine runs_pure h₃.sound fun x hx => ?_
        rcases List.mem_append.1 hx with hx | hx
        · exact h₃.has (hfound₂ x hx)
        · exact List.mem_singleton.1 hx ▸ hknown rfl

theorem runs_addNamedClasses (hw : w.Sound r s) (hu : u.Inside w.types) {found : List ClassName}
    (hfound : ∀ x ∈ found, w.Has x) :
    Runs r s w (addNamedClasses u found) fun w₁ found => ∀ x ∈ found, w₁.Has x := by
  refine runs_foldlM hw hfound fun found w₁ i hi h₁ hfound => ?_
  refine (runs_fetch h₁.sound (h₁.keeps.holds (hu i hi))).bind fun ty w₂ h₂ _ => ?_
  have hfound₂ : ∀ x ∈ found, w₂.Has x := fun x hx => h₂.has (hfound x hx)
  split
  · refine (runs_hasClass h₂.sound _).bind fun known w₃ h₃ hknown => ?_
    have hfound₃ : ∀ x ∈ found, w₃.Has x := fun x hx => h₃.has (hfound₂ x hx)
    cases known with
    | false => exact runs_pure h₃.sound hfound₃
    | true =>
      refine runs_pure h₃.sound fun x hx => ?_
      rw [UnionType.addClass] at hx
      split at hx
      · exact hfound₃ x hx
      · rcases List.mem_append.1 hx with hx | hx
        · exact hfound₃ x hx
        · exact List.mem_singleton.1 hx ▸ hknown rfl
  · exact runs_pure h₂.sound hfound₂

theorem runs_existingClass (hw : w.Sound r s) (c : Context) (name : ClassName) (line : Nat) :
    Runs r s w (existingClass c name line) fun w₁ found => ∀ x ∈ found, w₁.Has x := by
  refine (runs_hasClass hw name).bind fun known w₁ h₁ hknown => ?_
  cases known with
  | false => exact runs_failWith h₁.sound ..
  | true => exact runs_pure h₁.sound fun x hx => List.mem_singleton.1 hx ▸ hknown rfl

theorem runs_classReference (hw : w.Sound r s) (hc : c.Fits r)
    {evaluate : Child → AnalysisM UnionType} (hchild : child.Fits r)
    (hevaluate : Runs r s w (evaluate child) fun w₁ u => u.Inside w₁.types) :
    Runs r s w (classReference c evaluate child) fun w₁ found => ∀ x ∈ found, w₁.Has x := by
  have hexpression (line : Nat) : Runs r s w
      (do let u ← evaluate child; addNamedClasses u (← classList c u line))
      fun w₁ found => ∀ x ∈ found, w₁.Has x := by
    refine hevaluate.bind fun u w₁ h₁ hu => ?_
    refine (runs_classListWith h₁.sound c _ hu).bind fun found w₂ h₂ hfound => ?_
    exact runs_addNamedClasses h₂.sound (hu.keeps h₂.keeps) hfound
  unfold classReference
  split
  · exact runs_existingClass hw ..
  · next m =>
    split
    · next hkind =>
      exact (runs_classOfName hw hc hchild hkind).bind fun q w₁ h₁ _ =>
        runs_existingClass h₁.sound ..
    · exact hexpression m.line
  · exact hexpression c.line

/-- What the placeholders of a class stand for comes from the receiver. -/
theorem runs_receiverTemplates (hw : w.Sound r s) (hu : u.Held q w.types) (owner : ClassName) :
    Runs r s w (receiverTemplates u owner) fun w₁ m => m.Held q w₁.types := by
  unfold receiverTemplates
  refine (runs_hasClass hw owner).bind fun found w₁ h₁ hfound => ?_
  cases found with
  | false => exact runs_pure h₁.sound TemplateMap.held_nil
  | true =>
    refine (runs_getClass h₁.sound (hfound rfl)).bind fun decl w₂ h₂ _ => ?_
    dsimp only
    split
    · exact runs_pure h₂.sound TemplateMap.held_nil
    · refine runs_foldlM h₂.sound TemplateMap.held_nil fun m w₃ i hi h₃ hm => ?_
      have hholds := (h₁.trans (h₂.trans h₃)).keeps.holds (hu i hi)
      refine (runs_fetch h₃.sound hholds).bind fun ty w₄ h₄ hty => ?_
      have hm₄ := hm.keeps h₄.keeps
      split
      · next name args hk =>
        split
        · refine runs_pure h₄.sound (hm₄.foldl_add fun b hb j hj => hty.2.parts j ?_)
          rw [hk]
          exact List.mem_flatMap.2 ⟨b.2, (List.of_mem_zip hb).2, hj⟩
        · exact runs_pure h₄.sound hm₄
      · exact runs_pure h₄.sound hm₄

/-! ### Access -/

theorem runs_canAccess (hw : w.Sound r s) (c : Context) (declaring owner : ClassName)
    (isPrivate : Bool) : Runs r s w (canAccess c declaring owner isPrivate) fun _ _ => True := by
  unfold canAccess
  split
  · exact runs_pure hw trivial
  · split
    · exact runs_pure hw trivial
    · refine (runs_codeBase hw).bind fun b w₁ h₁ _ => ?_
      dsimp only
      split
      · exact runs_pure h₁.sound trivial
      · split
        · exact runs_pure h₁.sound trivial
        · refine (runs_isSubclassOf h₁.sound _ _).bind fun yes w₂ h₂ _ => ?_
          split
          · exact runs_pure h₂.sound trivial
          · refine (runs_isSubclassOf h₂.sound _ _).bind fun yes w₃ h₃ _ => ?_
            split
            · exact runs_pure h₃.sound trivial
            · split
              · exact runs_isSubclassOf h₃.sound _ _
              · exact runs_pure h₃.sound trivial

theorem runs_checkMethodAccess (hw : w.Sound r s) (c : Context) (m : Method) (line : Nat) :
    Runs r s w (checkMethodAccess c m line) fun _ _ => True := by
  unfold checkMethodAccess
  split
  · exact runs_pure hw trivial
  · refine (runs_canAccess hw c _ _ _).bind fun yes w₁ h₁ _ => ?_
    split
    · exact runs_pure h₁.sound trivial
    · exact runs_failWith h₁.sound ..

theorem runs_checkPropertyAccess (hw : w.Sound r s) (c : Context) (p : Property) (line : Nat) :
    Runs r s w (checkPropertyAccess c p line) fun _ _ => True := by
  unfold checkPropertyAccess
  split
  · exact runs_pure hw trivial
  · refine (runs_canAccess hw c _ _ _).bind fun yes w₁ h₁ _ => ?_
    split
    · exact runs_pure h₁.sound trivial
    · exact runs_failWith h₁.sound ..

/-! ### Members -/

/-- The member that was found is sound. -/
def MethodFound (r : Regime) (w : World) (x : Resolution Method) : Prop :=
  ∀ m, x.member? = some m → m.Sound r w.types

theorem MethodFound.leads {x : Resolution Method} (h : MethodFound r w x) (hw : w.Leads r s w₁) :
    MethodFound r w₁ x := fun m hm => (h m hm).keeps hw.keeps

theorem runs_findMethod (hw : w.Sound r s) (owner : ClassName) (name : String) (isStatic : Bool) :
    Runs r s w (findMethod owner name isStatic) fun w₁ x => MethodFound r w₁ x := by
  unfold findMethod
  refine (runs_method? hw owner name).bind fun found w₁ h₁ hfound => ?_
  split
  · next m =>
    refine runs_pure h₁.sound ?_
    rintro _ ⟨⟩
    exact hfound m rfl
  · refine (runs_method? h₁.sound owner _).bind fun magic w₂ h₂ hmagic => ?_
    split
    · next m =>
      refine runs_pure h₂.sound ?_
      rintro _ ⟨⟩
      exact hmagic m rfl
    · exact runs_pure h₂.sound fun _ h => by cases h

theorem runs_resolveMethods (hw : w.Sound r s) (c : Context) (classes : List ClassName)
    (name : String) (isStatic : Bool) {receiver : UnionType} (hreceiver : receiver.Inside w.types)
    (line : Nat) :
    Runs r s w (resolveMethods c classes name isStatic receiver line) fun w₁ found =>
      ∀ x ∈ found, MethodFound r w₁ x := by
  unfold resolveMethods
  split
  · exact (runs_display hw hreceiver).bind fun _ w₁ h₁ _ => runs_failWith h₁.sound ..
  · next first rest =>
    refine Runs.bind (Q := fun w₁ found => ∀ x ∈ found, MethodFound r w₁ x) ?_
      fun found w₁ h₁ hfound => ?_
    · refine runs_foldlM hw (by simp) fun found w₁ owner _ h₁ hfound => ?_
      refine (runs_findMethod h₁.sound owner name isStatic).bind fun x w₂ h₂ hx => ?_
      have hadd {w₃ : World} (h₃ : w₂.Leads r s w₃) : ∀ y ∈ found ++ [x], MethodFound r w₃ y := by
        intro y hy
        rcases List.mem_append.1 hy with hy | hy
        · exact (hfound y hy).leads (h₂.trans h₃)
        · exact List.mem_singleton.1 hy ▸ hx.leads h₃
      split
      · exact (runs_checkMethodAccess h₂.sound c _ line).bind fun _ w₃ h₃ _ =>
          runs_pure h₃.sound (hadd h₃)
      · exact runs_pure h₂.sound (hadd (.refl h₂.sound))
      · exact runs_pure h₂.sound fun y hy => (hfound y hy).leads h₂
    · dsimp only
      split
      · exact runs_failWith h₁.sound ..
      · exact runs_pure h₁.sound hfound

theorem runs_findProperty (hw : w.Sound r s) {owner : ClassName} (howner : owner.Regular)
    (name : String) (isStatic : Bool) :
    Runs r s w (findProperty owner name isStatic) fun w₁ x =>
      ∀ p, x.member? = some p → p.Sound w₁.types := by
  unfold findProperty
  refine (runs_property? hw owner name).bind fun found w₁ h₁ hfound => ?_
  split
  · next p =>
    refine runs_pure h₁.sound fun p' hp' => ?_
    split at hp'
    · cases hp'
      exact hfound p rfl
    · cases hp'
  · split
    · exact runs_pure h₁.sound fun _ h => by cases h
    · refine (runs_method? h₁.sound owner "__get").bind fun magic w₂ h₂ hmagic => ?_
      split
      · next getter =>
        refine runs_pure h₂.sound ?_
        rintro _ ⟨⟩
        exact ⟨howner, howner, (hmagic getter rfl).signature.result⟩
      · exact runs_pure h₂.sound fun _ h => by cases h

theorem runs_resolveProperties (hw : w.Sound r s) (c : Context) {classes : List ClassName}
    (hclasses : ∀ x ∈ classes, x.Regular) (name : String) (isStatic : Bool) (line : Nat) :
    Runs r s w (resolveProperties c classes name isStatic line) fun w₁ found =>
      ∀ p ∈ found, p.Sound w₁.types := by
  unfold resolveProperties
  refine Runs.bind (Q := fun w₁ found => ∀ p ∈ found, Property.Sound w₁.types p) ?_
    fun found w₁ h₁ hfound => ?_
  · refine runs_foldlM hw (by simp) fun found w₁ owner howner h₁ hfound => ?_
    refine (runs_findProperty h₁.sound (hclasses owner howner) name isStatic).bind
      fun x w₂ h₂ hx => ?_
    have hadd {p : Property} (hp : p.Sound w₂.types) {w₃ : World} (h₃ : w₂.Leads r s w₃) :
        ∀ y ∈ found ++ [p], Property.Sound w₃.types y := by
      intro y hy
      rcases List.mem_append.1 hy with hy | hy
      · exact (hfound y hy).keeps (h₂.trans h₃).keeps
      · exact List.mem_singleton.1 hy ▸ hp.keeps h₃.keeps
    split
    · next p =>
      exact (runs_checkPropertyAccess h₂.sound c p line).bind fun _ w₃ h₃ _ =>
        runs_pure h₃.sound (hadd (hx p rfl) h₃)
    · next p => exact runs_pure h₂.sound (hadd (hx p rfl) (.refl h₂.sound))
    · exact runs_pure h₂.sound fun y hy => (hfound y hy).keeps h₂.keeps
  · split
    · exact runs_pure h₁.sound hfound
    · split
      · unfold missingProperty
        split
        · exact runs_failWith h₁.sound ..
        · exact runs_failWith h₁.sound ..
      · exact runs_pure h₁.sound hfound

/-! ### Variables, functions and constants -/

theorem runs_classType (hw : w.Sound r s) {name : ClassName} (hname : r.Admits name) :
    Runs r s w (types (TypeM.classType name)) fun w₁ i => w₁.types.Holds (fun _ => True) i :=
  (runs_types hw (TypeM.supplies_classType (TypeM.traces_true r) hw.types hname)).imp fun _ _ _ h => h.1

/-- The types of the variables that the language provides are made of built-in ones. -/
theorem supplies_providedType {t : TypeTable} (ht : t.Sound r) (x : Scope) (name : String) :
    TypeM.Supplies r t (x.providedType name) fun t₁ found =>
      ∀ u, found = some u → u.Inside t₁ := by
  have harray (key : KeyKind) (k : NativeKind) (nullable : Bool) :
      TypeM.Supplies r t (do return some (UnionType.of (← TypeM.array key k.id nullable)))
        fun t₁ found => ∀ u, found = some u → u.Inside t₁ := by
    have hid := UnionType.held_native (p := fun _ => True) ht k
    refine (TypeM.supplies_array (TypeM.traces_true r) ht key
      (hid k.id (UnionType.mem_of.2 rfl)) nullable).bind fun i t₁ _ ht₁ hi => ?_
    refine TypeM.supplies_pure ht₁ ?_
    rintro _ ⟨⟩
    exact UnionType.held_of hi
  unfold Scope.providedType
  split
  · exact harray .string .mixed false
  · split
    · exact TypeM.supplies_pure ht nofun
    · split
      · refine TypeM.supplies_pure ht ?_
        rintro _ ⟨⟩
        exact UnionType.held_native ht .int
      · exact harray .mixed .string false
      · exact harray .mixed .string true
      · exact TypeM.supplies_pure ht nofun

theorem runs_variableType? (hw : w.Sound r s) (hc : c.Fits r) (name : String) :
    Runs r s w (variableType? c name) fun w₁ found => ∀ u, found = some u → u.Inside w₁.types := by
  unfold variableType?
  split
  · next owner howner _ =>
    refine (runs_classType hw (hc.owner owner howner)).bind fun i w₁ h₁ hi => ?_
    refine runs_pure h₁.sound ?_
    rintro _ ⟨⟩
    exact UnionType.held_of hi
  · refine (runs_scopeOf hw c).bind fun x w₁ h₁ hx => ?_
    split
    · next u hu =>
      refine runs_pure h₁.sound ?_
      rintro _ ⟨⟩
      exact hx.get? hu
    · exact runs_types h₁.sound (supplies_providedType h₁.sound.types x name)

theorem runs_resolveOrCreateVariable (hw : w.Sound r s) (hc : c.Fits r) (name : String)
    (line : Nat) :
    Runs r s w (resolveOrCreateVariable c name line) fun w₁ u => u.Inside w₁.types := by
  unfold resolveOrCreateVariable
  refine (runs_variableType? hw hc name).bind fun found w₁ h₁ hfound => ?_
  split
  · next u => exact runs_pure h₁.sound (hfound u rfl)
  · refine (runs_scopeOf h₁.sound c).bind fun x w₂ h₂ _ => ?_
    refine (runs_options h₂.sound).bind fun o w₃ h₃ _ => ?_
    split
    · exact .of_ok (x := w₃.define c name .empty) rfl (leads_define h₃.sound c name)
        UnionType.held_empty
    · exact runs_fail h₃.sound _

theorem runs_resolveFunction (hw : w.Sound r s) (c : Context) (n : Node) :
    Runs r s w (resolveFunction c n) fun w₁ f => f.signature.Sound r w₁.types := by
  unfold resolveFunction
  split
  · exact runs_unanalyzable hw n _
  · refine (runs_codeBase hw).bind fun b w₁ h₁ hb => ?_
    subst hb
    have hsound {k : FunctionName} {f : FunctionDecl} (hf : w₁.base.function? k = some f) :
        f.signature.Sound r w₁.types := h₁.sound.base.functions _ f hf
    dsimp only
    split
    · next _ _ f hf => exact runs_pure h₁.sound (hsound hf)
    · next f _ hf =>
      obtain ⟨k, -, hf⟩ := Option.bind_eq_some_iff.1 hf
      exact runs_pure h₁.sound (hsound hf)
    · exact runs_failWith h₁.sound ..

theorem runs_resolveGlobal (hw : w.Sound r s) (c : Context) (n : Node) :
    Runs r s w (resolveGlobal c n) fun w₁ k => k.type.Inside w₁.types := by
  unfold resolveGlobal
  split
  · exact runs_unanalyzable hw n _
  · refine (runs_codeBase hw).bind fun b w₁ h₁ hb => ?_
    subst hb
    have hsound {k : ConstantName} {g : GlobalConstant} (hg : w₁.base.global? k = some g) :
        g.type.Inside w₁.types := h₁.sound.base.globals _ g hg
    dsimp only
    split
    · next _ _ g hg => exact runs_pure h₁.sound (hsound hg)
    · next g _ hg =>
      obtain ⟨k, -, hg⟩ := Option.bind_eq_some_iff.1 hg
      exact runs_pure h₁.sound (hsound hg)
    · exact runs_failWith h₁.sound ..

/-! ### Declared types -/

theorem runs_declaredType (hw : w.Sound r s) (hc : c.Fits r) (hn : n.Fits r) :
    Runs r s w (declaredType c n) fun w₁ u => u.Inside w₁.types := by
  induction n using declaredType.induct generalizing w with
  | case5 n hkind ih =>
    -- the types of a union are declared by the nodes in it
    rw [declaredType, hkind]
    refine runs_foldlM hw UnionType.held_empty fun result w₁ m hm h₁ hresult => ?_
    refine (ih m h₁.sound (hn.listNode m.2)).bind fun u w₂ h₂ hu => ?_
    exact runs_pure h₂.sound ((hresult.keeps h₂.keeps).union hu)
  | case3 n hkind inner hinner ih =>
    rw [declaredType, hkind]
    dsimp only
    split
    · next m hm =>
      rw [hinner] at hm
      cases hm
      refine (ih hw (hn.childNode? hinner)).bind fun u w₁ h₁ hu => ?_
      exact runs_types h₁.sound (UnionType.supplies_withNull (TypeM.traces_true r) h₁.sound.types hu)
    · next hnone =>
      rw [hinner] at hnone
      cases hnone
  | case6 n hkind =>
    rw [declaredType, hkind]
    refine (runs_classOfName hw hc hn hkind).bind fun name w₁ h₁ hname => ?_
    refine (runs_classType h₁.sound hname).bind fun i w₂ h₂ hi => ?_
    exact runs_pure h₂.sound (UnionType.held_of hi)
  | case1 n hkind hint hhint =>
    rw [declaredType, hkind]
    simp only [hhint]
    exact runs_pure hw (UnionType.held_native hw.types _)
  | case2 n hkind hhint =>
    rw [declaredType, hkind]
    simp only [hhint]
    exact runs_unanalyzable hw n _
  | case4 n hkind hinner =>
    rw [declaredType, hkind]
    dsimp only
    split
    · next m hm =>
      rw [hinner] at hm
      cases hm
    · exact (runs_required hw hn "type").bind fun _ w₁ h₁ _ => runs_unanalyzable h₁.sound n _
  | case7 n h₁ h₂ h₃ h₄ =>
    rw [declaredType]
    split <;> first | contradiction | exact runs_unanalyzable hw n _

theorem runs_declaredTypeIn (hw : w.Sound r s) (hc : c.Fits r) (hn : n.Fits r) (slot : String) :
    Runs r s w (declaredTypeIn c n slot) fun w₁ u => u.Inside w₁.types := by
  unfold declaredTypeIn
  split
  · next m hm => exact runs_declaredType hw hc (hn.childNode? hm)
  · exact runs_pure hw UnionType.held_empty

end AnalysisM

end UnionInference
