import UnionInference.Proofs.Analysis.Calls

/-!
Evaluation on sound worlds. Every rule runs when the evaluation of children does, so by induction on
the levels every evaluation runs: it gives a type that is held, and it violates nothing that the
library asks for.
-/

namespace UnionInference

open AnalysisM

variable {r : Regime} {s : Setup} {w w₁ w₂ : World} {n : Node} {child : Child} {u : UnionType}
  {c : Context}

theorem Context.Fits.of_eq {c' : Context} (h : c.Fits r) (hspace : c'.space = c.space)
    (himports : c'.imports = c.imports) (howner : c'.owner = c.owner) : c'.Fits r :=
  ⟨hspace ▸ h.undivided, hspace ▸ h.path, himports ▸ h.imports, howner ▸ h.owner⟩

/-- The string that spells a class may be a literal. -/
theorem Regime.Admits.plain {q : ClassName} (h : r.Admits q) : r.Plain q.classString := by
  intro hs _
  rw [(h.regular hs).ofFullName_classString]
  exact .inr (.inr (.inr (h.regular hs)))

/-- The string that spells the namespace may be a literal. -/
theorem Context.Fits.plain (h : c.Fits r) :
    r.Plain (String.ofList (c.space.toList.dropWhile isSeparator)) := by
  intro hs _
  rcases h.path hs with hroot | ⟨segments, hne, hsegments, htext⟩
  · left
    rw [hroot]
    decide
  · refine .inr (.inr (.inr (QualifiedName.regular_ofFullName hne hsegments ?_)))
    rw [String.toList_ofList, List.dropWhile_idempotent, htext]

namespace Evaluator

variable {v : Evaluator}

/-! ### Names and constants -/

theorem runs_className (hv : v.Safe r s) (hw : w.Sound r s) (hn : n.Fits r)
    (hkind : n.kind = .name) : Runs r s w (v.className n) fun w₁ u => u.Inside w₁.types := by
  refine (runs_classOfName hw hv.context hn hkind).bind fun name w₁ h₁ hname => ?_
  refine (runs_classType h₁.sound hname).bind fun i w₂ h₂ hi => ?_
  exact runs_pure h₂.sound (UnionType.held_of hi)

theorem runs_variableUse (hv : v.Safe r s) (hw : w.Sound r s) :
    Runs r s w (v.variableUse n) fun w₁ u => u.Inside w₁.types := by
  unfold variableUse
  split
  · exact runs_unanalyzable hw n _
  · exact runs_resolveOrCreateVariable hw hv.context ..

theorem runs_constant (hw : w.Sound r s) :
    Runs r s w (v.constant n) fun w₁ u => u.Inside w₁.types := by
  have hnative (k : NativeKind) : Runs r s w (pure (UnionType.native k)) fun w₁ u =>
    u.Inside w₁.types := runs_pure hw (UnionType.held_native hw.types k)
  unfold constant
  split
  · exact runs_unanalyzable hw n _
  · split
    · exact hnative .true
    · exact hnative .false
    · exact hnative .null
    · exact (runs_resolveGlobal hw _ _).bind fun k w₁ h₁ hk => runs_pure h₁.sound hk

theorem runs_classStringType (hw : w.Sound r s) {name : ClassName} (hname : r.Admits name) :
    Runs r s w (classStringType name) fun w₁ u => u.Inside w₁.types :=
  runs_literalType hw nofun fun x hx => by
    cases hx
    exact hname.plain

theorem runs_classString (hv : v.Safe r s) (hw : w.Sound r s) (hchild : child.Fits r) :
    Runs r s w (v.classString n child) fun w₁ u => u.Inside w₁.types := by
  unfold classString
  split
  · next m =>
    split
    · next hkind =>
      exact (runs_classOfName hw hv.context hchild hkind).bind fun name w₁ h₁ hname =>
        runs_classStringType h₁.sound hname
    · exact (hv.visitForEffects hw hchild).bind fun _ w₁ h₁ _ =>
        runs_pure h₁.sound (UnionType.held_native h₁.sound.types .string)
  · exact runs_unanalyzable hw n _

theorem runs_resolveClassConstant (hv : v.Safe r s) (hw : w.Sound r s) (hchild : child.Fits r)
    (name : String) (line : Nat) :
    Runs r s w (resolveClassConstant v.context v.visit child name line) fun w₁ found =>
      ∀ k ∈ found, k.type.Inside w₁.types := by
  unfold resolveClassConstant
  refine (runs_classReference hv hw hchild).bind fun classes w₁ h₁ _ => ?_
  refine Runs.bind (Q := fun w₁ found => ∀ k ∈ found, UnionType.Inside w₁.types (ClassConstant.type k))
    ?_ fun found w₂ h₂ hfound => ?_
  · refine runs_foldlM h₁.sound (by simp) fun found w₂ owner _ h₂ hfound => ?_
    refine (runs_constant? h₂.sound owner name).bind fun x w₃ h₃ hx => ?_
    have hfound₃ := fun k hk => (hfound k hk).keeps h₃.keeps
    split
    · next k =>
      refine runs_pure h₃.sound fun k' hk' => ?_
      rcases List.mem_append.1 hk' with hk' | hk'
      · exact hfound₃ k' hk'
      · exact List.mem_singleton.1 hk' ▸ hx k rfl
    · exact runs_pure h₃.sound hfound₃
  · split
    · split
      · exact runs_failWith h₂.sound ..
      · exact runs_pure h₂.sound hfound
    · exact runs_pure h₂.sound hfound

theorem runs_classConst (hv : v.Safe r s) (hw : w.Sound r s) (hn : n.Fits r) :
    Runs r s w (v.classConst n) fun w₁ u => u.Inside w₁.types := by
  unfold classConst
  refine (runs_required hw hn "class").bind fun owner w₁ h₁ howner => ?_
  split
  · exact runs_unanalyzable h₁.sound n _
  · next name _ =>
    split
    · exact runs_classString hv h₁.sound howner.1
    · refine (runs_resolveClassConstant hv h₁.sound howner.1 name n.line).bind
        fun found w₂ h₂ hfound => runs_pure h₂.sound ?_
      have hloop : ∀ (ks : List ClassConstant) (u : UnionType), u.Inside w₂.types →
          (∀ k ∈ ks, k.type.Inside w₂.types) →
          (ks.foldl (fun u k => u.union k.type) u).Inside w₂.types := by
        intro ks
        induction ks with
        | nil => exact fun u hu _ => hu
        | cons k ks ih =>
          exact fun u hu hks => ih _ (hu.union (hks k List.mem_cons_self)) fun k' hk' =>
            hks k' (List.mem_cons_of_mem _ hk')
      exact hloop found _ UnionType.held_empty hfound

theorem runs_magicConst (hv : v.Safe r s) (hw : w.Sound r s) (hn : n.Fits r) :
    Runs r s w (v.magicConst n) fun w₁ u => u.Inside w₁.types := by
  have hstring : Runs r s w (pure (UnionType.native .string)) fun w₁ u => u.Inside w₁.types :=
    runs_pure hw (UnionType.held_native hw.types .string)
  unfold magicConst
  split
  · refine runs_literalType hw (fun i hi hs => ?_) nofun
    cases hi
    exact hn.accepts.2 hs
  · split
    · next owner howner => exact runs_classStringType hw (hv.context.owner owner howner)
    · exact hstring
  · refine runs_literalType hw nofun fun x hx => ?_
    cases hx
    exact hv.context.plain
  · exact hstring
  · exact runs_unanalyzable hw n _

/-! ### Objects -/

theorem runs_mayBeObject (hw : w.Sound r s) (hu : u.Inside w.types) :
    Runs r s w (mayBeObject u) fun _ _ => True := by
  unfold mayBeObject
  refine runs_orM (runs_pure hw trivial) fun w₁ h₁ => ?_
  refine runs_orM (runs_any h₁.sound (hu.keeps h₁.keeps) _) fun w₂ h₂ => ?_
  exact runs_any h₂.sound (hu.keeps (h₁.trans h₂).keeps) _

theorem runs_mayNameClass (hw : w.Sound r s) (hu : u.Inside w.types) :
    Runs r s w (mayNameClass u) fun _ _ => True := by
  unfold mayNameClass
  refine runs_orM (runs_pure hw trivial) fun w₁ h₁ => ?_
  refine runs_orM (runs_any h₁.sound (hu.keeps h₁.keeps) _) fun w₂ h₂ => ?_
  have hu₂ := hu.keeps (h₁.trans h₂).keeps
  refine runs_orM (runs_any h₂.sound hu₂ _) fun w₃ h₃ => ?_
  exact runs_any h₃.sound (hu₂.keeps h₃.keeps) _

theorem runs_instanceOf (hv : v.Safe r s) (hw : w.Sound r s) (hn : n.Fits r) :
    Runs r s w (v.instanceOf n) fun w₁ u => u.Inside w₁.types := by
  have hbool {w₁ : World} (hw₁ : w₁.Sound r s) : Runs r s w₁ (pure (UnionType.native .bool))
      fun w₁ u => u.Inside w₁.types := runs_pure hw₁ (UnionType.held_native hw₁.types .bool)
  unfold instanceOf
  refine (runs_required hw hn "expr").bind fun child w₁ h₁ hchild => ?_
  refine (hv.visitForEffects h₁.sound hchild.1).bind fun _ w₂ h₂ _ => ?_
  refine (runs_required h₂.sound hn "class").bind fun owner w₃ h₃ howner => ?_
  dsimp only
  split
  · next name hname =>
    obtain ⟨hnode, hkind⟩ := Option.filter_eq_some_iff.1 hname
    refine Runs.bind (Q := fun _ _ => True) (Runs.recover ?_ fun f w₄ h₄ => ?_)
      fun _ w₄ h₄ _ => hbool h₄.sound
    · refine (runs_classOfName h₃.sound hv.context (.of_node? howner.1 hnode)
        (by simpa using hkind)).bind fun q w₄ h₄ _ => ?_
      refine (runs_hasClass h₄.sound q).bind fun found w₅ h₅ _ => ?_
      split
      · exact runs_report h₅.sound ..
      · exact runs_pure h₅.sound trivial
    · split
      · exact runs_emit h₄.sound _
      · exact runs_pure h₄.sound trivial
  · refine (hv.visit h₃.sound howner.1).bind fun type w₄ h₄ htype => ?_
    refine (runs_mayNameClass h₄.sound htype).bind fun yes w₅ h₅ _ => ?_
    split
    · refine (runs_display h₅.sound (htype.keeps h₅.keeps)).bind fun _ w₆ h₆ _ => ?_
      exact (runs_report h₆.sound ..).bind fun _ w₇ h₇ _ => hbool h₇.sound
    · exact hbool h₅.sound

theorem runs_clone (hv : v.Safe r s) (hw : w.Sound r s) (hn : n.Fits r) :
    Runs r s w (v.clone n) fun w₁ u => u.Inside w₁.types := by
  unfold clone
  refine (runs_required hw hn "expr").bind fun child w₁ h₁ hchild => ?_
  refine (hv.visit h₁.sound hchild.1).bind fun operand w₂ h₂ hoperand => ?_
  refine (runs_mayBeObject h₂.sound hoperand).bind fun yes w₃ h₃ _ => ?_
  split
  · exact runs_pure h₃.sound (hoperand.keeps h₃.keeps)
  · exact (runs_display h₃.sound (hoperand.keeps h₃.keeps)).bind fun _ _ h₄ _ =>
      runs_failWith h₄.sound ..

/-! ### Choices -/

theorem runs_knownConditional (hv : v.Safe r s) (hw : w.Sound r s) {cond no : Child}
    {yes : Option Child} (hcond : cond.Fits r) (hyes : ∀ y, yes = some y → y.Fits r)
    (hno : no.Fits r) (holds : Bool) :
    Runs r s w (v.knownConditional holds cond yes no) fun w₁ u => u.Inside w₁.types := by
  unfold knownConditional
  refine (hv.visit hw hcond).bind fun type w₁ h₁ htype => ?_
  split
  · next y =>
    exact (hv.visitForEffects h₁.sound hno).bind fun _ w₂ h₂ _ => hv.visit h₂.sound (hyes y rfl)
  · exact (hv.visitForEffects h₁.sound hno).bind fun _ w₂ h₂ _ =>
      runs_pure h₂.sound (htype.keeps h₂.keeps)
  · next y =>
    exact (hv.visitForEffects h₁.sound (hyes y rfl)).bind fun _ w₂ h₂ _ => hv.visit h₂.sound hno
  · exact hv.visit h₁.sound hno

theorem runs_conditional (hv : v.Safe r s) (hw : w.Sound r s) (hn : n.Fits r) :
    Runs r s w (v.conditional n) fun w₁ u => u.Inside w₁.types := by
  unfold conditional
  refine (runs_required hw hn "cond").bind fun cond w₁ h₁ hcond => ?_
  refine (runs_required h₁.sound hn "false").bind fun no w₂ h₂ hno => ?_
  dsimp only
  split
  · exact runs_knownConditional hv h₂.sound hcond.1 (fun y hy => hn.optional? hy) hno.1 _
  · refine (runs_narrow h₂.sound v.context true).bind fun whenTrue w₃ h₃ htrue => ?_
    refine (runs_narrow h₃.sound v.context false).bind fun whenFalse w₄ h₄ hfalse => ?_
    have hfits {c' : Context} (hc' : ∃ i, c' = { v.context with scope := i }) : c'.Fits r := by
      obtain ⟨i, rfl⟩ := hc'
      exact hv.context.of_eq rfl rfl rfl
    refine (hv.visit h₄.sound hcond.1).bind fun type w₅ h₅ htype => ?_
    have hrest {w₆ : World} {first : UnionType} (hw₆ : w₆.Sound r s)
        (hfirst : first.Inside w₆.types) : Runs r s w₆
        (do
          let second ← v.visitIn whenFalse no
          let result := first.union second
          return if first.isEmpty != second.isEmpty then result.insert NativeKind.mixed.id
            else result) fun w₁ u => u.Inside w₁.types := by
      refine (hv.run _ _ _ _ (hfits hfalse) hno.1 hw₆).bind fun second w₇ h₇ hsecond => ?_
      have hboth := (hfirst.keeps h₇.keeps).union hsecond
      refine runs_pure h₇.sound ?_
      split
      · exact hboth.insert (UnionType.held_native h₇.sound.types .mixed _ (UnionType.mem_of.2 rfl))
      · exact hboth
    split
    · next y hy =>
      exact (hv.run _ _ _ _ (hfits htrue) (hn.optional? hy) h₅.sound).bind fun first w₆ h₆ hfirst =>
        hrest h₆.sound hfirst
    · refine ((runs_withoutNull h₅.sound (TypeM.traces_true r) htype).map
        (R := fun w₁ u => UnionType.Inside w₁.types u) _ fun x w₆ h₆ hx => hx.erase _).bind
        fun first w₆ h₆ hfirst => hrest h₆.sound hfirst

theorem runs_matchExpr (hv : v.Safe r s) (hw : w.Sound r s) (hn : n.Fits r) :
    Runs r s w (v.matchExpr n) fun w₁ u => u.Inside w₁.types := by
  unfold matchExpr
  refine (runs_required hw hn "cond").bind fun cond w₁ h₁ hcond => ?_
  refine (hv.visitForEffects h₁.sound hcond.1).bind fun _ w₂ h₂ _ => ?_
  split
  · exact runs_unanalyzable h₂.sound n _
  · next arms harms =>
    refine runs_foldlM h₂.sound UnionType.held_empty fun result w₃ arm harm h₃ hresult => ?_
    have hfits := (hn.childNode? harms).listNode harm
    have hrest {w₄ : World} (h₄ : w₃.Leads r s w₄) : Runs r s w₄
        (do return result.union (← v.visit (← required arm "expr")))
        fun w₁ u => u.Inside w₁.types := by
      refine (runs_required h₄.sound hfits "expr").bind fun child w₅ h₅ hchild => ?_
      refine (hv.visit h₅.sound hchild.1).bind fun x w₆ h₆ hx => ?_
      exact runs_pure h₆.sound ((hresult.keeps (h₄.trans (h₅.trans h₆)).keeps).union hx)
    dsimp only
    split
    · next conds hconds =>
      refine (runs_forM h₃.sound fun w₄ child hchild h₄ => ?_).bind fun _ w₄ h₄ _ => hrest h₄
      exact hv.visitForEffects h₄.sound ((hfits.childNode? hconds).list hchild)
    · exact hrest (.refl h₃.sound)

/-! ### Functions as values -/

theorem runs_closureParam (hv : v.Safe r s) (hw : w.Sound r s) (hn : n.Fits r) :
    Runs r s w (v.closureParam n) fun w₁ p => p.type.Inside w₁.types := by
  unfold closureParam
  exact (runs_declaredTypeIn hw hv.context hn "type").bind fun type w₁ h₁ htype =>
    runs_pure h₁.sound htype

theorem fits_of_mem_paramNodes (hn : n.Fits r) {p : Node} (hp : p ∈ paramNodes n) : p.Fits r := by
  unfold paramNodes at hp
  split at hp
  · next ps hps => exact (hn.childNode? hps).listNode hp
  · cases hp

theorem runs_closureParams (hv : v.Safe r s) (hw : w.Sound r s) (hn : n.Fits r) :
    Runs r s w ((paramNodes n).mapM v.closureParam) fun w₁ ps =>
      ∀ p ∈ ps, p.type.Inside w₁.types :=
  runs_mapM hw (fun _ _ _ h₂ hp => hp.keeps h₂.keeps) fun _ _ hp h₁ =>
    runs_closureParam hv h₁.sound (fits_of_mem_paramNodes hn hp)

theorem runs_closureType (hw : w.Sound r s) {params : List CallableParam}
    (hparams : ∀ p ∈ params, p.type.Inside w.types) (hu : u.Inside w.types) :
    Runs r s w (closureType params u) fun w₁ u => u.Inside w₁.types := by
  refine (runs_types hw (TypeM.supplies_intern (TypeM.traces_true r) hw.types
    (.callable { isClosure := true, params, result := u }) false
    (TypeTable.HoldsKind.callable hparams hu) trivial (by simp))).bind fun i w₁ h₁ hi => ?_
  exact runs_pure h₁.sound (UnionType.held_of hi.1)

theorem runs_closure (hv : v.Safe r s) (hw : w.Sound r s) (hn : n.Fits r) :
    Runs r s w (v.closure n) fun w₁ u => u.Inside w₁.types := by
  refine (runs_closureParams hv hw hn).bind fun params w₁ h₁ hparams => ?_
  refine (runs_declaredTypeIn h₁.sound hv.context hn "returnType").bind fun u w₂ h₂ hu => ?_
  exact runs_closureType h₂.sound (fun p hp => (hparams p hp).keeps h₂.keeps) hu

theorem supplies_insideType {t : TypeTable} (ht : t.Sound r) {p : CallableParam}
    (hp : p.type.Inside t) : TypeM.Supplies r t (insideType p) fun t₁ u => u.Inside t₁ := by
  unfold insideType
  split
  · split
    · exact TypeM.supplies_pure ht (UnionType.held_native ht .array)
    · exact UnionType.supplies_asArrays (TypeM.traces_true r) ht hp .int
  · exact TypeM.supplies_pure ht hp

theorem runs_arrowScope (hw : w.Sound r s) {params : List CallableParam}
    (hparams : ∀ p ∈ params, p.type.Inside w.types) :
    Runs r s w (v.arrowScope n params) fun w₁ x => x.Inside w₁.types := by
  unfold arrowScope
  refine (runs_scopeOf hw v.context).bind fun outer w₁ h₁ houter => ?_
  have hcopied : ∀ (es : List (String × UnionType)) (x : Scope), x.Inside w₁.types →
      (∀ e ∈ es, e.2.Inside w₁.types) →
      (es.foldl (fun x e => x.add e.1 e.2) x).Inside w₁.types := by
    intro es
    induction es with
    | nil => exact fun x hx _ => hx
    | cons e es ih =>
      exact fun x hx hes => ih _ (hx.add e.1 (hes e List.mem_cons_self)) fun e' he' =>
        hes e' (List.mem_cons_of_mem _ he')
  have hempty : Scope.function.Inside w₁.types := fun e he => by
    simp [Scope.function, OrderedTable.toList] at he
  refine runs_foldlM h₁.sound (hcopied _ _ hempty houter) fun x w₂ e he h₂ hx => ?_
  obtain ⟨p, param⟩ := e
  have hparam := (hparams param (List.of_mem_zip he).2).keeps (h₁.trans h₂).keeps
  dsimp only
  split
  · next name _ =>
    refine (runs_types h₂.sound (supplies_insideType h₂.sound.types hparam)).bind
      fun u w₃ h₃ hu => ?_
    exact runs_pure h₃.sound ((hx.keeps h₃.keeps).add name hu)
  · exact runs_pure h₂.sound hx

theorem runs_arrowFunction (hv : v.Safe r s) (hw : w.Sound r s) (hn : n.Fits r) :
    Runs r s w (v.arrowFunction n) fun w₁ u => u.Inside w₁.types := by
  unfold arrowFunction
  refine (runs_closureParams hv hw hn).bind fun params w₁ h₁ hparams => ?_
  split
  · next type htype =>
    refine (runs_declaredType h₁.sound hv.context (hn.childNode? htype)).bind fun u w₂ h₂ hu => ?_
    exact runs_closureType h₂.sound (fun p hp => (hparams p hp).keeps h₂.keeps) hu
  · refine (runs_arrowScope h₁.sound hparams).bind fun scope w₂ h₂ hscope => ?_
    refine (runs_withScope h₂.sound _ hscope).bind fun inside w₃ h₃ hinside => ?_
    refine (runs_required h₃.sound hn "stmts").bind fun child w₄ h₄ hchild => ?_
    have hfits : inside.Fits r := by
      obtain ⟨i, rfl⟩ := hinside
      exact hv.context.of_eq rfl rfl rfl
    refine (hv.run _ _ _ _ hfits hchild.1 h₄.sound).bind fun u w₅ h₅ hu => ?_
    exact runs_closureType h₅.sound (fun p hp => (hparams p hp).keeps
      (h₂.trans (h₃.trans (h₄.trans h₅))).keeps) hu

/-! ### All kinds of node -/

theorem runs_effectsOf (hv : v.Safe r s) (hw : w.Sound r s) (hn : n.Fits r) (slot : String) :
    Runs r s w (v.effectsOf n slot) fun _ _ => True := by
  unfold effectsOf
  split
  · next child hchild => exact hv.visitForEffects hw (hn.optional? hchild)
  · exact runs_pure hw trivial

/-- A child that is looked at for its issues, and a built-in type. -/
theorem runs_effectsThen (hv : v.Safe r s) (hw : w.Sound r s) (hn : n.Fits r) (name : String)
    (k : NativeKind) :
    Runs r s w (do
      v.visitForEffects (← required n name)
      return UnionType.native k) fun w₁ u => u.Inside w₁.types := by
  refine (runs_required hw hn name).bind fun child w₁ h₁ hchild => ?_
  exact (hv.visitForEffects h₁.sound hchild.1).bind fun _ w₂ h₂ _ =>
    runs_pure h₂.sound (UnionType.held_native h₂.sound.types k)

theorem runs_node (hv : v.Safe r s) (hw : w.Sound r s) (hn : n.Fits r) :
    Runs r s w (v.node n) fun w₁ u => u.Inside w₁.types := by
  unfold node
  cases hkind : n.kind with
  | «variable» => exact runs_variableUse hv hw
  | name => exact runs_className hv hw hn hkind
  | constant => exact runs_constant hw
  | classConst => exact runs_classConst hv hw hn
  | className =>
    exact (runs_required hw hn "class").bind fun _ w₁ h₁ howner => runs_classString hv h₁.sound howner.1
  | magicConst => exact runs_magicConst hv hw hn
  | binaryOp => exact runs_operation hv hw hn "left" "right" _
  | unaryOp => exact runs_unaryOp hv hw hn
  | preInc | preDec | postInc | postDec => exact runs_incDec hv hw hn
  | assign | assignRef => exact hv.visitRequired hw hn "expr"
  | assignOp => exact runs_operation hv hw hn "var" "expr" _
  | cast => exact runs_cast hv hw hn
  | instanceOf => exact runs_instanceOf hv hw hn
  | conditional => exact runs_conditional hv hw hn
  | array => exact runs_arrayLiteral hv hw hn
  | dim => exact runs_dim hv hw hn
  | prop | nullsafeProp =>
    exact (runs_prop hv hw hn).imp fun _ _ _ ⟨_, _, _, hu⟩ => hu.inside
  | staticProp => exact runs_staticProp hv hw hn
  | call => exact (runs_call hv hw hn).imp fun _ _ _ ⟨_, _, _, hu⟩ => hu.inside
  | methodCall | nullsafeMethodCall =>
    exact (runs_methodCall hv hw hn).imp fun _ _ _ ⟨_, _, _, hu⟩ => hu.inside
  | staticCall => exact (runs_staticCall hv hw hn).imp fun _ _ _ ⟨_, _, _, hu⟩ => hu.inside
  | new => exact runs_new hv hw hn
  | closure => exact runs_closure hv hw hn
  | arrowFunc => exact runs_arrowFunction hv hw hn
  | typeHint | nullableType | typeUnion => exact runs_declaredType hw hv.context hn
  | isset | empty => exact runs_pure hw (UnionType.held_native hw.types .bool)
  | clone => exact runs_clone hv hw hn
  | yieldExpr =>
    refine (runs_effectsOf hv hw hn "value").bind fun _ w₁ h₁ _ => ?_
    exact (runs_effectsOf hv h₁.sound hn "key").bind fun _ w₂ h₂ _ =>
      runs_pure h₂.sound (UnionType.held_native h₂.sound.types .mixed)
  | yieldFrom | includeExpr => exact runs_effectsThen hv hw hn "expr" .mixed
  | print => exact runs_effectsThen hv hw hn "expr" .int
  | shellExec => exact runs_effectsThen hv hw hn "expr" .string
  | encaps =>
    refine (runs_forM hw fun w₁ child hchild h₁ => ?_).bind fun _ w₁ h₁ _ =>
      runs_pure h₁.sound (UnionType.held_native h₁.sound.types .string)
    exact hv.visitForEffects h₁.sound (hn.list (List.mem_filter.1 hchild).1)
  | matchExpr => exact runs_matchExpr hv hw hn
  | throwExpr | exit =>
    exact (runs_effectsOf hv hw hn "expr").bind fun _ w₁ h₁ _ =>
      runs_pure h₁.sound UnionType.held_empty
  | _ => exact runs_unanalyzable hw n _

end Evaluator

namespace AnalysisM

theorem runs_evaluateNew {v : Evaluator} (hv : v.Safe r s) (hw : w.Sound r s) (hn : n.Fits r) :
    Runs r s w (evaluateNew v n) fun w₁ u => u.Inside w₁.types := by
  have hempty {w₁ : World} (hw₁ : w₁.Sound r s) : Runs r s w₁ (keep v.context n .empty)
      fun w₁ u => u.Inside w₁.types := runs_keep hw₁ _ n UnionType.held_empty
  unfold evaluateNew
  refine ((Evaluator.runs_node hv hw hn).bind fun u w₁ h₁ hu =>
    runs_keep h₁.sound v.context n hu).recover fun f w₁ h₁ => ?_
  cases f with
  | unanalyzable id reason => exact hempty h₁.sound
  | issue i =>
    dsimp only
    split
    · exact (runs_emit h₁.sound i).bind fun _ w₂ h₂ _ => hempty h₂.sound
    · exact runs_fail h₁.sound _

/-- Every evaluation runs. -/
theorem runs_evaluateWithin (levels : Nat) : ∀ (catching : Bool) (c : Context) (child : Child)
    (w : World), c.Fits r → child.Fits r → w.Sound r s →
      Runs r s w (evaluateWithin levels catching c child) fun w₁ u => u.Inside w₁.types := by
  have hscalar (child : Child) (w : World) (hchild : child.Fits r) (hw : w.Sound r s)
      (hnode : child.node? = none) :
      Runs r s w (literalType ((child.scalar?).getD .null)) fun w₁ u => u.Inside w₁.types := by
    cases child with
    | node n => cases hnode
    | int i =>
      exact runs_literalType hw (fun j hj => by cases hj; exact hchild.accepts) nofun
    | str x => exact runs_literalType hw nofun fun y hy => by cases hy; exact hchild.accepts
    | _ => exact runs_literalType hw nofun nofun
  have hcached (c : Context) (n : Node) {w : World} (hw : w.Sound r s) {u : UnionType}
      (hu : (w.cacheOf c)[n.id]? = some u) : u.Inside w.types := hw.cacheOf c n.id u hu
  induction levels with
  | zero =>
    intro catching c child w hc hchild hw
    unfold evaluateWithin
    split
    · next n =>
      refine (runs_get hw).bind fun x w₁ h₁ hx => ?_
      subst hx
      split
      · next u hu => exact runs_pure h₁.sound (hcached c n h₁.sound hu)
      · exact runs_pure h₁.sound UnionType.held_empty
    · next hnode => exact hscalar child w hchild hw (by cases child <;> simp_all [Child.node?])
  | succ levels ih =>
    intro catching c child w hc hchild hw
    unfold evaluateWithin
    split
    · next n =>
      refine (runs_get hw).bind fun x w₁ h₁ hx => ?_
      subst hx
      split
      · next u hu => exact runs_pure h₁.sound (hcached c n h₁.sound hu)
      · exact runs_evaluateNew ⟨hc, ih⟩ h₁.sound hchild
    · next hnode => exact hscalar child w hchild hw (by cases child <;> simp_all [Child.node?])

end AnalysisM

end UnionInference
