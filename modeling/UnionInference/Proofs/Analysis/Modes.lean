import UnionInference.Proofs.Analysis.Issues

/-!
The two ways of evaluating an expression. An issue that fails a node either fails the whole
expression, or is reported where it arises. Up to the first such issue both ways do the same; so they
give the same type, or the issue is reported in the second. The first way goes on after an issue only
where a part is evaluated for its issues alone; in an expression without such parts it fails with the
very issue that the second one reports.
-/

namespace UnionInference

/-- The issue is reported on the way from one world to another. -/
def Issue.Reported (i : Issue) (w w' : World) : Prop := i ∈ w'.issues.since w.issues.size

namespace Issue.Reported

variable {i : Issue} {w w₁ w' : World}

theorem mono_left (h : i.Reported w₁ w') (hw : w.issues.toList <+: w₁.issues.toList) :
    i.Reported w w' :=
  (List.drop_sublist_drop_left _ hw.length_le).mem h

theorem mono_right (h : i.Reported w w₁) (hw : w₁.issues.toList <+: w'.issues.toList) :
    i.Reported w w' := by
  obtain ⟨l, hl⟩ := hw
  rw [Reported, IssueLog.since, ← hl, List.drop_append]
  exact List.mem_append_left _ h

theorem emit (w : World) (i : Issue) : i.Reported w { w with issues := w.issues.add i } := by
  simp [Reported, IssueLog.since, IssueLog.add, IssueLog.toList, IssueLog.size]

end Issue.Reported

/-! ### Work that agrees -/

namespace AnalysisM

variable {α β : Type} {d : Prop}

/-- The second work has the outcome of the first one, or it reports an issue; with `d`, the first one
then fails with this issue. -/
structure Agrees (d : Prop) (p q : AnalysisM α) : Prop where
  left : Grows p
  right : Grows q
  outcome : ∀ s w, p s w = q s w ∨
    ∃ i : Issue, (∀ r w', q s w = .ok (r, w') → i.Reported w w') ∧
      (d → ∃ w', p s w = .ok (.error (.issue i), w'))

namespace Agrees

theorem refl {p : AnalysisM α} (h : Grows p) : Agrees d p p := ⟨h, h, fun _ _ => .inl rfl⟩

theorem bind {p q : AnalysisM α} {f g : α → AnalysisM β} (h : Agrees d p q)
    (hf : ∀ a, Agrees d (f a) (g a)) : Agrees d (p >>= f) (q >>= g) where
  left := h.left.bind fun a => (hf a).left
  right := h.right.bind fun a => (hf a).right
  outcome s w := by
    rcases h.outcome s w with heq | ⟨i, hq, hp⟩
    · rw [bind_apply, bind_apply, heq]
      rcases hx : q s w with v | ⟨e | a, w₁⟩
      · exact .inl rfl
      · exact .inl rfl
      · refine ((hf a).outcome s w₁).imp id fun ⟨i, hg, hd⟩ => ⟨i, fun r w' hw => ?_, hd⟩
        exact (hg r w' hw).mono_left (h.right s w _ _ hx)
    · refine .inr ⟨i, fun r w' hw => ?_, fun hd => ?_⟩
      · rw [bind_apply] at hw
        split at hw
        · next a w₁ hx => exact (hq _ _ hx).mono_right ((hf a).right s w₁ _ _ hw)
        · next e w₁ hx =>
          cases hw
          exact hq _ _ hx
        · cases hw
      · obtain ⟨w', hp⟩ := hp hd
        exact ⟨w', by rw [bind_apply, hp]⟩

/-- The first work fails with an issue that the second one reports, before it goes on. -/
theorem caught {p q : AnalysisM α} {f g : Failure → AnalysisM α} (h : Agrees d p q)
    (hf : ∀ i, f (.issue i) = fail (.issue i))
    (hg : ∀ i, ∃ k, Grows k ∧ g (.issue i) = emit i >>= fun _ => k)
    (hsame : ∀ node reason, f (.unanalyzable node reason) = g (.unanalyzable node reason))
    (hgrows : ∀ node reason, Grows (g (.unanalyzable node reason))) :
    Agrees d (recover p f) (recover q g) := by
  have hleft : ∀ e, Grows (f e) := by
    rintro (i | ⟨node, reason⟩)
    · rw [hf]
      exact grows_fail _
    · rw [hsame]
      exact hgrows node reason
  have hright : ∀ e, Grows (g e) := by
    rintro (i | ⟨node, reason⟩)
    · obtain ⟨k, hk, hi⟩ := hg i
      rw [hi]
      exact (grows_emit i).bind fun _ => hk
    · exact hgrows node reason
  refine ⟨h.left.recover hleft, h.right.recover hright, fun s w => ?_⟩
  rcases h.outcome s w with heq | ⟨i, hq, hp⟩
  · rw [recover_apply, recover_apply, heq]
    rcases hx : q s w with v | ⟨(i | ⟨node, reason⟩) | a, w₁⟩
    · exact .inl rfl
    · -- the first issue
      refine .inr ⟨i, fun r w' hw => ?_, fun _ => ⟨w₁, congrFun (congrFun (hf i) s) w₁⟩⟩
      obtain ⟨k, hk, hi⟩ := hg i
      change g (.issue i) s w₁ = _ at hw
      rw [hi, bind_apply] at hw
      have hreported := (Issue.Reported.emit w₁ i).mono_right (hk s _ _ _ hw)
      exact hreported.mono_left (h.right s w _ _ hx)
    · exact .inl (congrFun (congrFun (hsame node reason) s) w₁)
    · exact .inl rfl
  · refine .inr ⟨i, fun r w' hw => ?_, fun hd => ?_⟩
    · rw [recover_apply] at hw
      split at hw
      · next a w₁ hx =>
        cases hw
        exact hq _ _ hx
      · next e w₁ hx => exact (hq _ _ hx).mono_right (hright e s w₁ _ _ hw)
      · cases hw
    · obtain ⟨w', hp⟩ := hp hd
      refine ⟨w', ?_⟩
      rw [recover_apply, hp]
      exact congrFun (congrFun (hf i) s) w'

/-- After a failure the first work goes on where the second one had none. -/
theorem forEffects {p q : AnalysisM Unit} (h : Agrees d p q) (hd : ¬ d) :
    Agrees d (recover p fun _ => pure ()) (recover q fun _ => pure ()) where
  left := h.left.recover fun _ => .pure ()
  right := h.right.recover fun _ => .pure ()
  outcome s w := by
    rcases h.outcome s w with heq | ⟨i, hq, -⟩
    · rw [recover_apply, recover_apply, heq]
      exact .inl rfl
    · refine .inr ⟨i, fun r w' hw => ?_, fun h => absurd h hd⟩
      rw [recover_apply] at hw
      split at hw
      · next a w₁ hx =>
        cases hw
        exact hq _ _ hx
      · next f w₁ hx =>
        cases hw
        exact hq _ _ hx
      · cases hw

theorem foldlM {f g : β → α → AnalysisM β} {as : List α}
    (h : ∀ b, ∀ a ∈ as, Agrees d (f b a) (g b a)) (b : β) :
    Agrees d (as.foldlM f b) (as.foldlM g b) := by
  induction as generalizing b with
  | nil => exact refl (.pure b)
  | cons a as ih =>
    exact (h b a List.mem_cons_self).bind (ih fun b a ha => h b a (List.mem_cons_of_mem _ ha))

theorem mapM {f g : α → AnalysisM β} {as : List α} (h : ∀ a ∈ as, Agrees d (f a) (g a)) :
    Agrees d (as.mapM f) (as.mapM g) := by
  induction as with
  | nil => exact refl (.pure [])
  | cons a as ih =>
    rw [List.mapM_cons, List.mapM_cons]
    refine (h a List.mem_cons_self).bind fun b => ?_
    exact (ih fun a ha => h a (List.mem_cons_of_mem _ ha)).bind fun bs => refl (.pure (b :: bs))

theorem forM {f g : α → AnalysisM Unit} {as : List α} (h : ∀ a ∈ as, Agrees d (f a) (g a)) :
    Agrees d (as.forM f) (as.forM g) := by
  induction as with
  | nil => exact refl (.pure ())
  | cons a as ih =>
    exact (h a List.mem_cons_self).bind fun _ => ih fun a ha => h a (List.mem_cons_of_mem _ ha)

/-- Work on a child that must be there. -/
theorem required {n : Node} {name : String} {f g : Child → AnalysisM α}
    (h : ∀ child, n.child? name = some child → Agrees d (f child) (g child)) :
    Agrees d (required n name >>= f) (required n name >>= g) := by
  unfold UnionInference.required
  cases hc : n.child? name with
  | some child => exact h child hc
  | none => exact refl (built_unanalyzable n _).grows

end Agrees

end AnalysisM

/-! ### Expressions without parts that are evaluated for their issues alone -/

/-- No child of the node is evaluated for its issues alone. -/
def NodeOf.evaluatesAll (n : Node) : Bool :=
  match n.kind with
  | .instanceOf | .matchExpr | .yieldExpr | .yieldFrom | .includeExpr | .print | .encaps
  | .shellExec | .throwExpr | .exit => false
  | .conditional => (n.child? "cond").all fun cond => cond.truthiness?.isNone
  | .className | .classConst => (n.childNode? "class").all fun m => m.kind == .name
  | _ => true

/-- No part of the child is evaluated for its issues alone. -/
inductive Child.Direct : Child → Prop where
  | literal {child : Child} (h : child.node? = none) : Direct child
  | node {n : Node} (here : n.evaluatesAll = true) (below : ∀ p ∈ n.children, p.2.Direct) :
      Direct (.node n)

namespace Child.Direct

variable {n m : Node} {child : Child} {name : String}

theorem evaluatesAll (h : (Child.node n).Direct) : n.evaluatesAll = true := by
  cases h with
  | literal h => cases h
  | node here _ => exact here

theorem of_mem (h : (Child.node n).Direct) {p : Slot × Child} (hp : p ∈ n.children) :
    p.2.Direct := by
  cases h with
  | literal h => cases h
  | node _ below => exact below p hp

theorem child? (h : (Child.node n).Direct) (hc : n.child? name = some child) : child.Direct := by
  obtain ⟨⟨slot, c⟩, hp, hsome⟩ := List.exists_of_findSome?_eq_some hc
  dsimp only at hsome
  split at hsome
  · cases hsome
    exact h.of_mem hp
  · cases hsome

theorem childNode? (h : (Child.node n).Direct) (hm : n.childNode? name = some m) :
    (Child.node m).Direct := by
  obtain ⟨child, hc, hm⟩ := Option.bind_eq_some_iff.1 hm
  cases child with
  | node n' =>
    cases hm
    exact h.child? hc
  | _ => cases hm

theorem list (h : (Child.node n).Direct) (hc : child ∈ n.list) : child.Direct := by
  obtain ⟨⟨slot, c⟩, hp, hsome⟩ := List.mem_filterMap.1 hc
  cases slot with
  | index i =>
    cases hsome
    exact h.of_mem hp
  | name s => cases hsome

theorem listNode (h : (Child.node n).Direct) (hm : m ∈ n.list.filterMap Child.node?) :
    (Child.node m).Direct := by
  obtain ⟨child, hc, hm⟩ := List.mem_filterMap.1 hm
  cases child with
  | node n' =>
    cases hm
    exact h.list hc
  | _ => cases hm

end Child.Direct

theorem child?_of_optional? {n : Node} {name : String} {child : Child}
    (h : optional? n name = some child) : n.child? name = some child :=
  (Option.filter_eq_some_iff.1 h).1

/-! ### The rules -/

namespace Evaluator

open AnalysisM

variable {d : Prop} {c : Context} {run : Bool → Context → Child → AnalysisM UnionType}
  {n : Node} {child : Child}

/-- The evaluator that fails with the first issue. -/
def failing (c : Context) (run : Bool → Context → Child → AnalysisM UnionType) : Evaluator :=
  ⟨c, false, run⟩

/-- The evaluator that reports issues where they arise. -/
def reporting (c : Context) (run : Bool → Context → Child → AnalysisM UnionType) : Evaluator :=
  ⟨c, true, run⟩

/-- Children are evaluated alike, with `d` those without parts evaluated for their issues alone. -/
def Alike (d : Prop) (run : Bool → Context → Child → AnalysisM UnionType) : Prop :=
  ∀ c child, (d → child.Direct) → Agrees d (run false c child) (run true c child)

variable (hrun : Alike d run)
include hrun

theorem agrees_visit (h : d → child.Direct) :
    Agrees d ((failing c run).visit child) ((reporting c run).visit child) := hrun c child h

theorem agrees_visitForEffects (hd : ¬ d) :
    Agrees d ((failing c run).visitForEffects child) ((reporting c run).visitForEffects child) :=
  .forEffects ((agrees_visit hrun fun h => absurd h hd).bind fun _ => .refl (.pure ())) hd

/-- A child that must be there is evaluated first. -/
theorem agrees_visitRequired (hn : d → (Child.node n).Direct) {name : String} {α : Type}
    {f g : UnionType → AnalysisM α} (h : ∀ u, Agrees d (f u) (g u)) :
    Agrees d (required n name >>= fun child => (failing c run).visit child >>= f)
      (required n name >>= fun child => (reporting c run).visit child >>= g) :=
  .required fun _ hc => (agrees_visit hrun fun hd => (hn hd).child? hc).bind h

/-! ### Operators -/

theorem agrees_operation (hn : d → (Child.node n).Direct) (first second unknown : String) :
    Agrees d ((failing c run).operation n first second unknown)
      ((reporting c run).operation n first second unknown) := by
  unfold operation
  cases BinaryOp.ofCode? n.flags with
  | none => exact .refl (built_unanalyzable n _).grows
  | some op =>
    refine .required fun left hl => .required fun right hr => ?_
    have hleft := fun hd => (hn hd).child? hl
    have hright := fun hd => (hn hd).child? hr
    split
    · -- the first operand is evaluated without reports either way
      refine .bind (.refl ((hrun c left hleft).left.recover fun _ => .pure _)) fun u => ?_
      exact (agrees_visit hrun hright).bind fun u' => .refl (by grind)
    · refine (agrees_visit hrun hleft).bind fun u => (agrees_visit hrun hright).bind fun u' => ?_
      exact .refl (built_operationType _ n op u u').grows

theorem agrees_unaryOp (hn : d → (Child.node n).Direct) :
    Agrees d ((failing c run).unaryOp n) ((reporting c run).unaryOp n) := by
  unfold unaryOp
  cases UnaryOp.ofCode? n.flags with
  | none => exact .refl (built_unanalyzable n _).grows
  | some op => exact agrees_visitRequired hrun hn fun u => .refl (by grind)

theorem agrees_incDec (hn : d → (Child.node n).Direct) :
    Agrees d ((failing c run).incDec n) ((reporting c run).incDec n) :=
  agrees_visitRequired hrun hn fun u => .refl (by grind)

theorem agrees_cast (hn : d → (Child.node n).Direct) :
    Agrees d ((failing c run).cast n) ((reporting c run).cast n) :=
  agrees_visitRequired hrun hn fun u => .refl (by grind)

theorem agrees_clone (hn : d → (Child.node n).Direct) :
    Agrees d ((failing c run).clone n) ((reporting c run).clone n) :=
  agrees_visitRequired hrun hn fun u => .refl (by grind)

/-! ### Arrays -/

theorem agrees_addElement (hn : d → (Child.node n).Direct) (keys : LiteralKeys) :
    Agrees d ((failing c run).addElement n keys) ((reporting c run).addElement n keys) := by
  unfold addElement
  split
  · unfold addUnpacked
    exact agrees_visitRequired hrun hn fun u => .refl (by grind)
  · refine agrees_visitRequired hrun hn fun u => ?_
    cases hk : optional? n "key" with
    | none => exact .refl (.pure _)
    | some child =>
      refine (agrees_visit hrun fun hd => (hn hd).child? (child?_of_optional? hk)).bind fun u' => ?_
      exact .refl (by grind)

theorem agrees_arrayLiteral (hn : d → (Child.node n).Direct) :
    Agrees d ((failing c run).arrayLiteral n) ((reporting c run).arrayLiteral n) := by
  refine .bind (.foldlM (fun keys m hm => ?_) _) fun keys => .refl (by grind)
  exact agrees_addElement hrun (fun hd => (hn hd).listNode hm) keys

theorem agrees_indexType (hn : d → (Child.node n).Direct) :
    Agrees d ((failing c run).indexType n) ((reporting c run).indexType n) := by
  unfold indexType
  cases hk : optional? n "dim" with
  | none => exact .refl (.pure _)
  | some child =>
    refine (agrees_visit hrun fun hd => (hn hd).child? (child?_of_optional? hk)).bind fun u => ?_
    exact .refl (.pure _)

theorem agrees_dim (hn : d → (Child.node n).Direct) :
    Agrees d ((failing c run).dim n) ((reporting c run).dim n) := by
  rw [dim_eq, dim_eq]
  refine agrees_visitRequired hrun hn fun base => (agrees_indexType hrun hn).bind fun index => ?_
  refine .refl ?_
  split
  · exact .pure _
  · exact (built_dimKnown _ n base index).grows

/-! ### Members and calls -/

theorem agrees_classReference (h : d → child.Direct) :
    Agrees d ((failing c run).classReference child) ((reporting c run).classReference child) := by
  unfold classReference AnalysisM.classReference
  cases child with
  | str name => exact .refl (built_existingClass _ _ _).grows
  | node m =>
    dsimp only
    split
    · exact .refl (by grind)
    · exact (agrees_visit hrun h).bind fun u => .refl (by grind [classList])
  | _ => exact (agrees_visit hrun h).bind fun u => .refl (by grind [classList])

theorem agrees_resolveClassConstant (h : d → child.Direct) (name : String) (line : Nat) :
    Agrees d (resolveClassConstant c (failing c run).visit child name line)
      (resolveClassConstant c (reporting c run).visit child name line) :=
  (agrees_classReference hrun h).bind fun classes => .refl (by grind)

theorem agrees_prop (hn : d → (Child.node n).Direct) :
    Agrees d ((failing c run).prop n) ((reporting c run).prop n) :=
  agrees_visitRequired hrun hn fun receiver => .refl <| by
    cases n.childStr? "prop" with
    | none => exact (built_unanalyzable n _).grows
    | some name =>
      refine (grows_types _).bind fun receiver => ?_
      split
      · exact .pure _
      · exact (built_classListWith _ _ _).grows.bind fun classes => by grind

theorem agrees_staticProp (hn : d → (Child.node n).Direct) :
    Agrees d ((failing c run).staticProp n) ((reporting c run).staticProp n) := by
  refine .required fun owner ho => ?_
  cases n.childStr? "prop" with
  | none => exact .refl (built_unanalyzable n _).grows
  | some name =>
    refine (agrees_classReference hrun fun hd => (hn hd).child? ho).bind fun classes => ?_
    exact .refl (by grind)

theorem agrees_argument (h : d → child.Direct) :
    Agrees d ((failing c run).argument child) ((reporting c run).argument child) := by
  unfold argument
  cases child with
  | node m =>
    dsimp only
    split
    · exact agrees_visitRequired hrun h fun u => .refl (by grind)
    · exact (agrees_visit hrun h).bind fun u => .refl (.pure _)
  | _ => exact (agrees_visit hrun h).bind fun u => .refl (.pure _)

theorem agrees_arguments (hn : d → (Child.node n).Direct) :
    Agrees d ((failing c run).arguments n) ((reporting c run).arguments n) := by
  unfold arguments
  cases ha : n.childNode? "args" with
  | none => exact .refl (.pure [])
  | some list =>
    exact .mapM fun child hc => agrees_argument hrun fun hd => ((hn hd).childNode? ha).list hc

theorem agrees_call (hn : d → (Child.node n).Direct) :
    Agrees d ((failing c run).call n) ((reporting c run).call n) := by
  refine .required fun callee hc => (agrees_arguments hrun hn).bind fun args => ?_
  split
  · exact .refl (by grind)
  · refine (agrees_visit hrun fun hd => (hn hd).child? hc).bind fun u => ?_
    exact .refl (built_calleeResult u).grows

theorem agrees_methodCall (hn : d → (Child.node n).Direct) :
    Agrees d ((failing c run).methodCall n) ((reporting c run).methodCall n) := by
  refine agrees_visitRequired hrun hn fun receiver => (agrees_arguments hrun hn).bind fun args => ?_
  refine .refl ?_
  cases n.childStr? "method" with
  | none => exact (built_unanalyzable n _).grows
  | some name =>
    refine (grows_types _).bind fun receiver => ?_
    split
    · exact .pure _
    · refine (built_classListWith _ _ _).grows.bind fun classes => .bind ?_ fun unknown => ?_
      · grind
      · grind

theorem agrees_staticCall (hn : d → (Child.node n).Direct) :
    Agrees d ((failing c run).staticCall n) ((reporting c run).staticCall n) := by
  refine .required fun owner ho => (agrees_arguments hrun hn).bind fun args => ?_
  cases n.childStr? "method" with
  | none => exact .refl (built_unanalyzable n _).grows
  | some name =>
    refine (agrees_classReference hrun fun hd => (hn hd).child? ho).bind fun classes => ?_
    exact .refl (by grind)

theorem agrees_newByExpression (h : d → child.Direct) (args : List CallArgument) :
    Agrees d ((failing c run).newByExpression n child args)
      ((reporting c run).newByExpression n child args) := by
  refine (agrees_classReference hrun h).bind fun classes => ?_
  split
  · exact .refl (.pure _)
  · exact (agrees_visit hrun h).bind fun u => .refl (by grind)

theorem agrees_new (hn : d → (Child.node n).Direct) :
    Agrees d ((failing c run).new n) ((reporting c run).new n) := by
  refine .required fun owner ho => (agrees_arguments hrun hn).bind fun args => ?_
  have howner := fun hd => (hn hd).child? ho
  cases owner with
  | node m =>
    dsimp only
    split
    · exact .refl (built_newByName _ n m args).grows
    split
    · exact .refl (.pure _)
    · exact agrees_newByExpression hrun howner args
  | _ => exact agrees_newByExpression hrun howner args

/-! ### Names, choices and functions as values -/

theorem agrees_classString (hd : d → ∀ m, child = .node m → m.kind = .name) :
    Agrees d ((failing c run).classString n child) ((reporting c run).classString n child) := by
  unfold classString
  cases child with
  | node m =>
    dsimp only
    split
    · exact .refl (by grind [classStringType])
    · next hkind =>
      refine (agrees_visitForEffects hrun fun h => hkind (hd h m rfl)).bind fun _ => ?_
      exact .refl (.pure _)
  | _ => exact .refl (built_unanalyzable n _).grows

theorem agrees_classConst (hn : d → (Child.node n).Direct)
    (hd : d → ∀ child, n.child? "class" = some child → ∀ m, child = .node m → m.kind = .name) :
    Agrees d ((failing c run).classConst n) ((reporting c run).classConst n) := by
  refine .required fun owner ho => ?_
  cases n.childStr? "const" with
  | none => exact .refl (built_unanalyzable n _).grows
  | some name =>
    dsimp only
    split
    · exact agrees_classString hrun fun h => hd h owner ho
    · refine .bind ?_ fun found => .refl (.pure _)
      exact agrees_resolveClassConstant hrun (fun h => (hn h).child? ho) name n.line

theorem agrees_instanceOf (hd : ¬ d) :
    Agrees d ((failing c run).instanceOf n) ((reporting c run).instanceOf n) := by
  refine .required fun child _ => (agrees_visitForEffects hrun hd).bind fun _ => ?_
  refine .required fun owner _ => ?_
  split
  · exact .refl (by grind)
  · exact (agrees_visit hrun fun h => absurd h hd).bind fun u => .refl (by grind)

theorem agrees_knownConditional (hd : ¬ d) (holds : Bool) (cond : Child) (yes : Option Child)
    (no : Child) :
    Agrees d ((failing c run).knownConditional holds cond yes no)
      ((reporting c run).knownConditional holds cond yes no) := by
  have hvisit : ∀ child, Agrees d ((failing c run).visit child) ((reporting c run).visit child) :=
    fun child => agrees_visit hrun fun h => absurd h hd
  refine (hvisit cond).bind fun u => ?_
  cases holds with
  | true =>
    cases yes with
    | some yes => exact (agrees_visitForEffects hrun hd).bind fun _ => hvisit yes
    | none => exact (agrees_visitForEffects hrun hd).bind fun _ => .refl (.pure _)
  | false =>
    cases yes with
    | some yes => exact (agrees_visitForEffects hrun hd).bind fun _ => hvisit no
    | none => exact hvisit no

theorem agrees_conditional (hn : d → (Child.node n).Direct)
    (hd : d → ∀ cond, n.child? "cond" = some cond → cond.truthiness? = none) :
    Agrees d ((failing c run).conditional n) ((reporting c run).conditional n) := by
  refine .required fun cond hcond => .required fun no hno => ?_
  cases ht : cond.truthiness? with
  | some holds =>
    refine agrees_knownConditional hrun (fun h => ?_) holds cond _ no
    rw [hd h cond hcond] at ht
    cases ht
  | none =>
    refine .bind (.refl (built_narrow c true).grows) fun whenTrue => ?_
    refine .bind (.refl (built_narrow c false).grows) fun whenFalse => ?_
    refine (agrees_visit hrun fun h => (hn h).child? hcond).bind fun u => ?_
    have hno' := hrun whenFalse no fun h => (hn h).child? hno
    cases hy : optional? n "true" with
    | some yes =>
      refine (hrun whenTrue yes fun h => (hn h).child? (child?_of_optional? hy)).bind fun u => ?_
      exact hno'.bind fun u' => .refl (.pure _)
    | none =>
      refine .bind (.refl ((grows_types _).map _)) fun u => ?_
      exact hno'.bind fun u' => .refl (.pure _)

theorem agrees_matchExpr (hd : ¬ d) :
    Agrees d ((failing c run).matchExpr n) ((reporting c run).matchExpr n) := by
  refine .required fun cond _ => (agrees_visitForEffects hrun hd).bind fun _ => ?_
  cases n.childNode? "stmts" with
  | none => exact .refl (built_unanalyzable n _).grows
  | some arms =>
    refine .foldlM (fun result arm _ => ?_) _
    have harm : Agrees d
        (required arm "expr" >>= fun child => (failing c run).visit child >>= fun u =>
          pure (result.union u))
        (required arm "expr" >>= fun child => (reporting c run).visit child >>= fun u =>
          pure (result.union u)) :=
      agrees_visitRequired hrun (fun h => absurd h hd) fun u => .refl (.pure _)
    cases arm.childNode? "cond" with
    | none => exact harm
    | some conds =>
      exact (Agrees.forM fun child _ => agrees_visitForEffects hrun hd).bind fun _ => harm

theorem agrees_arrowFunction (hn : d → (Child.node n).Direct) :
    Agrees d ((failing c run).arrowFunction n) ((reporting c run).arrowFunction n) := by
  have hparams := Built.mapM (built_closureParam (failing c run)) (paramNodes n)
  refine .bind (.refl hparams.grows) fun params => ?_
  cases n.childNode? "returnType" with
  | some type => exact .refl (by grind)
  | none =>
    refine .bind (.refl (built_arrowScope (failing c run) n params).grows) fun scope => ?_
    refine .bind (.refl (.modifyGet fun _ => rfl)) fun inside => .required fun body hbody => ?_
    refine (hrun inside body fun h => (hn h).child? hbody).bind fun u => ?_
    exact .refl (built_closureType params u).grows

theorem agrees_effectsOf (hd : ¬ d) (slot : String) :
    Agrees d ((failing c run).effectsOf n slot) ((reporting c run).effectsOf n slot) := by
  unfold effectsOf
  split
  · exact agrees_visitForEffects hrun hd
  · exact .refl (.pure ())

/-! ### All kinds of node -/

theorem agrees_node (hn : d → (Child.node n).Direct) :
    Agrees d ((failing c run).node n) ((reporting c run).node n) := by
  -- a kind of node with a part that is evaluated for its issues alone is ruled out by `d`
  have hpart : n.evaluatesAll = false → ¬ d := fun hfalse h => by
    rw [(hn h).evaluatesAll] at hfalse
    cases hfalse
  have howner : n.kind = .className ∨ n.kind = .classConst →
      d → ∀ child, n.child? "class" = some child → ∀ m, child = .node m → m.kind = .name := by
    rintro hk h child hc m rfl
    have hm : n.childNode? "class" = some m := by rw [NodeOf.childNode?, hc]; rfl
    have hall := (hn h).evaluatesAll
    rcases hk with hk | hk <;> simpa [NodeOf.evaluatesAll, hk, hm] using hall
  unfold node
  cases hk : n.kind with
  | «variable» => exact .refl (built_variableUse _ n).grows
  | name => exact .refl (built_className _ n).grows
  | constant => exact .refl (built_constant _ n).grows
  | classConst => exact agrees_classConst hrun hn (howner (.inr hk))
  | className =>
    exact .required fun owner ho => agrees_classString hrun fun h => howner (.inl hk) h owner ho
  | magicConst => exact .refl (built_magicConst _ n).grows
  | binaryOp => exact agrees_operation hrun hn "left" "right" _
  | unaryOp => exact agrees_unaryOp hrun hn
  | preInc | preDec | postInc | postDec => exact agrees_incDec hrun hn
  | assign | assignRef =>
    exact .required fun child hc => agrees_visit hrun fun h => (hn h).child? hc
  | assignOp => exact agrees_operation hrun hn "var" "expr" _
  | cast => exact agrees_cast hrun hn
  | instanceOf => exact agrees_instanceOf hrun (hpart (by rw [NodeOf.evaluatesAll, hk]))
  | conditional =>
    refine agrees_conditional hrun hn fun h cond hcond => ?_
    simpa [NodeOf.evaluatesAll, hk, hcond] using (hn h).evaluatesAll
  | array => exact agrees_arrayLiteral hrun hn
  | dim => exact agrees_dim hrun hn
  | prop | nullsafeProp => exact agrees_prop hrun hn
  | staticProp => exact agrees_staticProp hrun hn
  | call => exact agrees_call hrun hn
  | methodCall | nullsafeMethodCall => exact agrees_methodCall hrun hn
  | staticCall => exact agrees_staticCall hrun hn
  | new => exact agrees_new hrun hn
  | closure => exact .refl (by unfold closure; grind)
  | arrowFunc => exact agrees_arrowFunction hrun hn
  | typeHint | nullableType | typeUnion => exact .refl (built_declaredType c n).grows
  | isset | empty => exact .refl (.pure _)
  | clone => exact agrees_clone hrun hn
  | yieldExpr =>
    have hd := hpart (by rw [NodeOf.evaluatesAll, hk])
    refine (agrees_effectsOf hrun hd "value").bind fun _ => ?_
    exact (agrees_effectsOf hrun hd "key").bind fun _ => .refl (.pure _)
  | yieldFrom | includeExpr | print | shellExec =>
    have hd := hpart (by rw [NodeOf.evaluatesAll, hk])
    exact .required fun _ _ => (agrees_visitForEffects hrun hd).bind fun _ => .refl (.pure _)
  | encaps =>
    have hd := hpart (by rw [NodeOf.evaluatesAll, hk])
    exact (Agrees.forM fun _ _ => agrees_visitForEffects hrun hd).bind fun _ => .refl (.pure _)
  | matchExpr => exact agrees_matchExpr hrun (hpart (by rw [NodeOf.evaluatesAll, hk]))
  | throwExpr | exit =>
    have hd := hpart (by rw [NodeOf.evaluatesAll, hk])
    exact (agrees_effectsOf hrun hd "expr").bind fun _ => .refl (.pure _)
  | _ => exact .refl (built_unanalyzable n _).grows

end Evaluator

/-! ### Expressions -/

namespace AnalysisM

open Evaluator

variable {d : Prop} {c : Context} {s : Setup} {w w' : World}

theorem agrees_evaluateNew {run : Bool → Context → Child → AnalysisM UnionType}
    (hrun : Alike d run) {n : Node} (hn : d → (Child.node n).Direct) :
    Agrees d (evaluateNew (failing c run) n) (evaluateNew (reporting c run) n) := by
  have hwork := (agrees_node (c := c) hrun hn).bind fun u => .refl (grows_keep c n u)
  exact hwork.caught (fun _ => rfl) (fun _ => ⟨_, grows_keep c n .empty, rfl⟩) (fun _ _ => rfl)
    fun _ _ => grows_keep c n .empty

theorem evaluateWithin_node (levels : Nat) (catching : Bool) (c : Context) (n : Node) :
    evaluateWithin levels catching c (.node n) = (do
      match ((← get).cacheOf c)[n.id]? with
      | some u => return u
      | none =>
        match levels with
        | 0 => return .empty
        | k + 1 => evaluateNew ⟨c, catching, evaluateWithin k⟩ n) :=
  evaluateWithin.eq_def levels catching c (.node n)

/-- Both ways of evaluating a child agree. -/
theorem agrees_evaluateWithin (levels : Nat) : Alike d (evaluateWithin levels) := by
  induction levels with
  | zero =>
    intro c child hc
    cases child with
    | node n =>
      rw [evaluateWithin_node, evaluateWithin_node]
      refine .bind (.refl grows_get) fun w => ?_
      cases (w.cacheOf c)[n.id]? <;> exact .refl (.pure _)
    | _ => exact .refl (built_literalType _).grows
  | succ k ih =>
    intro c child hc
    cases child with
    | node n =>
      rw [evaluateWithin_node, evaluateWithin_node]
      refine .bind (.refl grows_get) fun w => ?_
      cases (w.cacheOf c)[n.id]? with
      | some u => exact .refl (.pure u)
      | none => exact agrees_evaluateNew ih hc
    | _ => exact .refl (built_literalType _).grows

/-- A node fails only with an issue, and only where issues are not caught. -/
theorem evaluateNew_eq_error {v : Evaluator} {n : Node} {f : Failure}
    (h : evaluateNew v n s w = .ok (.error f, w')) : v.catching = false ∧ ∃ i, f = .issue i := by
  rw [evaluateNew, recover_apply] at h
  split at h
  · cases h
  · next g w₁ _ =>
    cases g with
    | unanalyzable node reason => cases h
    | issue i =>
      dsimp only at h
      split at h
      · cases h
      · next hcatch =>
        cases h
        exact ⟨by simpa using hcatch, i, rfl⟩
  · cases h

theorem literalType_ne_error {x : Scalar} {f : Failure} :
    literalType x s w ≠ .ok (.error f, w') := by
  intro h
  change types (UnionType.ofScalar x s.options) s w = _ at h
  rw [types] at h
  cases hx : UnionType.ofScalar x s.options w.types with
  | error v =>
    rw [hx] at h
    cases h
  | ok r =>
    rw [hx] at h
    cases h

theorem evaluateWithin_eq_error {levels : Nat} {catching : Bool} {child : Child} {f : Failure}
    (h : evaluateWithin levels catching c child s w = .ok (.error f, w')) :
    catching = false ∧ ∃ i, f = .issue i := by
  cases child with
  | node n =>
    rw [evaluateWithin_node, bind_apply, show (get : AnalysisM World) s w = .ok (.ok w, w) from rfl]
      at h
    dsimp only at h
    cases hkept : (w.cacheOf c)[n.id]? with
    | some u =>
      rw [hkept] at h
      cases h
    | none =>
      rw [hkept] at h
      cases levels with
      | zero => cases h
      | succ k => exact evaluateNew_eq_error h
  | _ =>
    rw [evaluateWithin.eq_def] at h
    exact absurd h literalType_ne_error

/-- A place outside of classes. -/
def outside : Context := { file := "f.php", scope := 0, cache := 0 }

theorem typeOf_of_not_kept {catching : Bool} {n : Node} (h : (w.cacheOf c)[n.id]? = none) :
    typeOf catching c (.node n) s w = evaluateNew ⟨c, catching, evaluateWithin 499⟩ n s w := by
  rw [typeOf, evaluateWithin_node, bind_apply,
    show (get : AnalysisM World) s w = .ok (.ok w, w) from rfl]
  dsimp only
  rw [h]
  rfl

end AnalysisM

end UnionInference
