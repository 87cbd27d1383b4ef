import UnionInference.Proofs.Analysis.RepeatedRules

/-!
Work that comes again without a store. A node is evaluated with a store of results, in which some of
its parts may be found; once more it is evaluated without any store, at a later time of the session
and in a context that differs at most in its store. If every result in the store is what its node
comes to without a store, then both evaluations have the same result.
-/

namespace UnionInference

/-! ### Expressions whose parts can be evaluated on their own -/

/-- The nodes that are parts of expressions and no expressions themselves. -/
def NodeKind.isPart : NodeKind → Bool
  | .arrayElem | .unpack | .argList | .paramList | .param | .closureUses | .closureVar | .returnStmt
  | .stmtList | .classDecl | .matchArmList | .matchArm | .exprList => true
  | _ => false

namespace Child

/-- The second child is the first one or stands below it. -/
inductive Contains (root : Child) : Child → Prop where
  | self : Contains root root
  | child {n : Node} (h : Contains root (.node n)) {p : Slot × Child} (hp : p ∈ n.children) :
      Contains root p.2

/-- Expressions nest in the child at most so deeply. -/
inductive Nests : Nat → Child → Prop where
  | literal {k : Nat} {child : Child} (h : child.node? = none) : Nests k child
  | part {k : Nat} {n : Node} (h : n.kind.isPart = true) (below : ∀ p ∈ n.children, p.2.Nests k) :
      Nests k (.node n)
  | expression {k : Nat} {n : Node} (below : ∀ p ∈ n.children, p.2.Nests k) :
      Nests (k + 1) (.node n)

/-- A node is known by its number, expressions nest no deeper than they are looked into, and there
are neither arrow functions nor operators for missing values: these evaluate an operand in another
way than the rest. -/
structure Separable (root : Child) : Prop where
  ids : ∀ m n : Node, root.Contains (.node m) → root.Contains (.node n) → m.id = n.id → m = n
  nests : root.Nests maxExpressionDepth
  arrow : ∀ n : Node, root.Contains (.node n) → n.kind ≠ .arrowFunc
  coalesce : ∀ n : Node, root.Contains (.node n) → n.kind = .binaryOp ∨ n.kind = .assignOp →
    BinaryOp.ofCode? n.flags ≠ some .coalesce

theorem Nests.mono {k : Nat} {child : Child} (h : child.Nests k) : child.Nests (k + 1) := by
  induction h with
  | literal h => exact .literal h
  | part h _ ih => exact .part h ih
  | expression _ ih => exact .expression ih

theorem Nests.of_mem {k : Nat} {n : Node} (h : (Child.node n).Nests k) {p : Slot × Child}
    (hp : p ∈ n.children) : p.2.Nests k := by
  cases h with
  | literal h => cases h
  | part _ below => exact below p hp
  | expression below => exact (below p hp).mono

theorem Nests.inside {k : Nat} {n : Node} (h : (Child.node n).Nests (k + 1))
    (hn : n.kind.isPart = false) {p : Slot × Child} (hp : p ∈ n.children) : p.2.Nests k := by
  cases h with
  | literal h => cases h
  | part h _ =>
    rw [hn] at h
    cases h
  | expression below => exact below p hp

theorem Nests.isPart {n : Node} (h : (Child.node n).Nests 0) : n.kind.isPart = true := by
  cases h with
  | literal h => cases h
  | part h _ => exact h

end Child

/-! ### Work that comes again without a store -/

namespace AnalysisM

variable {α β : Type} {root : Child} {c : Context} {s : Setup} {w w₁ w₂ : World}

/-- At any later time of the session, and without stores, the work comes to the result; or it fails,
if there is none. It adds no types. -/
def ComesTo (c : Context) (s : Setup) (q : AnalysisM α) (result : Option α) (w : World) : Prop :=
  ∀ w₁ : World, w₁.Tidy c → w₁.caches = #[] → w.Later c s.options w₁ →
    ∃ r w₂, q s w₁ = .ok (r, w₂) ∧ r.toOption = result ∧ w₂.Tidy c ∧ w₂.caches = #[] ∧
      w₁.Later c s.options w₂ ∧ w₂.types.entries = w₁.types.entries

theorem ComesTo.later {q : AnalysisM α} {result : Option α} (h : ComesTo c s q result w)
    (hlater : w.Later c s.options w₁) : ComesTo c s q result w₁ :=
  fun w₂ hw₂ hcaches h₂ => h w₂ hw₂ hcaches (hlater.trans h₂)

/-- What is kept for a node of the expression is what the node comes to, whichever store it has. -/
structure Fair (root : Child) (c : Context) (s : Setup) (w : World) : Prop where
  tidy : w.Tidy c
  kept : ∀ (n : Node) (u : UnionType), root.Contains (.node n) → (w.cacheOf c)[n.id]? = some u →
    ∀ k, (Child.node n).Nests k → ∀ i,
      ComesTo c s (evaluateWithin k true { c with cache := i } (.node n)) (some u) w

theorem Fair.later (h : Fair root c s w) (hw₁ : w₁.Tidy c) (hlater : w.Later c s.options w₁)
    (hcaches : w₁.caches = w.caches) : Fair root c s w₁ where
  tidy := hw₁
  kept n u hn hu k hk i := by
    rw [World.cacheOf, hcaches] at hu
    exact (h.kept n u hn hu k hk i).later hlater

/-- From a world with a fair store the first work leaves a fair store, and the second one comes to
its result without a store. -/
structure Echoes (root : Child) (c : Context) (s : Setup) (p q : AnalysisM α) : Prop where
  keeps : ∀ {w w₁ : World} {r : Except Failure α}, p s w = .ok (r, w₁) →
    w.types.Keeps w₁.types ∧ w₁.caches.size = w.caches.size
  echo : ∀ {w w₁ : World} {r : Except Failure α}, Fair root c s w → p s w = .ok (r, w₁) →
    w₁.types.WellNamed →
      Fair root c s w₁ ∧ w.Later c s.options w₁ ∧ ComesTo c s q r.toOption w₁

namespace Echoes

theorem refl {p : AnalysisM α} (h : Repeats c s p) : Echoes root c s p p where
  keeps hrun := ⟨(h.keeps hrun).1, congrArg Array.size (h.keeps hrun).2⟩
  echo {w w₁ r} hw hrun hn := by
    obtain ⟨hw₁, hlater⟩ := h.later hw.tidy hrun hn
    refine ⟨hw.later hw₁ hlater (h.keeps hrun).2, hlater, fun w₂ hw₂ hcaches hlater₂ => ?_⟩
    obtain ⟨r', w₃, hrun₂, hr', he⟩ := h.again hw.tidy hrun hn hw₂ hlater₂
    obtain ⟨hw₃, hlater₃⟩ := h.later hw₂ hrun₂ (hw₂.wellNamed.of_entries he)
    exact ⟨r', w₃, hrun₂, hr', hw₃, (h.keeps hrun₂).2.trans hcaches, hlater₃, he⟩

theorem bind {p q : AnalysisM α} {f g : α → AnalysisM β} (h : Echoes root c s p q)
    (hf : ∀ a, Echoes root c s (f a) (g a)) : Echoes root c s (p >>= f) (q >>= g) where
  keeps {w w₁ r} hrun := by
    rw [bind_apply] at hrun
    split at hrun
    · next a w' hfirst =>
      obtain ⟨htypes, hsize⟩ := h.keeps hfirst
      obtain ⟨htypes', hsize'⟩ := (hf a).keeps hrun
      exact ⟨htypes.trans htypes', hsize'.trans hsize⟩
    · next e w' hfirst =>
      cases hrun
      exact h.keeps hfirst
    · cases hrun
  echo {w w₁ r} hw hrun hn := by
    rw [bind_apply] at hrun
    split at hrun
    · next a w' hfirst =>
      obtain ⟨hw', hlater, hcomes⟩ := h.echo hw hfirst (hn.of_keeps ((hf a).keeps hrun).1)
      obtain ⟨hw₁, hlater', hcomes'⟩ := (hf a).echo hw' hrun hn
      refine ⟨hw₁, hlater.trans hlater', fun w₂ hw₂ hcaches hlater₂ => ?_⟩
      obtain ⟨r', w₃, hrun₂, hr', hw₃, hcaches₃, hlater₃, he⟩ :=
        hcomes w₂ hw₂ hcaches (hlater'.trans hlater₂)
      obtain rfl := toOption_eq_some hr'
      obtain ⟨r'', w₄, hrun₃, hr'', hw₄, hcaches₄, hlater₄, he'⟩ :=
        hcomes' w₃ hw₃ hcaches₃ (hlater₂.trans hlater₃)
      exact ⟨r'', w₄, by rw [bind_of_ok hrun₂, hrun₃], hr'', hw₄, hcaches₄, hlater₃.trans hlater₄,
        he'.trans he⟩
    · next e w' hfirst =>
      cases hrun
      obtain ⟨hw₁, hlater, hcomes⟩ := h.echo hw hfirst hn
      refine ⟨hw₁, hlater, fun w₂ hw₂ hcaches hlater₂ => ?_⟩
      obtain ⟨r', w₃, hrun₂, hr', hrest⟩ := hcomes w₂ hw₂ hcaches hlater₂
      obtain ⟨f, rfl⟩ := toOption_eq_none hr'
      exact ⟨.error f, w₃, by rw [bind_apply, hrun₂], rfl, hrest⟩
    · cases hrun

/-- After a failure the work goes on with a fixed result, and at most an issue is reported. -/
theorem recover {p q : AnalysisM α} {handle : Failure → AnalysisM α} {a : α}
    (h : Echoes root c s p q)
    (hf : ∀ f w, ∃ log, handle f s w = .ok (.ok a, { w with issues := log })) :
    Echoes root c s (recover p handle) (recover q handle) := by
  have hcaught : ∀ {p : AnalysisM α} {w w₁ r}, AnalysisM.recover p handle s w = .ok (r, w₁) →
      ∃ r' w', p s w = .ok (r', w') ∧ r = .ok (r'.toOption.getD a) ∧
        ∃ log, w₁ = { w' with issues := log } := by
    intro p w w₁ r hrun
    rw [recover_apply] at hrun
    split at hrun
    · next a' w' hfirst =>
      cases hrun
      exact ⟨_, _, hfirst, rfl, w₁.issues, rfl⟩
    · next f w' hfirst =>
      obtain ⟨log, hlog⟩ := hf f w'
      rw [hlog] at hrun
      cases hrun
      exact ⟨_, _, hfirst, rfl, log, rfl⟩
    · cases hrun
  constructor
  · intro w w₁ r hrun
    obtain ⟨r', w', hfirst, -, log, rfl⟩ := hcaught hrun
    have hkeeps := h.keeps hfirst
    exact hkeeps
  · intro w w₁ r hw hrun hn
    obtain ⟨r', w', hfirst, rfl, log, rfl⟩ := hcaught hrun
    obtain ⟨hw', hlater, hcomes⟩ := h.echo hw hfirst hn
    have hsame := (World.Later.refl (o := s.options) hw'.tidy).withLog log w'.caches
    have htidy := hw'.tidy.withLog log w'.caches
    refine ⟨hw'.later htidy hsame rfl, hlater.trans hsame, fun w₂ hw₂ hcaches hlater₂ => ?_⟩
    obtain ⟨r'', w₃, hrun₂, hr'', hw₃, hcaches₃, hlater₃, he⟩ :=
      hcomes w₂ hw₂ hcaches (hsame.trans hlater₂)
    cases r'' with
    | ok a' =>
      refine ⟨.ok a', w₃, by rw [recover_apply, hrun₂], ?_, hw₃, hcaches₃, hlater₃, he⟩
      rw [← hr'']
      rfl
    | error f =>
      obtain ⟨log₂, hlog⟩ := hf f w₃
      refine ⟨.ok a, { w₃ with issues := log₂ }, by rw [recover_apply, hrun₂, ← hlog], ?_,
        hw₃.withLog log₂ w₃.caches, hcaches₃, hlater₃.withLog log₂ w₃.caches, he⟩
      rw [← hr'']
      rfl

theorem foldlM {f g : β → α → AnalysisM β} {as : List α}
    (h : ∀ b, ∀ a ∈ as, Echoes root c s (f b a) (g b a)) (b : β) :
    Echoes root c s (as.foldlM f b) (as.foldlM g b) := by
  induction as generalizing b with
  | nil => exact refl (.pure b)
  | cons a as ih =>
    exact (h b a List.mem_cons_self).bind (ih fun b a ha => h b a (List.mem_cons_of_mem _ ha))

theorem mapM {f g : α → AnalysisM β} {as : List α} (h : ∀ a ∈ as, Echoes root c s (f a) (g a)) :
    Echoes root c s (as.mapM f) (as.mapM g) := by
  induction as with
  | nil => exact refl (.pure [])
  | cons a as ih =>
    rw [List.mapM_cons, List.mapM_cons]
    refine (h a List.mem_cons_self).bind fun b => ?_
    exact (ih fun a ha => h a (List.mem_cons_of_mem _ ha)).bind fun bs => refl (.pure (b :: bs))

theorem forM {f g : α → AnalysisM Unit} {as : List α} (h : ∀ a ∈ as, Echoes root c s (f a) (g a)) :
    Echoes root c s (as.forM f) (as.forM g) := by
  induction as with
  | nil => exact refl (.pure ())
  | cons a as ih =>
    exact (h a List.mem_cons_self).bind fun _ => ih fun a ha => h a (List.mem_cons_of_mem _ ha)

/-- Work on a child that must be there. -/
theorem required {n : Node} {name : String} {f g : Child → AnalysisM α}
    (h : ∀ child, n.child? name = some child → Echoes root c s (f child) (g child)) :
    Echoes root c s (required n name >>= f) (required n name >>= g) := by
  unfold UnionInference.required
  cases hc : n.child? name with
  | some child => exact h child hc
  | none => exact refl (repeats_unanalyzable n _)

end Echoes

end AnalysisM

/-! ### The rules -/

/-- The children that can be evaluated here, with those that they are made of. -/
structure Child.Closed (ok : Child → Prop) : Prop where
  node : ∀ n : Node, ok (.node n) → ∀ p ∈ n.children, ok p.2

namespace NodeOf

variable {ok : Child → Prop} {n m : Node} {child : Child} {name : String}

theorem ok_child? (hn : ∀ p ∈ n.children, ok p.2) (hc : n.child? name = some child) : ok child := by
  obtain ⟨⟨slot, d⟩, hp, hsome⟩ := List.exists_of_findSome?_eq_some hc
  dsimp only at hsome
  split at hsome
  · cases hsome
    exact hn _ hp
  · cases hsome

theorem ok_childNode? (hn : ∀ p ∈ n.children, ok p.2) (hm : n.childNode? name = some m) :
    ok (.node m) := by
  obtain ⟨child, hc, hm⟩ := Option.bind_eq_some_iff.1 hm
  cases child with
  | node n' =>
    cases hm
    exact ok_child? hn hc
  | _ => cases hm

theorem ok_list (hn : ∀ p ∈ n.children, ok p.2) (hc : child ∈ n.list) : ok child := by
  obtain ⟨⟨slot, d⟩, hp, hsome⟩ := List.mem_filterMap.1 hc
  cases slot with
  | index i =>
    cases hsome
    exact hn _ hp
  | name t => cases hsome

theorem ok_listNode (hn : ∀ p ∈ n.children, ok p.2) (hm : m ∈ n.list.filterMap Child.node?) :
    ok (.node m) := by
  obtain ⟨child, hc, hm⟩ := List.mem_filterMap.1 hm
  cases child with
  | node n' =>
    cases hm
    exact ok_list hn hc
  | _ => cases hm

end NodeOf

namespace Evaluator

open AnalysisM

variable {root : Child} {c : Context} {s : Setup} {ok : Child → Prop} {n : Node} {child : Child}
  {run run' : Bool → Context → Child → AnalysisM UnionType} {i : Nat}

/-- Children are evaluated by the second evaluator as by the first one, in a context with another
store. -/
def Echoing (root : Child) (c : Context) (s : Setup) (i : Nat) (ok : Child → Prop)
    (run run' : Bool → Context → Child → AnalysisM UnionType) : Prop :=
  ∀ child, ok child → Echoes root c s (run true c child) (run' true { c with cache := i } child)

variable (hrun : Echoing root c s i ok run run')
include hrun

theorem echoes_visit (h : ok child) :
    Echoes root c s ((reporting c run).visit child)
      ((reporting { c with cache := i } run').visit child) := hrun child h

theorem echoes_visitForEffects (h : ok child) :
    Echoes root c s ((reporting c run).visitForEffects child)
      ((reporting { c with cache := i } run').visitForEffects child) :=
  .recover ((echoes_visit hrun h).bind fun _ => .refl (.pure ())) fun _ w => ⟨w.issues, rfl⟩

/-- A child that must be there is evaluated first. -/
theorem echoes_visitRequired (hn : ∀ p ∈ n.children, ok p.2) {name : String} {α : Type}
    {f g : UnionType → AnalysisM α} (h : ∀ u, Echoes root c s (f u) (g u)) :
    Echoes root c s (required n name >>= fun child => (reporting c run).visit child >>= f)
      (required n name >>= fun child => (reporting { c with cache := i } run').visit child >>= g) :=
  .required fun _ hc => (echoes_visit hrun (NodeOf.ok_child? hn hc)).bind h

/-! ### Operators -/

theorem echoes_operation (hn : ∀ p ∈ n.children, ok p.2) (first second unknown : String)
    (hop : BinaryOp.ofCode? n.flags ≠ some .coalesce) :
    Echoes root c s ((reporting c run).operation n first second unknown)
      ((reporting { c with cache := i } run').operation n first second unknown) := by
  unfold operation
  cases ho : BinaryOp.ofCode? n.flags with
  | none => exact .refl (repeats_unanalyzable n _)
  | some op =>
    refine .required fun left hl => .required fun right hr => ?_
    split
    · next hcoalesce => exact absurd (ho.trans (congrArg some hcoalesce)) hop
    · refine (echoes_visit hrun (NodeOf.ok_child? hn hl)).bind fun u => ?_
      refine (echoes_visit hrun (NodeOf.ok_child? hn hr)).bind fun u' => ?_
      exact .refl (repeats_operationType _ n op u u')

theorem echoes_unaryOp (hn : ∀ p ∈ n.children, ok p.2) :
    Echoes root c s ((reporting c run).unaryOp n)
      ((reporting { c with cache := i } run').unaryOp n) := by
  unfold unaryOp
  cases UnaryOp.ofCode? n.flags with
  | none => exact .refl (repeats_unanalyzable n _)
  | some op => exact echoes_visitRequired hrun hn fun u => .refl (by cases op <;> grind)

theorem echoes_incDec (hn : ∀ p ∈ n.children, ok p.2) :
    Echoes root c s ((reporting c run).incDec n)
      ((reporting { c with cache := i } run').incDec n) :=
  echoes_visitRequired hrun hn fun u => .refl (by grind)

theorem echoes_cast (hn : ∀ p ∈ n.children, ok p.2) :
    Echoes root c s ((reporting c run).cast n) ((reporting { c with cache := i } run').cast n) :=
  echoes_visitRequired hrun hn fun u => .refl (by grind)

theorem echoes_clone (hn : ∀ p ∈ n.children, ok p.2) :
    Echoes root c s ((reporting c run).clone n) ((reporting { c with cache := i } run').clone n) :=
  echoes_visitRequired hrun hn fun u => .refl (by grind)

/-! ### Arrays -/

theorem echoes_addElement (hn : ∀ p ∈ n.children, ok p.2) (keys : LiteralKeys) :
    Echoes root c s ((reporting c run).addElement n keys)
      ((reporting { c with cache := i } run').addElement n keys) := by
  unfold addElement
  split
  · unfold addUnpacked
    exact echoes_visitRequired hrun hn fun u => .refl (by grind)
  · refine echoes_visitRequired hrun hn fun u => ?_
    cases hk : optional? n "key" with
    | none => exact .refl (.pure _)
    | some child =>
      have hchild := NodeOf.ok_child? hn (child?_of_optional? hk)
      exact (echoes_visit hrun hchild).bind fun u' => .refl (by grind)

theorem echoes_arrayLiteral (hclosed : Child.Closed ok) (hn : ∀ p ∈ n.children, ok p.2) :
    Echoes root c s ((reporting c run).arrayLiteral n)
      ((reporting { c with cache := i } run').arrayLiteral n) := by
  refine .bind (.foldlM (fun keys m hm => ?_) _) fun keys => .refl (by grind)
  exact echoes_addElement hrun (hclosed.node m (NodeOf.ok_listNode hn hm)) keys

theorem echoes_indexType (hn : ∀ p ∈ n.children, ok p.2) :
    Echoes root c s ((reporting c run).indexType n)
      ((reporting { c with cache := i } run').indexType n) := by
  unfold indexType
  cases hk : optional? n "dim" with
  | none => exact .refl (.pure _)
  | some child =>
    have hchild := NodeOf.ok_child? hn (child?_of_optional? hk)
    exact (echoes_visit hrun hchild).bind fun u => .refl (.pure _)

theorem echoes_dim (hn : ∀ p ∈ n.children, ok p.2) :
    Echoes root c s ((reporting c run).dim n) ((reporting { c with cache := i } run').dim n) := by
  rw [dim_eq, dim_eq]
  refine echoes_visitRequired hrun hn fun base => (echoes_indexType hrun hn).bind fun index => ?_
  refine .refl ?_
  split
  · exact .pure _
  · exact repeats_dimKnown _ n base index

/-! ### Members and calls -/

theorem echoes_classReference (h : ok child) :
    Echoes root c s ((reporting c run).classReference child)
      ((reporting { c with cache := i } run').classReference child) := by
  unfold classReference AnalysisM.classReference
  cases child with
  | str name => exact .refl (repeats_existingClass _ _ _)
  | node m =>
    dsimp only
    split
    · exact .refl (by grind)
    · exact (echoes_visit hrun h).bind fun u => .refl (by grind [classList])
  | _ => exact (echoes_visit hrun h).bind fun u => .refl (by grind [classList])

theorem echoes_resolveClassConstant (h : ok child) (name : String) (line : Nat) :
    Echoes root c s (resolveClassConstant c (reporting c run).visit child name line)
      (resolveClassConstant c (reporting { c with cache := i } run').visit child name line) :=
  (echoes_classReference hrun h).bind fun classes => .refl <| by
    refine Repeats.bind (.foldlM (fun found owner => ?_) _ _) fun found => ?_
    · grind
    · cases classes <;> grind

theorem echoes_prop (hn : ∀ p ∈ n.children, ok p.2) :
    Echoes root c s ((reporting c run).prop n) ((reporting { c with cache := i } run').prop n) := by
  rw [prop_eq, prop_eq]
  refine echoes_visitRequired hrun hn fun receiver => .refl ?_
  cases n.childStr? "prop" with
  | none => exact repeats_unanalyzable n _
  | some name => exact repeats_propKnown _ n name receiver

theorem echoes_staticProp (hn : ∀ p ∈ n.children, ok p.2) :
    Echoes root c s ((reporting c run).staticProp n)
      ((reporting { c with cache := i } run').staticProp n) := by
  refine .required fun owner ho => ?_
  cases n.childStr? "prop" with
  | none => exact .refl (repeats_unanalyzable n _)
  | some name =>
    refine (echoes_classReference hrun (NodeOf.ok_child? hn ho)).bind fun classes => ?_
    exact .refl (by grind)

theorem echoes_argument (hclosed : Child.Closed ok) (h : ok child) :
    Echoes root c s ((reporting c run).argument child)
      ((reporting { c with cache := i } run').argument child) := by
  unfold argument
  cases child with
  | node m =>
    dsimp only
    split
    · exact echoes_visitRequired hrun (hclosed.node m h) fun u => .refl (by grind)
    · exact (echoes_visit hrun h).bind fun u => .refl (.pure _)
  | _ => exact (echoes_visit hrun h).bind fun u => .refl (.pure _)

theorem echoes_arguments (hclosed : Child.Closed ok) (hn : ∀ p ∈ n.children, ok p.2) :
    Echoes root c s ((reporting c run).arguments n)
      ((reporting { c with cache := i } run').arguments n) := by
  unfold arguments
  cases ha : n.childNode? "args" with
  | none => exact .refl (.pure [])
  | some list =>
    have hlist := hclosed.node list (NodeOf.ok_childNode? hn ha)
    exact .mapM fun child hc => echoes_argument hrun hclosed (NodeOf.ok_list hlist hc)

theorem echoes_call (hclosed : Child.Closed ok) (hn : ∀ p ∈ n.children, ok p.2) :
    Echoes root c s ((reporting c run).call n) ((reporting { c with cache := i } run').call n) := by
  refine .required fun callee hc => (echoes_arguments hrun hclosed hn).bind fun args => ?_
  split
  · exact .refl (by grind)
  · refine (echoes_visit hrun (NodeOf.ok_child? hn hc)).bind fun u => ?_
    exact .refl (repeats_calleeResult u)

theorem echoes_methodCall (hclosed : Child.Closed ok) (hn : ∀ p ∈ n.children, ok p.2) :
    Echoes root c s ((reporting c run).methodCall n)
      ((reporting { c with cache := i } run').methodCall n) := by
  rw [methodCall_eq, methodCall_eq]
  refine echoes_visitRequired hrun hn fun receiver =>
    (echoes_arguments hrun hclosed hn).bind fun args => .refl ?_
  cases n.childStr? "method" with
  | none => exact repeats_unanalyzable n _
  | some name => exact repeats_methodKnown _ n name receiver args

theorem echoes_staticCall (hclosed : Child.Closed ok) (hn : ∀ p ∈ n.children, ok p.2) :
    Echoes root c s ((reporting c run).staticCall n)
      ((reporting { c with cache := i } run').staticCall n) := by
  rw [staticCall_eq, staticCall_eq]
  refine .required fun owner ho => (echoes_arguments hrun hclosed hn).bind fun args => ?_
  cases n.childStr? "method" with
  | none => exact .refl (repeats_unanalyzable n _)
  | some name =>
    refine (echoes_classReference hrun (NodeOf.ok_child? hn ho)).bind fun classes => .refl ?_
    exact (repeats_resolveMethods _ _ _ _ _ _).bind fun found =>
      repeats_staticResult _ n owner args found

theorem echoes_newByExpression (h : ok child) (args : List CallArgument) :
    Echoes root c s ((reporting c run).newByExpression n child args)
      ((reporting { c with cache := i } run').newByExpression n child args) := by
  refine (echoes_classReference hrun h).bind fun classes => ?_
  split
  · exact .refl (.pure _)
  · exact (echoes_visit hrun h).bind fun u => .refl (by grind)

theorem echoes_new (hclosed : Child.Closed ok) (hn : ∀ p ∈ n.children, ok p.2) :
    Echoes root c s ((reporting c run).new n) ((reporting { c with cache := i } run').new n) := by
  refine .required fun owner ho => (echoes_arguments hrun hclosed hn).bind fun args => ?_
  have howner := NodeOf.ok_child? hn ho
  cases owner with
  | node m =>
    dsimp only
    split
    · exact .refl (repeats_newByName _ n m args)
    split
    · exact .refl (.pure _)
    · exact echoes_newByExpression hrun howner args
  | _ => exact echoes_newByExpression hrun howner args

/-! ### Names, choices and functions as values -/

theorem echoes_classString (h : ok child) :
    Echoes root c s ((reporting c run).classString n child)
      ((reporting { c with cache := i } run').classString n child) := by
  unfold classString
  cases child with
  | node m =>
    dsimp only
    split
    · exact .refl (by grind [classStringType])
    · exact (echoes_visitForEffects hrun h).bind fun _ => .refl (.pure _)
  | _ => exact .refl (repeats_unanalyzable n _)

theorem echoes_classConst (hn : ∀ p ∈ n.children, ok p.2) :
    Echoes root c s ((reporting c run).classConst n)
      ((reporting { c with cache := i } run').classConst n) := by
  refine .required fun owner ho => ?_
  have howner := NodeOf.ok_child? hn ho
  cases n.childStr? "const" with
  | none => exact .refl (repeats_unanalyzable n _)
  | some name =>
    dsimp only
    split
    · exact echoes_classString hrun howner
    · exact .bind (echoes_resolveClassConstant hrun howner name n.line) fun found => .refl (.pure _)

omit hrun in
theorem echoes_aside {p q : AnalysisM Unit} (h : Echoes root c s p q) :
    Echoes root c s (aside p) (aside q) := .recover h aside_failed

theorem echoes_classTest (h : ok child) :
    Echoes root c s ((reporting c run).classTest n child)
      ((reporting { c with cache := i } run').classTest n child) := by
  unfold classTest
  split
  · exact .bind (echoes_aside (.refl (by grind))) fun _ => .refl (.pure _)
  · exact (echoes_visit hrun h).bind fun u => .refl (by grind)

theorem echoes_instanceOf (hn : ∀ p ∈ n.children, ok p.2) :
    Echoes root c s ((reporting c run).instanceOf n)
      ((reporting { c with cache := i } run').instanceOf n) := by
  rw [instanceOf_eq, instanceOf_eq]
  refine .required fun child hc => (echoes_visitForEffects hrun (NodeOf.ok_child? hn hc)).bind
    fun _ => .required fun owner ho => ?_
  exact echoes_classTest hrun (NodeOf.ok_child? hn ho)

theorem echoes_knownConditional (holds : Bool) {cond no : Child} {yes : Option Child}
    (hcond : ok cond) (hyes : ∀ child, yes = some child → ok child) (hno : ok no) :
    Echoes root c s ((reporting c run).knownConditional holds cond yes no)
      ((reporting { c with cache := i } run').knownConditional holds cond yes no) := by
  refine (echoes_visit hrun hcond).bind fun u => ?_
  cases yes with
  | some yes =>
    have hvisit := echoes_visit hrun (hyes yes rfl)
    have heffects := echoes_visitForEffects hrun (hyes yes rfl)
    cases holds with
    | true => exact (echoes_visitForEffects hrun hno).bind fun _ => hvisit
    | false => exact heffects.bind fun _ => echoes_visit hrun hno
  | none =>
    cases holds with
    | true => exact (echoes_visitForEffects hrun hno).bind fun _ => .refl (.pure _)
    | false => exact echoes_visit hrun hno

omit hrun in
/-- Without narrowings a condition leaves the context as it is. -/
theorem narrow_eq (hnarrow : s.narrowing = {}) (holds : Bool) (w : World) :
    narrow c holds s w = .ok (.ok c, w) := by
  show (fun w => Except.ok (Except.ok _, _)) w = _
  cases holds <;> simp [hnarrow, World.withVariables]

omit hrun in
theorem echoes_narrow (hnarrow : s.narrowing = {}) (holds : Bool) {α : Type}
    {f g : Context → AnalysisM α} {d : Context} (h : Echoes root c s (f c) (g d)) :
    Echoes root c s (narrow c holds >>= f) (narrow d holds >>= g) := by
  have heq : ∀ (e : Context) (f : Context → AnalysisM α) w,
      (narrow e holds >>= f) s w = f e s w := fun e f w => bind_of_ok (narrow_eq hnarrow holds w)
  constructor
  · intro w w₁ r hrun
    exact h.keeps ((heq c f w).symm.trans hrun)
  · intro w w₁ r hw hrun hn
    obtain ⟨hw₁, hlater, hcomes⟩ := h.echo hw ((heq c f w).symm.trans hrun) hn
    refine ⟨hw₁, hlater, fun w₂ hw₂ hcaches hlater₂ => ?_⟩
    rw [heq d g w₂]
    exact hcomes w₂ hw₂ hcaches hlater₂

theorem echoes_conditional (hnarrow : s.narrowing = {}) (hn : ∀ p ∈ n.children, ok p.2) :
    Echoes root c s ((reporting c run).conditional n)
      ((reporting { c with cache := i } run').conditional n) := by
  refine .required fun cond hcond => .required fun no hno => ?_
  have hcond := NodeOf.ok_child? hn hcond
  have hno := NodeOf.ok_child? hn hno
  cases ht : cond.truthiness? with
  | some holds =>
    exact echoes_knownConditional hrun holds hcond
      (fun child hy => NodeOf.ok_child? hn (child?_of_optional? hy)) hno
  | none =>
    -- both branches are evaluated in the context of the choice itself
    refine echoes_narrow hnarrow true <| echoes_narrow hnarrow false <|
      (echoes_visit hrun hcond).bind fun type => ?_
    cases ht : optional? n "true" with
    | some yes =>
      exact (echoes_visit hrun (NodeOf.ok_child? hn (child?_of_optional? ht))).bind fun first =>
        (echoes_visit hrun hno).bind fun second => .refl (.pure _)
    | none =>
      exact .bind (.refl ((Repeats.types type.recurs_withoutNull).map _)) fun first =>
        (echoes_visit hrun hno).bind fun second => .refl (.pure _)

theorem echoes_addArm (hclosed : Child.Closed ok) (hn : ∀ p ∈ n.children, ok p.2)
    (result : UnionType) :
    Echoes root c s ((reporting c run).addArm result n)
      ((reporting { c with cache := i } run').addArm result n) := by
  have hresult : Echoes root c s
      (required n "expr" >>= fun child =>
        (reporting c run).visit child >>= fun u => pure (result.union u))
      (required n "expr" >>= fun child =>
        (reporting { c with cache := i } run').visit child >>= fun u => pure (result.union u)) :=
    echoes_visitRequired hrun hn fun u => .refl (.pure _)
  unfold addArm
  cases hconds : n.childNode? "cond" with
  | none => exact hresult
  | some conds =>
    have hall := hclosed.node conds (NodeOf.ok_childNode? hn hconds)
    exact (Echoes.forM fun child hc =>
      echoes_visitForEffects hrun (NodeOf.ok_list hall hc)).bind fun _ => hresult

theorem echoes_matchExpr (hclosed : Child.Closed ok) (hn : ∀ p ∈ n.children, ok p.2) :
    Echoes root c s ((reporting c run).matchExpr n)
      ((reporting { c with cache := i } run').matchExpr n) := by
  rw [matchExpr_eq, matchExpr_eq]
  refine .required fun cond hc => (echoes_visitForEffects hrun (NodeOf.ok_child? hn hc)).bind
    fun _ => ?_
  cases ha : n.childNode? "stmts" with
  | none => exact .refl (repeats_unanalyzable n _)
  | some arms =>
    have harms := hclosed.node arms (NodeOf.ok_childNode? hn ha)
    exact .foldlM (fun result arm harm =>
      echoes_addArm hrun hclosed (hclosed.node arm (NodeOf.ok_listNode harms harm)) result) _

omit hrun in
/-- What a declaration says does not depend on the store. -/
theorem declaredType_withCache (c : Context) (i : Nat) (n : Node) :
    declaredType { c with cache := i } n = declaredType c n := by
  induction n using declaredType.induct with
  | case3 n hkind inner hinner ih =>
    rw [declaredType, declaredType, hkind]
    dsimp only
    split
    · next m hm =>
      rw [hinner] at hm
      cases hm
      rw [ih]
    · rfl
  | case4 n hkind hinner =>
    rw [declaredType, declaredType, hkind]
    dsimp only
    split
    · next m hm =>
      rw [hinner] at hm
      cases hm
    · rfl
  | case5 n hkind ih =>
    rw [declaredType, declaredType, hkind]
    simp only [ih]
  | case6 n hkind =>
    rw [declaredType, declaredType, hkind]
    rfl
  | _ =>
    rw [declaredType, declaredType]
    simp_all

omit hrun in
theorem echoes_declaredType (n : Node) :
    Echoes root c s (declaredType c n) (declaredType { c with cache := i } n) :=
  (declaredType_withCache c i n).symm ▸ .refl (repeats_declaredType c n)

omit hrun in
theorem echoes_declaredTypeIn (n : Node) (slot : String) :
    Echoes root c s (declaredTypeIn c n slot) (declaredTypeIn { c with cache := i } n slot) := by
  unfold declaredTypeIn
  cases n.childNode? slot with
  | some type => exact echoes_declaredType type
  | none => exact .refl (.pure _)

omit hrun in
theorem echoes_closure : Echoes root c s ((reporting c run).closure n)
    ((reporting { c with cache := i } run').closure n) := by
  refine .bind (.mapM fun p _ => ?_) fun params => ?_
  · exact (echoes_declaredTypeIn p "type").bind fun type => .refl (.pure _)
  · exact (echoes_declaredTypeIn n "returnType").bind fun u => .refl (repeats_closureType params u)

theorem echoes_effectsOf (hn : ∀ p ∈ n.children, ok p.2) (slot : String) :
    Echoes root c s ((reporting c run).effectsOf n slot)
      ((reporting { c with cache := i } run').effectsOf n slot) := by
  unfold effectsOf
  cases hk : optional? n slot with
  | some child =>
    exact echoes_visitForEffects hrun (NodeOf.ok_child? hn (child?_of_optional? hk))
  | none => exact .refl (.pure ())

/-! ### All kinds of node -/

omit hrun in
theorem node_of_isPart (v : Evaluator) (hn : n.kind.isPart = true) :
    v.node n = unanalyzable n "not an expression" := by
  unfold node
  cases hk : n.kind <;> first | rfl | (rw [hk] at hn; cases hn)

theorem echoes_node (hclosed : Child.Closed ok) (hn : ∀ p ∈ n.children, ok p.2)
    (hnarrow : s.narrowing = {}) (harrow : n.kind ≠ .arrowFunc)
    (hop : n.kind = .binaryOp ∨ n.kind = .assignOp →
      BinaryOp.ofCode? n.flags ≠ some .coalesce) :
    Echoes root c s ((reporting c run).node n) ((reporting { c with cache := i } run').node n) := by
  unfold node
  cases hk : n.kind with
  | «variable» =>
    refine .refl ?_
    unfold variableUse
    cases n.childStr? "name" with
    | none => exact repeats_unanalyzable n _
    | some name => exact repeats_resolveOrCreateVariable name n.line
  | name => exact .refl (repeats_className _ n)
  | constant => exact .refl (repeats_constant _ n)
  | classConst => exact echoes_classConst hrun hn
  | className =>
    exact .required fun owner ho => echoes_classString hrun (NodeOf.ok_child? hn ho)
  | magicConst => exact .refl (repeats_magicConst _ n)
  | binaryOp => exact echoes_operation hrun hn "left" "right" _ (hop (.inl hk))
  | unaryOp => exact echoes_unaryOp hrun hn
  | preInc | preDec | postInc | postDec => exact echoes_incDec hrun hn
  | assign | assignRef =>
    exact .required fun child hc => echoes_visit hrun (NodeOf.ok_child? hn hc)
  | assignOp => exact echoes_operation hrun hn "var" "expr" _ (hop (.inr hk))
  | cast => exact echoes_cast hrun hn
  | instanceOf => exact echoes_instanceOf hrun hn
  | conditional => exact echoes_conditional hrun hnarrow hn
  | array => exact echoes_arrayLiteral hrun hclosed hn
  | dim => exact echoes_dim hrun hn
  | prop | nullsafeProp => exact echoes_prop hrun hn
  | staticProp => exact echoes_staticProp hrun hn
  | call => exact echoes_call hrun hclosed hn
  | methodCall | nullsafeMethodCall => exact echoes_methodCall hrun hclosed hn
  | staticCall => exact echoes_staticCall hrun hclosed hn
  | new => exact echoes_new hrun hclosed hn
  | closure => exact echoes_closure
  | arrowFunc => exact absurd hk harrow
  | typeHint | nullableType | typeUnion => exact echoes_declaredType n
  | isset | empty => exact .refl (.pure _)
  | clone => exact echoes_clone hrun hn
  | yieldExpr =>
    refine (echoes_effectsOf hrun hn "value").bind fun _ => ?_
    exact (echoes_effectsOf hrun hn "key").bind fun _ => .refl (.pure _)
  | yieldFrom | includeExpr | print | shellExec =>
    exact .required fun _ hc =>
      (echoes_visitForEffects hrun (NodeOf.ok_child? hn hc)).bind fun _ => .refl (.pure _)
  | encaps =>
    refine (Echoes.forM fun child hc => ?_).bind fun _ => .refl (.pure _)
    exact echoes_visitForEffects hrun (NodeOf.ok_list hn (List.mem_filter.1 hc).1)
  | matchExpr => exact echoes_matchExpr hrun hclosed hn
  | throwExpr | exit =>
    exact (echoes_effectsOf hrun hn "expr").bind fun _ => .refl (.pure _)
  | _ => exact .refl (repeats_unanalyzable n _)

end Evaluator

end UnionInference
