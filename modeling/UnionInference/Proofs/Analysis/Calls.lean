import UnionInference.Proofs.Analysis.Operators

/-!
Members and calls on sound worlds. The rules run when the evaluation of children does, and the
placeholders in what they give can be traced: they come from the operands, or belong to where the
expression stands. Only the property of an object may bring placeholders of its declaration along.
-/

namespace UnionInference

open AnalysisM

variable {r : Regime} {s : Setup} {w w₁ w₂ : World} {n : Node} {child : Child} {u : UnionType}
  {t t₁ : TypeTable} {q : String → Prop}

/-! ### Placeholders -/

/-- The placeholder stands somewhere inside the members. -/
def UnionType.Mentions (t : TypeTable) (u : UnionType) (x : String) : Prop :=
  ∃ names, u.templateNames t = .ok names ∧ x ∈ names

theorem UnionType.Held.mentions (hu : u.Inside t) : u.Held (u.Mentions t) t := by
  obtain ⟨names, hrun, hheld, -⟩ := exists_templateNames hu
  exact hheld.imp fun x hx => ⟨names, hrun, hx⟩

theorem UnionType.Held.of_mentions (hu : u.Held q t) {x : String} (hx : u.Mentions t x) : q x := by
  obtain ⟨names, hrun, -, hleast⟩ := exists_templateNames hu.inside
  obtain ⟨names', hrun', hx⟩ := hx
  rw [hrun] at hrun'
  cases hrun'
  exact hleast q hu x hx

/-- What is said of placeholders where names are strict can be traced. -/
theorem TypeM.traces_imp (r : Regime) (q : String → Prop) : Traces r fun x => r.strict → q x := by
  by_cases hs : r.strict
  · exact .inl hs
  · exact .inr fun _ h => absurd h hs

/-- The type of the argument is held, and its literal may be one. -/
structure CallArgument.Sound (r : Regime) (q : String → Prop) (t : TypeTable) (a : CallArgument) :
    Prop where
  type : a.type.Held q t
  literal : ∀ x, a.literal = some (.string x) → r.Plain x

theorem CallArgument.Sound.keeps {a : CallArgument} (h : a.Sound r q t) (hk : t.Keeps t₁) :
    a.Sound r q t₁ := ⟨h.type.keeps hk, h.literal⟩

/-! ### Results of calls -/

namespace DependentResult

theorem exists_stringOf (ht : t.Sound r) {a : CallArgument} (ha : a.Sound r q t) :
    ∃ found, stringOf a t = .ok found ∧ ∀ x, found = some x → r.Plain x := by
  unfold stringOf
  split
  · next x hx =>
    refine ⟨_, rfl, ?_⟩
    rintro _ ⟨⟩
    exact ha.literal x hx
  · split
    · exact ⟨none, rfl, fun x hx => by cases hx⟩
    · next i hi =>
      obtain ⟨ty, hrun, hty, -⟩ := UnionType.exists_fetch (ha.type i (UnionType.mem_of_single? hi))
      have hfit := ht.fit i ty hty
      rw [hrun]
      dsimp only [bind, Except.bind]
      split
      · next x hk =>
        rw [hk] at hfit
        refine ⟨_, rfl, ?_⟩
        rintro _ ⟨⟩
        exact hfit
      · exact ⟨none, rfl, fun x hx => by cases hx⟩

/-- What depends on the arguments is an object of the class that a string names. -/
theorem supplies_compute (hq : TypeM.Traces r q) (ht : t.Sound r) (hdependent : r.dependent)
    {args : List CallArgument} (hargs : ∀ a ∈ args, a.Sound r q t) (d : DependentResult) :
    TypeM.Supplies r t (d.compute args) fun t₁ found => ∀ x, found = some x → x.Held q t₁ := by
  unfold compute
  split
  · exact TypeM.supplies_pure ht nofun
  · next a ha =>
    obtain ⟨found, hrun, hplain⟩ := exists_stringOf ht (hargs a (List.mem_of_getElem? ha))
    refine TypeM.supplies_query_bind hrun ?_
    split
    · exact TypeM.supplies_pure ht nofun
    · next x =>
      dsimp only
      split
      · exact TypeM.supplies_pure ht nofun
      · next hguard =>
        simp only [Bool.or_eq_true, not_or, Bool.not_eq_true] at hguard
        obtain ⟨⟨hempty, hbar⟩, hname⟩ := hguard
        refine (TypeM.supplies_classType hq ht
          ⟨QualifiedName.typable_ofFullName hbar hname, fun hs => ?_⟩).bind fun i t₁ _ ht₁ hi => ?_
        · rcases hplain x rfl hs hdependent with h | h | h | h
          · rw [hempty] at h
            cases h
          · rw [hbar] at h
            cases h
          · rw [hname] at h
            cases h
          · exact h
        · refine TypeM.supplies_pure ht₁ ?_
          rintro _ ⟨⟩
          exact UnionType.held_of hi.1

end DependentResult

namespace TemplateMap

theorem get?_put {m : TemplateMap} {x y : String} {u : UnionType} :
    (m.put x u).get? y = if y = x then some u else m.get? y := by
  simp only [get?]
  induction m with
  | nil =>
    rw [put, List.lookup_cons]
    split <;> simp_all
  | cons b m ih =>
    obtain ⟨z, v⟩ := b
    rw [put]
    split
    · next hz =>
      subst hz
      rw [List.lookup_cons, List.lookup_cons]
      split <;> simp_all
    · next hz =>
      rw [List.lookup_cons, List.lookup_cons, ih]
      split <;> simp_all

end TemplateMap

namespace Evaluator

variable {v : Evaluator} {args : List CallArgument}

theorem supplies_bindArguments (hq : TypeM.Traces r q) (ht : t.Sound r) {sig : Signature}
    (hsig : sig.Sound r t) (hargs : ∀ a ∈ args, a.Sound r q t) :
    TypeM.Supplies r t (bindArguments sig args) fun t₁ m => m.Held q t₁ := by
  unfold bindArguments
  refine TypeM.supplies_foldlM (R := fun t m => TemplateMap.Held q t m) ht TemplateMap.held_nil
    fun m t₁ a ha hk ht₁ hm => ?_
  obtain ⟨arg, i⟩ := a
  dsimp only
  split
  · next p hp =>
    have harg := hargs arg (List.mem_of_getElem? (List.mem_zipIdx_iff_getElem?.1 ha))
    exact UnionType.supplies_bindTemplates hq ht₁
      ((hsig.params p (Signature.mem_of_paramFor? hp)).keeps hk) (harg.type.keeps hk) hm
  · exact TypeM.supplies_pure ht₁ hm

theorem held_completeMap {m : TemplateMap} {others : List (String × UnionType)} (hm : m.Held q t)
    (hothers : ∀ o ∈ others, o.2.Held q t) : (completeMap m others).Held q t := by
  unfold completeMap
  induction others generalizing m with
  | nil => exact hm
  | cons o others ih =>
    refine ih ?_ fun o' ho' => hothers o' (List.mem_cons_of_mem _ ho')
    dsimp only
    split
    · exact hm
    · exact hm.put _ (hothers o List.mem_cons_self)

/-- Something is said of every placeholder that the map is completed with. -/
theorem isSome_get?_completeMap {m : TemplateMap} (others : List (String × UnionType)) {x : String}
    (h : (m.get? x).isSome = true ∨ x ∈ others.map Prod.fst) :
    ((completeMap m others).get? x).isSome = true := by
  unfold completeMap
  induction others generalizing m with
  | nil => simpa using h
  | cons o others ih =>
    refine ih ?_
    rw [List.map_cons, List.mem_cons] at h
    dsimp only
    split
    · next hsome =>
      rcases h with h | rfl | h
      · exact .inl h
      · exact .inl hsome
      · exact .inr h
    · rcases h with h | rfl | h
      · exact .inl (by rw [TemplateMap.get?_put]; split <;> simp [h])
      · exact .inl (by simp [TemplateMap.get?_put])
      · exact .inr h

/-- The placeholders in the result of a call come from the arguments and from what is known of the
receiver, or belong to where the call stands: all others are bound or vanish. -/
theorem supplies_resultType (hq : TypeM.Traces r q) (ht : t.Sound r) {sig : Signature}
    (hsig : sig.Sound r t) (hargs : ∀ a ∈ args, a.Sound r q t) {receiver : TemplateMap}
    (hreceiver : receiver.Held q t) (hown : ∀ x ∈ v.context.templates, q x) :
    TypeM.Supplies r t (v.resultType sig args receiver) fun t₁ u => u.Held q t₁ := by
  have hdeclared {t₁ : TypeTable} (hk : t.Keeps t₁) (ht₁ : t₁.Sound r) : TypeM.Supplies r t₁ (do
      let names ← TypeM.query sig.result.templateNames
      if names.isEmpty then return sig.result
      else
        let m ← bindArguments sig args
        let foreign := names.filter fun name => !v.context.templates.contains name
        let m := completeMap (completeMap m receiver) (foreign.map fun name => (name, .empty))
        sig.result.substitute m) fun t₂ u => u.Held q t₂ := by
    have hsig₁ := hsig.keeps hk
    obtain ⟨names, hrun, hresult, -⟩ := UnionType.exists_templateNames hsig₁.result
    refine TypeM.supplies_query_bind hrun ?_
    split
    · next hnone =>
      -- without placeholders nothing has to be traced
      refine TypeM.supplies_pure ht₁ (hresult.imp fun x hx => ?_)
      rw [List.isEmpty_iff.1 hnone] at hx
      cases hx
    · refine (supplies_bindArguments hq ht₁ hsig₁ fun a ha => (hargs a ha).keeps hk).bind
        fun m t₂ hk₂ ht₂ hm => ?_
      refine UnionType.supplies_substitute hq ht₂ (hresult.keeps hk₂) (held_completeMap
        (held_completeMap hm (hreceiver.keeps (hk.trans hk₂))) ?_) fun x hx hfree => ?_
      · intro o ho
        obtain ⟨x, -, rfl⟩ := List.mem_map.1 ho
        exact UnionType.held_empty
      · by_cases hmine : x ∈ v.context.templates
        · exact hown x hmine
        · have hbound := isSome_get?_completeMap (m := completeMap m receiver) (x := x)
            ((names.filter fun name => !v.context.templates.contains name).map
              fun name => (name, UnionType.empty)) (.inr (by simp [hx, hmine]))
          rw [hfree] at hbound
          cases hbound
  unfold resultType
  dsimp only
  split
  · next d hd =>
    refine (d.supplies_compute hq ht (hsig.dependent (by simp [hd])) hargs).bind
      fun found t₁ hk ht₁ hfound => ?_
    split
    · next x => exact TypeM.supplies_pure ht₁ (hfound x rfl)
    · exact hdeclared hk ht₁
  · exact hdeclared (.refl t) ht

end Evaluator

/-! ### Operands -/

namespace Evaluator

variable {v : Evaluator} {args : List CallArgument}

/-- The placeholder belongs to where the expression stands, or an operand mentions it. -/
def Traced (c : Context) (t : TypeTable) (operands : List UnionType) (x : String) : Prop :=
  x ∈ c.templates ∨ ∃ o ∈ operands, o.Mentions t x

/-- The operand of a property fetch: the object. -/
def propOperands (v : Evaluator) (n : Node) : AnalysisM (List UnionType) := do
  return [← v.visit (← required n "expr")]

/-- The operands of a method call: the object and the arguments. -/
def methodOperands (v : Evaluator) (n : Node) : AnalysisM (List UnionType) := do
  let receiver ← v.visit (← required n "expr")
  return receiver :: (← v.arguments n).map CallArgument.type

/-- The operands of a call: the arguments, and the callee unless it is a name. -/
def callOperands (v : Evaluator) (n : Node) : AnalysisM (List UnionType) := do
  let callee ← required n "expr"
  let args ← v.arguments n
  match callee.node?.filter fun m => m.kind = .name with
  | some _ => return args.map CallArgument.type
  | none => return (← v.visit callee) :: args.map CallArgument.type

/-- The operands of a static call: the arguments. -/
def staticOperands (v : Evaluator) (n : Node) : AnalysisM (List UnionType) := do
  let _ ← required n "class"
  return (← v.arguments n).map CallArgument.type

/-- The operands of an access or a call. -/
def operands (v : Evaluator) (n : Node) : AnalysisM (List UnionType) :=
  match n.kind with
  | .prop | .nullsafeProp => v.propOperands n
  | .methodCall | .nullsafeMethodCall => v.methodOperands n
  | .call => v.callOperands n
  | .staticCall => v.staticOperands n
  | _ => pure []

theorem traced_held (c : Context) {l : List UnionType} (hu : u.Inside t) (hmem : u ∈ l) :
    u.Held (fun x => r.strict → Traced c t l x) t :=
  (UnionType.Held.mentions hu).imp fun _ hx _ => .inr ⟨u, hmem, hx⟩

theorem runs_argument (hv : v.Safe r s) (hw : w.Sound r s) (hchild : child.Fits r) :
    Runs r s w (v.argument child) fun w₁ a => a.Sound r (fun _ => True) w₁.types := by
  unfold argument
  split
  · next m =>
    split
    · refine (runs_required hw hchild "expr").bind fun spread w₁ h₁ hspread => ?_
      refine (hv.visit h₁.sound hspread.1).bind fun x w₂ h₂ hx => ?_
      obtain ⟨values, hrun, hvalues⟩ := UnionType.exists_iterableValues h₂.sound.types hx
      refine (runs_query h₂.sound (P := fun x => UnionType.Inside w₂.types x)
        ⟨values, hrun, hvalues⟩).bind ?_
      rintro values _ h₃ ⟨rfl, hvalues⟩
      exact runs_pure h₃.sound ⟨hvalues, nofun⟩
    · exact (hv.visit hw hchild).bind fun x w₁ h₁ hx => runs_pure h₁.sound ⟨hx, nofun⟩
  · refine (hv.visit hw hchild).bind fun x w₁ h₁ hx => runs_pure h₁.sound ⟨hx, fun y hy => ?_⟩
    cases child with
    | str z =>
      cases hy
      exact hchild.accepts
    | _ => cases hy

theorem runs_arguments (hv : v.Safe r s) (hw : w.Sound r s) (hn : n.Fits r) :
    Runs r s w (v.arguments n) fun w₁ args => ∀ a ∈ args, a.Sound r (fun _ => True) w₁.types := by
  unfold arguments
  split
  · exact runs_pure hw (by simp)
  · next list hlist =>
    refine runs_mapM hw (fun w₁ w₂ a h₂ ha => ha.keeps h₂.keeps) fun w₁ child hchild h₁ => ?_
    exact runs_argument hv h₁.sound ((hn.childNode? hlist).list hchild)

theorem runs_isOpaque (hw : w.Sound r s) (hu : u.Inside w.types) :
    Runs r s w (isOpaque u) fun _ _ => True := runs_any hw hu _

theorem held_addNullIf (ht : t.Sound r) (hu : u.Held q t) (skips : Bool) :
    (addNullIf skips u).Held q t := by
  unfold addNullIf
  split
  · exact hu.insert (UnionType.held_native ht .null _ (UnionType.mem_of.2 rfl))
  · exact hu

/-! ### Properties -/

/-- The properties that the node fetches: those of its name in the classes of the object. -/
def fetchedProperties (v : Evaluator) (n : Node) : AnalysisM (List Property) := do
  let receiver ← types (← v.visit (← required n "expr")).withoutNull
  let classes ← classList v.context receiver n.line
  match n.childStr? "prop" with
  | none => return []
  | some name => resolveProperties v.context classes name false n.line

/-- The placeholder stands in the declaration of a property that the node fetches. -/
def FromProperty (v : Evaluator) (n : Node) (s : Setup) (w : World) (x : String) : Prop :=
  ∃ found w₁, v.fetchedProperties n s w = .ok (.ok found, w₁) ∧
    ∃ p ∈ found, p.type.Mentions w₁.types x

/-- What the properties that were found are declared to hold, with what is known of the receiver. -/
theorem runs_propResult (hw : w.Sound r s) (hq : TypeM.Traces r q) {receiver : UnionType}
    (hreceiver : receiver.Held q w.types) {found : List Property}
    (hfound : ∀ p ∈ found, p.Sound w.types ∧ p.type.Held q w.types) :
    Runs r s w (propResult receiver found) fun w₁ u => u.Held q w₁.types := by
  unfold propResult
  refine runs_foldlM hw UnionType.held_empty fun result w₁ p hp h₁ hresult => ?_
  obtain ⟨hsound, htype⟩ := hfound p hp
  refine (runs_receiverTemplates h₁.sound (hreceiver.keeps h₁.keeps) p.name.owner).bind
    fun m w₂ h₂ hm => ?_
  have h₁₂ := h₁.trans h₂
  refine (runs_types h₂.sound (UnionType.supplies_substitute hq h₂.sound.types
    (htype.keeps h₁₂.keeps) hm fun _ hx _ => hx)).bind fun type w₃ h₃ htype₃ => ?_
  refine (runs_types h₃.sound (UnionType.supplies_resolveStatic hq h₃.sound.types htype₃
    hsound.owner.admits)).bind fun resolved w₄ h₄ hresolved => ?_
  exact runs_pure h₄.sound ((hresult.keeps (h₂.trans (h₃.trans h₄)).keeps).union hresolved)

theorem runs_prop (hv : v.Safe r s) (hw : w.Sound r s) (hn : n.Fits r) :
    Runs r s w (v.prop n) fun w' u => ∃ os w₁, v.propOperands n s w = .ok (.ok os, w₁) ∧
      u.Held (fun x => r.strict → Traced v.context w₁.types os x ∨ v.FromProperty n s w x)
        w'.types := by
  unfold prop
  refine (runs_required hw hn "expr").bind_eq fun child w₁ hrequired h₁ hchild => ?_
  refine (hv.visit h₁.sound hchild.1).bind_eq fun receiver w₂ hvisit h₂ hreceiver => ?_
  have hoperands : v.propOperands n s w = .ok (.ok [receiver], w₂) := by
    unfold propOperands
    rw [bind_of_ok hrequired, bind_of_ok hvisit]
    rfl
  -- what is said of placeholders from here on
  let q : String → Prop := fun x =>
    r.strict → Traced v.context w₂.types [receiver] x ∨ v.FromProperty n s w x
  have hq : TypeM.Traces r q := TypeM.traces_imp r _
  have hreceiver₂ : receiver.Held q w₂.types :=
    (traced_held v.context hreceiver (List.mem_singleton_self _)).imp fun x hx hs => .inl (hx hs)
  refine Runs.imp (Q := fun w' u => UnionType.Held q w'.types u) ?_ fun u w' _ hu =>
    ⟨[receiver], w₂, hoperands, hu⟩
  split
  · exact runs_unanalyzable h₂.sound n _
  · next name hname =>
    refine (runs_withoutNull h₂.sound hq hreceiver₂).bind_eq fun nonNull w₃ hwithout h₃ hnonNull => ?_
    split
    · exact runs_pure h₃.sound UnionType.held_empty
    · refine (runs_classListWith h₃.sound _ _ hnonNull).bind_eq fun classes w₄ hlist h₄ hclasses => ?_
      have hnonNull₄ := hnonNull.keeps h₄.keeps
      split
      · refine (runs_isOpaque h₄.sound hnonNull₄.inside).bind fun yes w₅ h₅ _ => ?_
        split
        · exact runs_pure h₅.sound UnionType.held_empty
        · exact (runs_display h₅.sound (hnonNull₄.inside.keeps h₅.keeps)).bind fun _ _ h₆ _ =>
            runs_failWith h₆.sound ..
      · refine (runs_resolveProperties h₄.sound v.context
          (fun x hx => (hclasses x hx).regular h₄.sound) name false n.line).bind_eq
          fun found w₅ hresolve h₅ hfound => ?_
        have hfetched : v.fetchedProperties n s w = .ok (.ok found, w₅) := by
          unfold fetchedProperties
          rw [bind_of_ok hrequired, bind_of_ok hvisit, bind_of_ok hwithout]
          refine (bind_of_ok hlist).trans ?_
          rw [hname]
          exact hresolve
        have hdeclared : ∀ p ∈ found, p.Sound w₅.types ∧ p.type.Held q w₅.types := fun p hp =>
          ⟨hfound p hp, (UnionType.Held.mentions (hfound p hp).type).imp fun x hx _ =>
            .inr ⟨found, w₅, hfetched, p, hp, hx⟩⟩
        refine (runs_propResult h₅.sound hq (hnonNull₄.keeps h₅.keeps) hdeclared).bind
          fun result w₆ h₆ hresult => ?_
        exact runs_pure h₆.sound (held_addNullIf h₆.sound.types hresult _)

theorem runs_classReference (hv : v.Safe r s) (hw : w.Sound r s) (hchild : child.Fits r) :
    Runs r s w (v.classReference child) fun w₁ found => ∀ x ∈ found, w₁.Has x :=
  AnalysisM.runs_classReference hw hv.context hchild (hv.visit hw hchild)

/-- The class that static types stand for is that of the member or that of the context. -/
theorem admits_staticOwner (hv : v.Safe r s) (child : Child) {owner : ClassName}
    (howner : owner.Regular) : r.Admits ((v.staticOwner? child).getD owner) := by
  unfold staticOwner?
  split
  · cases hc : v.context.owner with
    | none => exact howner.admits
    | some q => exact hv.context.owner q hc
  · exact howner.admits

theorem runs_staticProp (hv : v.Safe r s) (hw : w.Sound r s) (hn : n.Fits r) :
    Runs r s w (v.staticProp n) fun w₁ u => u.Inside w₁.types := by
  unfold staticProp
  refine (runs_required hw hn "class").bind fun owner w₁ h₁ howner => ?_
  split
  · exact runs_unanalyzable h₁.sound n _
  · next name _ =>
    refine (runs_classReference hv h₁.sound howner.1).bind fun classes w₂ h₂ hclasses => ?_
    refine (runs_resolveProperties h₂.sound v.context
      (fun x hx => (hclasses x hx).regular h₂.sound) name true n.line).bind
      fun found w₃ h₃ hfound => ?_
    refine runs_foldlM h₃.sound UnionType.held_empty fun result w₄ p hp h₄ hresult => ?_
    have hsound := (hfound p hp).keeps h₄.keeps
    refine (runs_types h₄.sound (UnionType.supplies_resolveStatic (TypeM.traces_true r)
      h₄.sound.types hsound.type (admits_staticOwner hv owner hsound.owner))).bind
      fun type w₅ h₅ htype => ?_
    exact runs_pure h₅.sound ((hresult.keeps h₅.keeps).union htype)

/-! ### Calls -/

theorem runs_calleeResult (hw : w.Sound r s) (hu : u.Held q w.types) :
    Runs r s w (calleeResult u) fun w₁ u => u.Held q w₁.types := by
  refine runs_foldlM hw UnionType.held_empty fun result w₁ i hi h₁ hresult => ?_
  refine (runs_fetch h₁.sound (h₁.keeps.holds (hu i hi))).bind fun ty w₂ h₂ hty => ?_
  have hresult₂ := hresult.keeps h₂.keeps
  split
  · next sig hk =>
    refine runs_pure h₂.sound (hresult₂.union fun j hj => hty.2.parts j ?_)
    rw [hk]
    exact List.mem_append_right _ hj
  · exact runs_pure h₂.sound hresult₂

/-- What is said of the placeholders of the operands holds of the arguments. -/
theorem arguments_traced (c : Context) {l : List UnionType} (hargs : ∀ a ∈ args,
    a.Sound r (fun _ => True) t) (hmem : ∀ a ∈ args, a.type ∈ l) :
    ∀ a ∈ args, a.Sound r (fun x => r.strict → Traced c t l x) t :=
  fun a ha => ⟨traced_held c (hargs a ha).type (hmem a ha), (hargs a ha).literal⟩

theorem runs_call (hv : v.Safe r s) (hw : w.Sound r s) (hn : n.Fits r) :
    Runs r s w (v.call n) fun w' u => ∃ os w₁, v.callOperands n s w = .ok (.ok os, w₁) ∧
      u.Held (fun x => r.strict → Traced v.context w₁.types os x) w'.types := by
  unfold call
  refine (runs_required hw hn "expr").bind_eq fun callee w₁ hrequired h₁ hcallee => ?_
  refine (runs_arguments hv h₁.sound hn).bind_eq fun args w₂ hevaluated h₂ hargs => ?_
  split
  · next name hname =>
    have hoperands : v.callOperands n s w = .ok (.ok (args.map CallArgument.type), w₂) := by
      unfold callOperands
      rw [bind_of_ok hrequired, bind_of_ok hevaluated]
      simp only [hname]
      rfl
    refine (runs_resolveFunction h₂.sound v.context name).bind fun f w₃ h₃ hf => ?_
    have htraced := arguments_traced v.context hargs (l := args.map CallArgument.type)
      fun a ha => List.mem_map_of_mem ha
    refine (runs_types h₃.sound (supplies_resultType (TypeM.traces_imp r _) h₃.sound.types hf
      (fun a ha => (htraced a ha).keeps h₃.keeps) TemplateMap.held_nil
      fun x hx _ => .inl hx)).imp fun u w' h₄ hu => ⟨_, w₂, hoperands, hu⟩
  · next hname =>
    refine (hv.visit h₂.sound hcallee.1).bind_eq fun x w₃ hvisit h₃ hx => ?_
    have hoperands : v.callOperands n s w = .ok (.ok (x :: args.map CallArgument.type), w₃) := by
      unfold callOperands
      rw [bind_of_ok hrequired, bind_of_ok hevaluated]
      simp only [hname]
      rw [bind_of_ok hvisit]
      rfl
    exact (runs_calleeResult h₃.sound (traced_held v.context hx List.mem_cons_self)).imp
      fun u w' h₄ hu => ⟨_, w₃, hoperands, hu⟩

/-- The results of the methods that were found, with what is known of the receiver. -/
theorem runs_methodResult (hw : w.Sound r s) (hq : TypeM.Traces r q) {receiver : UnionType}
    (hreceiver : receiver.Held q w.types) (hargs : ∀ a ∈ args, a.Sound r q w.types)
    (hown : ∀ x ∈ v.context.templates, q x) {found : List Method}
    (hfound : ∀ m ∈ found, m.Sound r w.types) :
    Runs r s w (v.methodResult receiver args found) fun w₁ u => u.Held q w₁.types := by
  unfold methodResult
  refine runs_foldlM hw UnionType.held_empty fun result w₁ m hm h₁ hresult => ?_
  refine (runs_receiverTemplates h₁.sound (hreceiver.keeps h₁.keeps) m.name.owner).bind
    fun templates w₂ h₂ htemplates => ?_
  have h₁₂ := h₁.trans h₂
  have hsound := (hfound m hm).keeps h₁₂.keeps
  refine (runs_types h₂.sound (supplies_resultType hq h₂.sound.types hsound.signature
    (fun a ha => (hargs a ha).keeps h₁₂.keeps) htemplates hown)).bind fun type w₃ h₃ htype => ?_
  refine (runs_types h₃.sound (UnionType.supplies_resolveStatic hq h₃.sound.types htype
    hsound.owner.admits)).bind fun resolved w₄ h₄ hresolved => ?_
  exact runs_pure h₄.sound ((hresult.keeps (h₂.trans (h₃.trans h₄)).keeps).union hresolved)

theorem runs_methodCall (hv : v.Safe r s) (hw : w.Sound r s) (hn : n.Fits r) :
    Runs r s w (v.methodCall n) fun w' u => ∃ os w₁, v.methodOperands n s w = .ok (.ok os, w₁) ∧
      u.Held (fun x => r.strict → Traced v.context w₁.types os x) w'.types := by
  unfold methodCall
  refine (runs_required hw hn "expr").bind_eq fun child w₁ hrequired h₁ hchild => ?_
  refine (hv.visit h₁.sound hchild.1).bind_eq fun receiver w₂ hvisit h₂ hreceiver => ?_
  refine (runs_arguments hv h₂.sound hn).bind_eq fun args w₃ hevaluated h₃ hargs => ?_
  have hoperands : v.methodOperands n s w =
      .ok (.ok (receiver :: args.map CallArgument.type), w₃) := by
    unfold methodOperands
    rw [bind_of_ok hrequired, bind_of_ok hvisit, bind_of_ok hevaluated]
    rfl
  have hq := TypeM.traces_imp r
    (Traced v.context w₃.types (receiver :: args.map CallArgument.type))
  have hreceiver₃ := traced_held (r := r) v.context (hreceiver.keeps h₃.keeps)
    (l := receiver :: args.map CallArgument.type) List.mem_cons_self
  have hargs₃ := arguments_traced v.context hargs (l := receiver :: args.map CallArgument.type)
    fun a ha => List.mem_cons_of_mem _ (List.mem_map_of_mem ha)
  refine Runs.imp (Q := fun w' u => UnionType.Held _ w'.types u) ?_ fun u w' _ hu =>
    ⟨_, w₃, hoperands, hu⟩
  split
  · exact runs_unanalyzable h₃.sound n _
  · next name _ =>
    refine (runs_withoutNull h₃.sound hq hreceiver₃).bind fun nonNull w₄ h₄ hnonNull => ?_
    split
    · exact runs_pure h₄.sound UnionType.held_empty
    · refine (runs_classListWith h₄.sound _ _ hnonNull).bind fun classes w₅ h₅ _ => ?_
      refine (runs_andM (runs_pure h₅.sound trivial) fun w₆ h₆ => runs_isOpaque h₆.sound
        (hnonNull.inside.keeps (h₅.trans h₆).keeps)).bind fun unknown w₆ h₆ _ => ?_
      have h₄₆ := h₅.trans h₆
      split
      · exact runs_pure h₆.sound UnionType.held_empty
      · refine (runs_resolveMethods h₆.sound v.context classes name false
          (hnonNull.inside.keeps h₄₆.keeps) n.line).bind fun found w₇ h₇ hfound => ?_
        have h₃₇ := h₄.trans (h₄₆.trans h₇)
        refine (runs_methodResult h₇.sound hq (hnonNull.keeps (h₄₆.trans h₇).keeps)
          (fun a ha => (hargs₃ a ha).keeps h₃₇.keeps) (fun x hx _ => .inl hx) fun m hm => ?_).bind
          fun result w₈ h₈ hresult => ?_
        · obtain ⟨x, hx, hmember⟩ := List.mem_filterMap.1 hm
          exact hfound x hx m hmember
        · exact runs_pure h₈.sound (held_addNullIf h₈.sound.types hresult _)

theorem runs_checkStaticCall (hw : w.Sound r s) (m : Method) (line : Nat) :
    Runs r s w (v.checkStaticCall m line) fun _ _ => True := by
  have hrest {w₁ : World} (hw₁ : w₁.Sound r s) (allowed : Bool) : Runs r s w₁
      (if allowed then pure ()
      else v.failWith .staticCallToNonStatic line (accessArgs m.name.text m.location))
      fun _ _ => True := by
    split
    · exact runs_pure hw₁ trivial
    · exact runs_failWith hw₁ ..
  unfold checkStaticCall
  split
  · exact runs_pure hw trivial
  · dsimp only
    split
    · split
      · exact (runs_pure (Q := fun _ _ => True) hw trivial).bind fun x w₁ h₁ _ => hrest h₁.sound x
      · split
        · exact (runs_pure (Q := fun _ _ => True) hw trivial).bind fun x w₁ h₁ _ => hrest h₁.sound x
        · exact (runs_isSubclassOf hw _ _).bind fun x w₁ h₁ _ => hrest h₁.sound x
    · exact (runs_pure (Q := fun _ _ => True) hw trivial).bind fun x w₁ h₁ _ => hrest h₁.sound x

/-- What the method of a class gives, where it is known, is added to the result. -/
theorem runs_memberResult (hv : v.Safe r s) (hw : w.Sound r s) (owner : Child) {q : String → Prop}
    (hq : TypeM.Traces r q) (hargs : ∀ a ∈ args, a.Sound r q w.types)
    (hown : ∀ x ∈ v.context.templates, q x) {result : UnionType} (hresult : result.Held q w.types)
    {member : Option Method} (hmember : ∀ m, member = some m → m.Sound r w.types) :
    Runs r s w (match member with
      | none => pure result
      | some m => do
        let static := (v.staticOwner? owner).getD m.name.owner
        let type ← types (v.resultType m.signature args [])
        return result.union (← types (type.resolveStatic static)))
      fun w₁ u => u.Held q w₁.types := by
  cases member with
  | none => exact runs_pure hw hresult
  | some m =>
    have hsound := hmember m rfl
    refine (runs_types hw (supplies_resultType hq hw.types hsound.signature hargs
      TemplateMap.held_nil hown)).bind fun type w₁ h₁ htype => ?_
    refine (runs_types h₁.sound (UnionType.supplies_resolveStatic hq h₁.sound.types htype
      (admits_staticOwner hv owner hsound.owner))).bind fun resolved w₂ h₂ hresolved => ?_
    exact runs_pure h₂.sound ((hresult.keeps (h₁.trans h₂).keeps).union hresolved)

theorem runs_staticCall (hv : v.Safe r s) (hw : w.Sound r s) (hn : n.Fits r) :
    Runs r s w (v.staticCall n) fun w' u => ∃ os w₁, v.staticOperands n s w = .ok (.ok os, w₁) ∧
      u.Held (fun x => r.strict → Traced v.context w₁.types os x) w'.types := by
  unfold staticCall
  refine (runs_required hw hn "class").bind_eq fun owner w₁ hrequired h₁ howner => ?_
  refine (runs_arguments hv h₁.sound hn).bind_eq fun args w₂ hevaluated h₂ hargs => ?_
  have hoperands : v.staticOperands n s w = .ok (.ok (args.map CallArgument.type), w₂) := by
    unfold staticOperands
    rw [bind_of_ok hrequired, bind_of_ok hevaluated]
    rfl
  have hq := TypeM.traces_imp r (Traced v.context w₂.types (args.map CallArgument.type))
  have hargs₂ := arguments_traced v.context hargs (l := args.map CallArgument.type)
    fun a ha => List.mem_map_of_mem ha
  refine Runs.imp (Q := fun w' u => UnionType.Held _ w'.types u) ?_ fun u w' _ hu =>
    ⟨_, w₂, hoperands, hu⟩
  split
  · exact runs_unanalyzable h₂.sound n _
  · next name _ =>
    refine (runs_classReference hv h₂.sound howner.1).bind fun classes w₃ h₃ _ => ?_
    refine (runs_resolveMethods h₃.sound v.context classes name true UnionType.held_empty
      n.line).bind fun found w₄ h₄ hfound => ?_
    refine runs_foldlM h₄.sound UnionType.held_empty fun result w₅ x hx h₅ hresult => ?_
    have hmember : ∀ m, x.member? = some m → m.Sound r w₅.types := fun m hm =>
      (hfound x hx m hm).keeps h₅.keeps
    have hrest {w₆ : World} (h₆ : w₅.Leads r s w₆) := runs_memberResult hv h₆.sound owner hq
      (fun a ha => (hargs₂ a ha).keeps (h₃.trans (h₄.trans (h₅.trans h₆))).keeps)
      (fun x hx _ => .inl hx) (hresult.keeps h₆.keeps) fun m hm => (hmember m hm).keeps h₆.keeps
    dsimp only
    split
    · exact (runs_checkStaticCall h₅.sound _ n.line).bind fun _ w₆ h₆ _ => hrest h₆
    · exact hrest (.refl h₅.sound)

/-! ### New objects -/

theorem held_templateArgs? {m : TemplateMap} (hm : m.Held q t) {names : List String}
    {us : List UnionType} (h : templateArgs? m names = some us) : ∀ u ∈ us, u.Held q t := by
  unfold templateArgs? at h
  induction names generalizing us with
  | nil =>
    cases h
    simp
  | cons name names ih =>
    simp only [List.mapM_cons, Option.bind_eq_bind, Option.bind_eq_some_iff] at h
    obtain ⟨u, hu, rest, hrest, hus⟩ := h
    cases hus
    exact List.forall_mem_cons.2 ⟨hm.get? (Option.filter_eq_some_iff.1 hu).1, ih hrest⟩

/-- The type of a new object has arguments where all placeholders of its class are known. -/
theorem runs_typeOfObject (hw : w.Sound r s) {owner : ClassName} (howner : owner.Regular)
    {m : TemplateMap} (hm : m.Held (fun _ => True) w.types) {names : List String} :
    Runs r s w (match templateArgs? m names with
      | some templateArgs => types (TypeM.classTypeWith owner templateArgs)
      | none => types (TypeM.classType owner))
      fun w₁ i => w₁.types.Holds (fun _ => True) i := by
  split
  · next us hus =>
    rw [TypeM.classTypeWith, TypeM.make_of_typable howner.typable]
    refine (runs_types hw (TypeM.supplies_intern (TypeM.traces_true r) hw.types _ _
      (TypeTable.HoldsKind.object (held_templateArgs? hm hus))
      ⟨howner.typable, fun _ => howner⟩ (by simp))).imp fun _ _ _ h => h.1
  · exact runs_classType hw howner.admits

theorem runs_instantiate (hw : w.Sound r s) {owner : ClassName} (howner : w.Has owner)
    (how : Instantiation) (hargs : ∀ a ∈ args, a.Sound r (fun _ => True) w.types) (line : Nat) :
    Runs r s w (v.instantiate owner how args line) fun w₁ i =>
      w₁.types.Holds (fun _ => True) i := by
  have hregular := howner.regular hw
  unfold instantiate
  refine (runs_getClass hw howner).bind fun decl w₁ h₁ _ => ?_
  split
  · exact runs_failWith h₁.sound ..
  · split
    · exact runs_failWith h₁.sound ..
    · split
      · exact runs_failWith h₁.sound ..
      · split
        · exact runs_classType h₁.sound hregular.admits
        · refine (runs_findMethod h₁.sound owner "__construct" false).bind fun x w₂ h₂ hx => ?_
          dsimp only
          split
          · next constructor =>
            refine (runs_types h₂.sound (supplies_bindArguments (TypeM.traces_true r)
              h₂.sound.types (hx constructor rfl).signature
              fun a ha => (hargs a ha).keeps (h₁.trans h₂).keeps)).bind fun m w₃ h₃ hm => ?_
            exact runs_typeOfObject h₃.sound hregular hm
          · exact (runs_pure (Q := fun w₁ m => TemplateMap.Held _ w₁.types m) h₂.sound
              TemplateMap.held_nil).bind fun m w₃ h₃ hm => runs_typeOfObject h₃.sound hregular hm

theorem runs_literalClasses (hw : w.Sound r s) (hu : u.Inside w.types) :
    Runs r s w (literalClasses u) fun _ _ => True := by
  unfold literalClasses
  refine (runs_mapM (R := fun _ _ => True) hw (fun _ _ _ _ _ => trivial) fun w₁ i hi h₁ => ?_).bind
    fun names w₁ h₁ _ => runs_pure h₁.sound trivial
  refine (runs_fetch h₁.sound (h₁.keeps.holds (hu i hi))).bind fun ty w₂ h₂ _ => ?_
  split
  · exact runs_pure h₂.sound trivial
  · exact runs_pure h₂.sound trivial

theorem runs_newByExpression (hv : v.Safe r s) (hw : w.Sound r s) (hchild : child.Fits r)
    (hargs : ∀ a ∈ args, a.Sound r (fun _ => True) w.types) :
    Runs r s w (v.newByExpression n child args) fun w₁ u => u.Inside w₁.types := by
  unfold newByExpression
  refine (runs_classReference hv hw hchild).bind fun classes w₁ h₁ hclasses => ?_
  split
  · exact runs_pure h₁.sound (UnionType.held_native h₁.sound.types .object)
  · refine (hv.visit h₁.sound hchild).bind fun x w₂ h₂ hx => ?_
    refine (runs_literalClasses h₂.sound hx).bind fun named w₃ h₃ _ => ?_
    refine runs_foldlM h₃.sound UnionType.held_empty fun result w₄ name hname h₄ hresult => ?_
    have h₁₄ := h₂.trans (h₃.trans h₄)
    refine (runs_instantiate h₄.sound (h₁₄.has (hclasses name hname)) _
      (fun a ha => (hargs a ha).keeps (h₁.trans h₁₄).keeps) n.line).bind fun i w₅ h₅ hi => ?_
    exact runs_pure h₅.sound ((hresult.keeps h₅.keeps).insert hi)

theorem runs_newByName (hv : v.Safe r s) (hw : w.Sound r s) {name : Node} (hname : name.Fits r)
    (hkind : name.kind = .name) (hargs : ∀ a ∈ args, a.Sound r (fun _ => True) w.types) :
    Runs r s w (v.newByName n name args) fun w₁ u => u.Inside w₁.types := by
  unfold newByName
  refine (runs_classOfName hw hv.context hname hkind).bind fun owner w₁ h₁ _ => ?_
  refine (runs_hasClass h₁.sound owner).bind fun found w₂ h₂ hfound => ?_
  cases found with
  | false => exact runs_failWith h₂.sound ..
  | true =>
    have hargs₂ := fun a ha => (hargs a ha).keeps (h₁.trans h₂).keeps
    refine Runs.imp (Q := fun w₁ u => UnionType.Inside w₁.types u) ?_ fun _ _ _ h => h
    simp only [Bool.not_true, Bool.false_eq_true, if_false]
    split
    · refine (runs_instantiate h₂.sound (hfound rfl) .static hargs₂ n.line).bind
        fun i w₃ h₃ _ => ?_
      exact runs_pure h₃.sound (UnionType.held_native h₃.sound.types .static)
    · refine (runs_instantiate h₂.sound (hfound rfl) .named hargs₂ n.line).bind
        fun i w₃ h₃ hi => ?_
      exact runs_pure h₃.sound (UnionType.held_of hi)

theorem runs_new (hv : v.Safe r s) (hw : w.Sound r s) (hn : n.Fits r) :
    Runs r s w (v.new n) fun w₁ u => u.Inside w₁.types := by
  unfold new
  refine (runs_required hw hn "class").bind fun owner w₁ h₁ howner => ?_
  refine (runs_arguments hv h₁.sound hn).bind fun args w₂ h₂ hargs => ?_
  split
  · next m =>
    split
    · next hkind => exact runs_newByName hv h₂.sound howner.1 hkind hargs
    · split
      · exact runs_pure h₂.sound (UnionType.held_native h₂.sound.types .object)
      · exact runs_newByExpression hv h₂.sound howner.1 hargs
  · exact runs_newByExpression hv h₂.sound howner.1 hargs

end Evaluator

end UnionInference
