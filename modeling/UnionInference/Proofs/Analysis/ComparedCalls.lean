import UnionInference.Proofs.Analysis.ComparedOperators

/-!
Calls in evaluations that are compared. Arguments of the same types say the same of the placeholders in a
signature, so the result is the same; and so are the objects that are made.
-/

namespace UnionInference

open TypeM (SameRegular)

open TypeTable (Siblings)

/-! ### Loops in step -/

theorem forall₂_zipIdx {α β : Type} {R : α → β → Prop} {as : List α} {bs : List β}
    (h : List.Forall₂ R as bs) (k : Nat) :
    List.Forall₂ (fun p q => R p.1 q.1 ∧ p.2 = q.2) (as.zipIdx k) (bs.zipIdx k) := by
  induction h generalizing k with
  | nil => exact .nil
  | cons hab _ ih => exact .cons ⟨hab, rfl⟩ (ih (k + 1))

theorem forall₂_getElem? {α β : Type} {R : α → β → Prop} {as : List α} {bs : List β}
    (h : List.Forall₂ R as bs) (k : Nat) : Option.Rel R as[k]? bs[k]? := by
  induction h generalizing k with
  | nil => exact .none
  | cons hab _ ih =>
    cases k with
    | zero => exact .some hab
    | succ k => exact ih k

/-- A loop in step through rows that are related row by row. -/
theorem TypeM.Tallies.foldlM_forall₂ {α β γ δ : Type} {T T' : TypeTable} {R : γ → δ → Prop}
    {A : α → β → Prop} {f : α → γ → TypeM α} {g : β → δ → TypeM β} {as : List γ} {bs : List δ}
    (h : List.Forall₂ R as bs) (hf : ∀ a k, Recurs (f a k)) (hg : ∀ b l, Recurs (g b l))
    (hfg : ∀ a b k l, R k l → A a b → Tallies T T' A (f a k) (g b l)) {a : α} {b : β}
    (hab : A a b) : Tallies T T' A (as.foldlM f a) (bs.foldlM g b) := by
  induction h generalizing a b with
  | nil => exact .pure hab
  | cons hkl _ ih =>
    rw [List.foldlM_cons, List.foldlM_cons]
    exact (hfg a b _ _ hkl hab).bind ⟨fun a => .foldlM hf _ a, fun b => .foldlM hg _ b⟩
      fun a b hab => ih hab

/-! ### Maps that are completed -/

namespace TemplateMap

variable {T T' : TypeTable} {m m' : TemplateMap} {s : String}

theorem get?_cons_self (m : TemplateMap) (u : UnionType) : get? ((s, u) :: m) s = some u := by
  simp [get?]

theorem get?_cons_of_ne {s' : String} (m : TemplateMap) (u : UnionType) (h : s ≠ s') :
    get? ((s', u) :: m) s = m.get? s := by
  simp [get?, List.lookup_cons, beq_false_of_ne h]

theorem get?_completeMap (others : List (String × UnionType)) :
    (Evaluator.completeMap m others).get? s = (m.get? s).or (get? others s) := by
  unfold Evaluator.completeMap
  induction others generalizing m with
  | nil => exact (Option.or_none ..).symm
  | cons o others ih =>
    obtain ⟨s', u⟩ := o
    rw [List.foldl_cons, ih]
    by_cases hs : s = s'
    · subst hs
      rw [get?_cons_self]
      cases hm : m.get? s with
      | none => simp [get?_put]
      | some v => simp [hm]
    · rw [get?_cons_of_ne others u hs]
      split
      · rfl
      · rw [get?_put, if_neg hs]

theorem sameMap_completeMap (h : T.SameMap T' m m') {o o' : List (String × UnionType)}
    (ho : T.SameMap T' o o') :
    T.SameMap T' (Evaluator.completeMap m o) (Evaluator.completeMap m' o') := by
  intro s
  rw [get?_completeMap, get?_completeMap]
  have hs := h s
  generalize m.get? s = u? at hs ⊢
  generalize m'.get? s = v? at hs ⊢
  cases hs with
  | none => exact ho s
  | some huv => exact .some huv

/-- Nothing is known of any placeholder in the list. -/
theorem sameMap_unknown (names : List String) :
    T.SameMap T' (names.map fun name => (name, .empty)) (names.map fun name => (name, .empty)) := by
  intro s
  cases h : get? (names.map fun name => (name, UnionType.empty)) s with
  | none => exact .none
  | some u =>
    obtain ⟨l₁, l₂, hl, -⟩ := List.lookup_eq_some_iff.1 h
    have hmem : (s, u) ∈ names.map fun name => (name, UnionType.empty) := by simp [hl]
    obtain ⟨name, -, hname⟩ := List.mem_map.1 hmem
    cases hname
    exact .some .empty

theorem templateArgs?_rel (h : T.SameMap T' m m') (names : List String) :
    Option.Rel (List.Forall₂ (T.SameTypes T')) (Evaluator.templateArgs? m names)
      (Evaluator.templateArgs? m' names) := by
  unfold Evaluator.templateArgs?
  induction names with
  | nil => exact .some .nil
  | cons name names ih =>
    rw [List.mapM_cons, List.mapM_cons]
    have hname := h name
    generalize m.get? name = u? at hname ⊢
    generalize m'.get? name = v? at hname ⊢
    cases hname with
    | none => exact .none
    | @some u v huv =>
      rw [Option.filter_some, Option.filter_some, UnionType.Matches.isEmpty_eq huv]
      split
      · generalize names.mapM (fun name => (m.get? name).filter fun u => !u.isEmpty) = us? at ih ⊢
        generalize names.mapM (fun name => (m'.get? name).filter fun u => !u.isEmpty) = vs? at ih ⊢
        cases ih with
        | none => exact .none
        | some hrest => exact .some (.cons huv hrest)
      · exact .none

end TemplateMap

/-! ### Arguments and results -/

/-- The arguments have the same types, each in its own table, and are the same literal, if any; a string
may be a literal. -/
structure CallArgument.Same (r : Regime) (T T' : TypeTable) (a b : CallArgument) : Prop where
  type : T.SameTypes T' a.type b.type
  literal : a.literal = b.literal
  plain : ∀ s, a.literal = some (.string s) → r.Plain s

section

variable {T T' t₀ : TypeTable} {r : Regime} (h : Siblings r t₀ T T') {args args' : List CallArgument}
include h

theorem DependentResult.stringOf_eq {a b : CallArgument} (hab : CallArgument.Same r T T' a b) :
    ∃ found, stringOf a T = .ok found ∧ stringOf b T' = .ok found ∧
      ∀ s, found = some s → r.Plain s := by
  unfold stringOf
  rw [← hab.literal]
  split
  · next s hs =>
    refine ⟨_, rfl, rfl, ?_⟩
    rintro _ ⟨⟩
    exact hab.plain s hs
  · have hnone : ∃ found : Option String, (.ok none : Checked (Option String)) = .ok found ∧
        (.ok none : Checked (Option String)) = .ok found ∧ ∀ s, found = some s → r.Plain s :=
      ⟨none, rfl, rfl, fun _ h => (Option.some_ne_none _ h.symm).elim⟩
    have hsingle := h.single?_rel hab.type
    generalize a.type.single? = i? at hsingle ⊢
    generalize b.type.single? = j? at hsingle ⊢
    cases hsingle with
    | none => exact hnone
    | some hij =>
      obtain ⟨⟨kind, nullable⟩, ⟨kind', nullable'⟩, hi, hj, -, hkind⟩ := hij.types
      dsimp only
      rw [TypeTable.fetch_of_get? hi, TypeTable.fetch_of_get? hj]
      cases kind with
      | stringLiteral s =>
        cases kind' with
        | stringLiteral s' =>
          obtain rfl : s = s' := hkind
          refine ⟨some s, rfl, rfl, ?_⟩
          rintro _ ⟨⟩
          exact h.sound.fit _ _ hi
        | _ => exact hkind.elim
      | _ => cases kind' <;> first | exact hkind.elim | exact hnone

theorem DependentResult.tallies_compute (hdependent : r.dependent)
    (hargs : List.Forall₂ (CallArgument.Same r T T') args args') (d : DependentResult) :
    TypeM.Tallies T T' (Option.Rel (T.SameTypes T')) (d.compute args) (d.compute args') := by
  unfold compute
  have harg := forall₂_getElem? hargs d.index
  generalize args[d.index]? = a? at harg ⊢
  generalize args'[d.index]? = b? at harg ⊢
  cases harg with
  | none => exact .pure .none
  | @some a b hab =>
    obtain ⟨found, ha, hb, hplain⟩ := stringOf_eq h hab
    refine (TypeM.Tallies.query (A := fun x y => x = y ∧ x = found)
      ⟨found, found, ha, hb, rfl, rfl⟩).bind (by grind) fun x _ hx => ?_
    obtain ⟨rfl, rfl⟩ := hx
    cases x with
    | none => exact .pure .none
    | some s =>
      dsimp only
      split
      · exact .pure .none
      · next hguard =>
        simp only [Bool.or_eq_true, not_or, Bool.not_eq_true] at hguard
        obtain ⟨⟨hempty, hbar⟩, hname⟩ := hguard
        have hregular : (QualifiedName.ofFullName s).Regular := by
          rcases hplain s rfl h.strict hdependent with hs | hs | hs | hs
          · rw [hempty] at hs
            cases hs
          · rw [hbar] at hs
            cases hs
          · rw [hname] at hs
            cases hs
          · exact hs
        exact (TypeM.tallies_classType h ⟨rfl, hregular, hregular⟩).bind (by grind) fun i j hij =>
          .pure (.some (.of hij))

theorem Evaluator.tallies_bindArguments {sig : Signature} (hsig : sig.Sound r t₀)
    (hargs : List.Forall₂ (CallArgument.Same r T T') args args') :
    TypeM.Tallies T T' (T.SameMap T') (bindArguments sig args) (bindArguments sig args') := by
  unfold bindArguments
  refine TypeM.Tallies.foldlM_forall₂ (forall₂_zipIdx hargs 0) (by grind) (by grind)
    (fun m m' ⟨a, i⟩ ⟨b, j⟩ hab hm => ?_) TemplateMap.sameMap_nil
  obtain ⟨hab, hi⟩ := hab
  obtain rfl : i = j := hi
  dsimp only
  split
  · next p hp =>
    have hparam := h.sameTypes_self fun k hk =>
      (hsig.params p (Signature.mem_of_paramFor? hp) k hk).lt_size
    exact UnionType.tallies_bindTemplates h hparam hab.type hm
  · exact .pure hm

/-- A call has the same result on both sides. -/
theorem Evaluator.tallies_resultType (v : Evaluator) {sig : Signature} (hsig : sig.Sound r t₀)
    (hargs : List.Forall₂ (CallArgument.Same r T T') args args') {m m' : TemplateMap}
    (hm : T.SameMap T' m m') :
    TypeM.Tallies T T' (T.SameTypes T') (v.resultType sig args m) (v.resultType sig args' m') := by
  have hresult := h.sameTypes_self fun k hk => (hsig.result k hk).lt_size
  obtain ⟨names, hnames, -, -⟩ := UnionType.exists_templateNames hsig.result
  have hdeclared : TypeM.Tallies T T' (T.SameTypes T')
      (do
        let names ← TypeM.query sig.result.templateNames
        if names.isEmpty then return sig.result
        else
          let m₁ ← bindArguments sig args
          let foreign := names.filter fun name => !v.context.templates.contains name
          let m₁ := completeMap (completeMap m₁ m) (foreign.map fun name => (name, .empty))
          sig.result.substitute m₁)
      (do
        let names ← TypeM.query sig.result.templateNames
        if names.isEmpty then return sig.result
        else
          let m₁ ← bindArguments sig args'
          let foreign := names.filter fun name => !v.context.templates.contains name
          let m₁ := completeMap (completeMap m₁ m') (foreign.map fun name => (name, .empty))
          sig.result.substitute m₁) := by
    refine (TypeM.Tallies.query (A := Eq) ⟨names, names,
      (UnionType.lasting_templateNames ..).upholds h.keeps _ hnames,
      (UnionType.lasting_templateNames ..).upholds h.keeps' _ hnames, rfl⟩).bind (by grind)
        fun names _ hsame => ?_
    cases hsame
    split
    · exact .pure hresult
    · refine (tallies_bindArguments h hsig hargs).bind (by grind) fun m₁ m₁' hm₁ => ?_
      exact UnionType.tallies_substitute h hresult (TemplateMap.sameMap_completeMap
        (TemplateMap.sameMap_completeMap hm₁ hm) (TemplateMap.sameMap_unknown _))
  unfold resultType
  cases hd : sig.dependent with
  | none => exact hdeclared
  | some d =>
    refine (DependentResult.tallies_compute h (hsig.dependent (by simp [hd])) hargs d).bind
      (by grind) fun u? v? huv => ?_
    cases huv with
    | none => exact hdeclared
    | some huv => exact .pure huv

end

/-- What a call of a value of the type gives. -/
def Ty.ownResult (ty : Ty) : UnionType :=
  match ty.kind with
  | .callable sig => sig.result
  | _ => .empty

theorem Ty.Matches.ownResult {T T' : TypeTable} {ty ty' : Ty} (h : ty.Matches (T.Corresponds T') ty') :
    T.SameTypes T' ty.ownResult ty'.ownResult := by
  obtain ⟨kind, nullable⟩ := ty
  obtain ⟨kind', nullable'⟩ := ty'
  obtain ⟨-, hkind⟩ := h
  cases kind with
  | callable sig =>
    cases kind' with
    | callable sig' => exact hkind.2.2
    | _ => exact hkind.elim
  | _ => cases kind' <;> first | exact hkind.elim | exact .empty

theorem Outward.isOpaque :
    Outward fun ty => ty.isNative .object || ty.isNative .callable || ty.isTemplate :=
  ((isNative .object).comp₂ (isNative .callable) (· || ·)).comp₂ isTemplate (· || ·)

namespace Comparison

open AnalysisM TypeM

variable {r : Regime} {x : Comparison r} {u v : UnionType} {n : Node} {p q : ClassName}
  {args args' : List CallArgument}

theorem sameTypes_addNullIf (huv : x.left.SameTypes x.right u v) (skips : Bool) :
    x.left.SameTypes x.right (Evaluator.addNullIf skips u) (Evaluator.addNullIf skips v) := by
  unfold Evaluator.addNullIf
  rw [UnionType.Matches.isEmpty_eq huv]
  split
  · exact x.siblings.insert_native huv .null
  · exact huv

namespace Tallies

/-! ### Calls -/

theorem isOpaque (huv : x.left.SameTypes x.right u v) :
    x.Tallies Eq (Evaluator.isOpaque u) (Evaluator.isOpaque v) := any huv .isOpaque

/-- The results of the callable types among the types of a callee. -/
theorem calleeResult (huv : x.left.SameTypes x.right u v) :
    x.Tallies (x.left.SameTypes x.right) (Evaluator.calleeResult u) (Evaluator.calleeResult v) := by
  have hround (result : UnionType) (i : TypeId) : (do
      match (← AnalysisM.query fun t => t.fetch i).kind with
      | .callable sig => return result.union sig.result
      | _ => return result) =
      result.union <$> Ty.ownResult <$> AnalysisM.query fun t => t.fetch i := by
    simp only [map_eq_pure_bind, bind_assoc, pure_bind]
    refine bind_congr ?_
    rintro ⟨kind, nullable⟩
    cases kind <;> rfl
  exact foldlM_union hround hround huv (by grind) fun i _ j _ hij =>
    (fetch hij).map (by grind) fun ty ty' hty => hty.2.2.ownResult

theorem checkStaticCall (e : Evaluator) (he : e.context = x.context) {m m' : Method}
    (h : SameMethod r x.start.types m m') (line : Nat) :
    x.Tallies (fun _ _ => True) (e.checkStaticCall m line) (e.checkStaticCall m' line) := by
  unfold Evaluator.checkStaticCall
  rw [h.modifiers, he]
  split
  · exact pure trivial
  have hrest {asked asked' : AnalysisM Bool} (hasked : x.Tallies Eq asked asked')
      (hp : Repeats x.context x.setup asked) (hq : Repeats x.context x.setup asked') :
      x.Tallies (fun _ _ => True)
        (do if ← asked then return else
          e.failWith .staticCallToNonStatic line (accessArgs m.name.text m.location))
        (do if ← asked' then return else
          e.failWith .staticCallToNonStatic line (accessArgs m'.name.text m'.location)) := by
    refine hasked.bind (by grind) fun allowed _ hallowed => ?_
    cases hallowed
    split
    · exact pure trivial
    · exact fail _ _
  cases hhere : x.context.owner with
  | none => exact hrest (pure rfl) (.pure _) (.pure _)
  | some here =>
    dsimp only
    rw [show here.sameClass m'.name.owner = here.sameClass m.name.owner by
      rw [QualifiedName.sameClass, QualifiedName.sameClass, h.owner.same]]
    split
    · exact hrest (pure rfl) (.pure _) (.pure _)
    split
    · exact hrest (pure rfl) (.pure _) (.pure _)
    · exact hrest (isSubclassOf (sameRegular_owner hhere) h.owner.same) (by grind) (by grind)

/-! ### New objects -/

theorem literalClasses (huv : x.left.SameTypes x.right u v) :
    x.Tallies (Matched Eq) (Evaluator.literalClasses u) (Evaluator.literalClasses v) := by
  unfold Evaluator.literalClasses
  refine (mapM_matched (A := Eq) huv (by grind) fun i _ j _ hij => ?_).bind (by grind)
    fun names names' hnames => pure ?_
  · refine (fetch hij).bind (by grind) ?_
    rintro ⟨kind, nullable⟩ ⟨kind', nullable'⟩ ⟨-, -, -, hkind⟩
    cases kind with
    | stringLiteral s =>
      cases kind' with
      | stringLiteral s' => exact pure (congrArg (fun s => some (QualifiedName.ofFullName s)) hkind)
      | _ => exact hkind.elim
    | _ => cases kind' <;> first | exact hkind.elim | exact pure rfl
  · refine Matched.filterMap hnames fun a _ b _ hab => ?_
    cases hab
    cases a with
    | none => exact .none
    | some name => exact .some rfl

/-- The type of a new object has arguments on both sides, or on neither. -/
theorem typeOfObject (h : SameRegular p q) {m m' : TemplateMap} (hm : x.left.SameMap x.right m m')
    (names : List String) :
    x.Tallies (x.left.Corresponds x.right)
      (match Evaluator.templateArgs? m names with
        | some templateArgs => AnalysisM.types (classTypeWith p templateArgs)
        | none => AnalysisM.types (classType p))
      (match Evaluator.templateArgs? m' names with
        | some templateArgs => AnalysisM.types (classTypeWith q templateArgs)
        | none => AnalysisM.types (classType q)) := by
  have hargs := TemplateMap.templateArgs?_rel hm names
  generalize Evaluator.templateArgs? m names = us? at hargs ⊢
  generalize Evaluator.templateArgs? m' names = vs? at hargs ⊢
  cases hargs with
  | none => exact types (tallies_classType x.siblings h)
  | some huv => exact types (tallies_make x.siblings h huv false)

/-- What the arguments of the constructor tell of the placeholders of the class, if there is one. -/
theorem instantiate (e : Evaluator) (h : p.fold = q.fold) (how : Instantiation)
    (hargs : List.Forall₂ (CallArgument.Same r x.left x.right) args args') (line : Nat) :
    x.Tallies (x.left.Corresponds x.right) (e.instantiate p how args line)
      (e.instantiate q how args' line) := by
  unfold Evaluator.instantiate
  refine getClass h fun d hd => ?_
  have hsame : SameRegular p q :=
    ⟨h, regular_of_class? hd, regular_of_class? ((class?_eq h).symm.trans hd)⟩
  split
  · exact fail _ _
  split
  · exact fail _ _
  split
  · exact fail _ _
  split
  · exact types (tallies_classType x.siblings hsame)
  refine (findMethod h _ _).bind ⟨by grind, by grind,
    Evaluator.built_ofConstructor p args d.templates,
    Evaluator.built_ofConstructor q args' d.templates⟩ fun found found' hfound => ?_
  have hobject (p : ClassName) (m : TemplateMap) :
      Built (match Evaluator.templateArgs? m d.templates with
        | some templateArgs => AnalysisM.types (classTypeWith p templateArgs)
        | none => AnalysisM.types (classType p)) := by
    split <;> grind
  cases hfound with
  | found hm =>
    dsimp only
    rw [hm.signature]
    exact (types (Evaluator.tallies_bindArguments x.siblings hm.sound hargs)).bind
      ⟨by grind, by grind, hobject p, hobject q⟩ fun m m' hm => typeOfObject hsame hm d.templates
  | _ =>
    exact Tallies.bind (pure (A := x.left.SameMap x.right) TemplateMap.sameMap_nil)
      ⟨by grind, by grind, hobject p, hobject q⟩ fun m m' hm => typeOfObject hsame hm d.templates

theorem newByName (e : Evaluator) (he : e.context = x.context) {name : Node} (hname : name.Fits r)
    (hkind : name.kind = .name)
    (hargs : List.Forall₂ (CallArgument.Same r x.left x.right) args args') :
    x.Tallies (x.left.SameTypes x.right) (e.newByName n name args) (e.newByName n name args') := by
  unfold Evaluator.newByName
  rw [he]
  refine (classOfName hname hkind).bind (by grind) fun p q hpq => ?_
  obtain ⟨rfl, -⟩ := hpq
  refine (hasClass rfl).bind (by grind) fun known _ hknown => ?_
  obtain ⟨rfl, -⟩ := hknown
  split
  · exact fail _ _
  split
  · exact (instantiate e rfl .static hargs n.line).bind (by grind) fun _ _ _ =>
      pure (x.siblings.sameTypes_native .static)
  · exact (instantiate e rfl .named hargs n.line).bind (by grind) fun _ _ hij => pure (.of hij)

end Tallies

end Comparison

end UnionInference
