import UnionInference.Proofs.Analysis.ComparedNames

/-!
Operators and arrays in evaluations that are compared. Both sides make the same of operands whose types
correspond, see the same elements in an array literal, and find the same under an index.
-/

namespace UnionInference

open TypeM (SameRegular)

namespace Outward

theorem isWhole : Outward Evaluator.isWhole := fun ⟨kind, _⟩ => by cases kind <;> rfl

theorem castable (lenient : Bool) :
    Outward fun ty => lenient && (ty.isNative .float || ty.isBoolLike || ty.isNative .null) :=
  (((isNative .float).comp₂ isBoolLike (· || ·)).comp₂ (isNative .null) (· || ·)).comp (lenient && ·)

theorem acceptsIndex (lenient : Bool) (kind : KeyKind) :
    Outward (Evaluator.acceptsIndex lenient kind) := by
  have hcastable := castable lenient
  cases kind with
  | int =>
    exact (isWhole.comp₂ hcastable (· || ·)).comp₂ (isStringLike.comp (lenient && ·)) (· || ·)
  | string =>
    exact (isStringLike.comp₂ hcastable (· || ·)).comp₂ (isIntLike.comp (lenient && ·)) (· || ·)
  | mixed => exact (isIntLike.comp₂ isStringLike (· || ·)).comp₂ hcastable (· || ·)

theorem acceptsOffset (lenient : Bool) : Outward (Evaluator.acceptsOffset lenient) :=
  isWhole.comp₂ ((((isNative .float).comp₂ isBoolLike (· || ·)).comp₂ isStringLike (· || ·)).comp
    (lenient && ·)) (· || ·)

end Outward

/-! ### The classes of types -/

section

open TypeTable (Siblings)

variable {T T' t₀ : TypeTable} {r : Regime} {u v : UnionType} {i j : TypeId}

theorem UnionType.classNames_eq (hu : ∀ i ∈ u.members, i < T.size) :
    u.classNames T = .ok (distinctClasses ((u.typesIn T).filterMap Ty.className?)) := by
  rw [UnionType.typesIn, distinctClasses, classNames]
  generalize ([] : List ClassName) = names
  generalize u.members = ids at hu ⊢
  induction ids generalizing names with
  | nil => rfl
  | cons i ids ih =>
    rw [List.forall_mem_cons] at hu
    obtain ⟨ty, hty⟩ := TypeTable.exists_get? hu.1
    rw [List.foldlM_cons, TypeTable.fetch_of_get? hty, List.filterMap_cons_some hty]
    cases hclass : ty.className? with
    | none =>
      rw [List.filterMap_cons_none hclass, ← ih _ hu.2]
      simp [bind, Except.bind, hclass, pure, Except.pure]
    | some name =>
      rw [List.filterMap_cons_some hclass, List.foldl_cons, ← ih _ hu.2]
      simp [bind, Except.bind, hclass, pure, Except.pure]

/-- The class of a type in a sound table has a regular name. -/
theorem TypeTable.Siblings.regular_className? (h : Siblings r t₀ T T') {ty : Ty}
    (hi : T.get? i = some ty) {p : ClassName} (hp : ty.className? = some p) : p.Regular := by
  obtain ⟨kind, nullable⟩ := ty
  cases kind with
  | object name args =>
    cases hp
    exact (h.sound.fit i _ hi).2 (.inl h.strict)
  | callable sig =>
    rw [Ty.className?] at hp
    dsimp only at hp
    split at hp
    · cases hp
      exact ⟨⟨["Closure".toList], by decide, by decide, by decide⟩,
        by unfold QualifiedName.Divided; decide⟩
    · cases hp
  | _ => cases hp

/-- Types that correspond have one class, if any. -/
theorem TypeTable.Siblings.className?_rel (h : Siblings r t₀ T T') (hij : T.Corresponds T' i j) :
    Option.Rel SameRegular ((T.get? i).bind Ty.className?) ((T'.get? j).bind Ty.className?) := by
  obtain ⟨ty, ty', hty, hty', hmatch⟩ := hij.types
  rw [hty, hty', Option.bind_some, Option.bind_some]
  have hrel := TypeTable.className?_rel hmatch
  have hleft := fun p => h.regular_className? (p := p) hty
  have hright := fun p => h.flip.regular_className? (p := p) hty'
  generalize ty.className? = p? at hrel hleft ⊢
  generalize ty'.className? = q? at hrel hright ⊢
  cases hrel with
  | none => exact .none
  | some hpq => exact .some ⟨hpq, hleft _ rfl, hright _ rfl⟩

/-- The classes of unions of the same types. -/
theorem TypeTable.Siblings.classNames (h : Siblings r t₀ T T') (huv : T.SameTypes T' u v) :
    ∃ a b, u.classNames T = .ok a ∧ v.classNames T' = .ok b ∧ Matched SameRegular a b := by
  refine ⟨_, _, UnionType.classNames_eq huv.lt_size, UnionType.classNames_eq huv.flip.lt_size,
    UnionType.matched_foldl_addClass .nil ?_⟩
  rw [UnionType.typesIn, UnionType.typesIn, List.filterMap_filterMap, List.filterMap_filterMap]
  exact Matched.filterMap huv fun i _ j _ hij => h.className?_rel hij

end

/-! ### The elements of an array literal -/

/-- Both have seen the same elements, each in its own table; the integers among the keys have 64 bits.
-/
structure LiteralKeys.Same (T T' : TypeTable) (k k' : LiteralKeys) : Prop where
  fields : List.Forall₂ (fun f g => ShapeField.Matches (T.Corresponds T') f g ∧ f.1.Bounded)
    k.fields k'.fields
  values : T.SameTypes T' k.values k'.values
  keyKind : k.keyKind = k'.keyKind
  next : k.next = k'.next
  isShape : k.isShape = k'.isShape
  isInteger : Text.isInteger k.next = true

namespace LiteralKeys.Same

variable {T T' t₀ : TypeTable} {r : Regime} {k k' : LiteralKeys} {u v : UnionType}

theorem start : Same T T' {} {} := ⟨.nil, .empty, rfl, rfl, rfl, by decide⟩

theorem addSpread (h : Same T T' k k') (kind : KeyKind) (huv : T.SameTypes T' u v) :
    Same T T' (k.addSpread kind u) (k'.addSpread kind v) :=
  ⟨h.fields, h.values.union huv, by rw [LiteralKeys.addSpread, LiteralKeys.addSpread, addKind,
    addKind, h.keyKind], h.next, rfl, h.isInteger⟩

variable (hs : TypeTable.Siblings r t₀ T T')
include hs

theorem addUnknown (h : Same T T' k k') (kind : KeyKind) (huv : T.SameTypes T' u v) :
    Same T T' (k.addUnknown kind u) (k'.addUnknown kind v) :=
  ⟨h.fields, h.values.union (hs.orMixed huv), by rw [LiteralKeys.addUnknown, LiteralKeys.addUnknown,
    addKind, addKind, h.keyKind], h.next, rfl, h.isInteger⟩

theorem addKnown (h : Same T T' k k') {key : ShapeKey} (hkey : key.Bounded)
    (huv : T.SameTypes T' u v) : Same T T' (k.addKnown key u) (k'.addKnown key v) := by
  have hfound := TypeTable.get?_rel (h.fields.imp fun _ _ => And.left) key
  refine ⟨?_, h.values.union (hs.orMixed huv), ?_, ?_, ?_, ?_⟩
  · exact ShapeFields.forall₂_insert (f := (key, _)) (g := (key, _)) (fun _ _ h => h.1.1) h.fields
      ⟨⟨rfl, rfl, hs.orMixed huv⟩, hkey⟩
  · show (k.addKind key.kind).keyKind = (k'.addKind key.kind).keyKind
    rw [addKind, addKind, h.keyKind]
  · cases key with
    | str x => exact h.next
    | int i => exact congrArg (max · (Text.clampInteger (i + 1))) h.next
  · show (k.isShape && (ShapeFields.get? k.fields key).isNone) =
      (k'.isShape && (ShapeFields.get? k'.fields key).isNone)
    rw [h.isShape]
    generalize ShapeFields.get? k.fields key = found at hfound ⊢
    generalize ShapeFields.get? k'.fields key = found' at hfound ⊢
    cases hfound with
    | none => rfl
    | some _ => rfl
  · cases key with
    | str x => exact h.isInteger
    | int i =>
      show Text.isInteger (max k.next (Text.clampInteger (i + 1))) = true
      rw [Int.max_def]
      split
      · exact isInteger_clampInteger _
      · exact h.isInteger

/-- Both literals have one type. -/
theorem tallies_shape (h : Same T T' k k') : TypeM.Tallies T T' (T.Corresponds T')
    (TypeM.intern (.shape k.fields) false) (TypeM.intern (.shape k'.fields) false) := by
  refine TypeM.tallies_intern hs (a := .shape k.fields) (b := .shape k'.fields) (fun f hf => ?_)
    (fun g hg i hi => ?_) (h.fields.imp fun _ _ => And.left) false
  · obtain ⟨g, -, -, hbound⟩ := (Matched.of_forall₂ h.fields).forth f hf
    exact hbound
  · obtain ⟨f, -, hfg, hbound⟩ := (Matched.of_forall₂ h.fields).back g hg
    exact hbound i (hfg.1.trans hi)

end LiteralKeys.Same

/-- What shapes hold under a key that is known, or in any of their fields. -/
def Evaluator.valuesUnder (v : Evaluator) (n : Node) (base nonNull : UnionType) (others : Bool)
    (key : Option ShapeKey) : AnalysisM UnionType := do
  match key with
  | some key =>
    match ← AnalysisM.query fun t => nonNull.shapeField? t key with
    | some found => return found
    | none =>
      if !others && !(← AnalysisM.query nonNull.hasStringLike) then
        v.failWith .typeInvalidDimOffset n.line [key.text, ← AnalysisM.display base]
      else return .empty
  | none => AnalysisM.query fun t => do (← nonNull.filterMembers t Ty.isShape).elementTypes t

@[grind ←]
theorem Evaluator.built_valuesUnder (v : Evaluator) (n : Node) (base nonNull : UnionType)
    (others : Bool) (key : Option ShapeKey) :
    AnalysisM.Built (v.valuesUnder n base nonNull others key) := by
  unfold valuesUnder
  cases key <;> grind

namespace Comparison

open AnalysisM TypeM

variable {r : Regime} {x : Comparison r} {α β : Type} {u v u' v' : UnionType} {i j : TypeId}
  {n : Node} {child : Child}

/-- Both index by the same child, of the same types, or neither has an index. -/
def SameIndex (x : Comparison r) (index index' : Option (Child × UnionType)) : Prop :=
  Option.Rel (fun a b => a.1 = b.1 ∧ a.1.Fits r ∧ x.left.SameTypes x.right a.2 b.2) index index'

theorem sameTypes_numeric : x.left.SameTypes x.right Evaluator.numeric Evaluator.numeric :=
  .ofList (.of_forall₂ (.cons (x.siblings.native .int) (.cons (x.siblings.native .float) .nil)))

namespace Tallies

/-! ### Operators -/

theorem isArray (huv : x.left.SameTypes x.right u v) :
    x.Tallies Eq (Evaluator.isArray u) (Evaluator.isArray v) :=
  (all huv (Outward.isArrayLike.comp₂ (.isNative .null) (· || ·))).andM (by grind)
    (pure (congrArg not (x.siblings.isOnly_native_eq huv .null)))

theorem isScalar (huv : x.left.SameTypes x.right u v) :
    x.Tallies Eq (Evaluator.isScalar u) (Evaluator.isScalar v) :=
  (all huv .isScalar).andM (by grind) (pure (congrArg not (x.siblings.isOnly_native_eq huv .null)))

theorem withoutNull (huv : x.left.SameTypes x.right u v) :
    x.Tallies (x.left.SameTypes x.right) (AnalysisM.types u.withoutNull)
      (AnalysisM.types v.withoutNull) :=
  types (UnionType.tallies_withoutNull x.siblings huv)

theorem checkComparison (e : Evaluator) (op : BinaryOp) (huv : x.left.SameTypes x.right u v)
    (huv' : x.left.SameTypes x.right u' v') :
    x.Tallies (fun _ _ => True) (e.checkComparison n op u u') (e.checkComparison n op v v') := by
  unfold Evaluator.checkComparison
  split
  · exact pure trivial
  refine ((isArray huv).andM (by grind) (isScalar huv')).bind (by grind) fun from? _ h => ?_
  cases h
  split
  · exact (display _ _).bind (by grind) fun _ _ _ => emit _ _
  refine ((isScalar huv).andM (by grind) (isArray huv')).bind (by grind) fun to? _ h => ?_
  cases h
  split
  · exact (display _ _).bind (by grind) fun _ _ _ => emit _ _
  · exact pure trivial

theorem bitwiseType (huv : x.left.SameTypes x.right u v) :
    x.Tallies (x.left.SameTypes x.right) (Evaluator.bitwiseType u) (Evaluator.bitwiseType v) := by
  have hint := x.siblings.sameTypes_native .int
  have hstring := x.siblings.sameTypes_native .string
  unfold Evaluator.bitwiseType
  rw [UnionType.Matches.isEmpty_eq huv, x.siblings.hasMixed_eq huv]
  split
  · exact pure (.ofList (.of_forall₂ (.cons (x.siblings.native .int)
      (.cons (x.siblings.native .string) .nil))))
  refine (withoutNull huv).bind (by grind) fun a b hab => ?_
  refine (any hab .isStringLike).bind (by grind) fun some? _ h => ?_
  cases h
  have hstrings : x.left.SameTypes x.right (if some? then UnionType.native .string else .empty)
      (if some? then UnionType.native .string else .empty) := by
    split
    · exact hstring
    · exact .empty
  generalize (if some? then UnionType.native .string else .empty) = strings at hstrings
  refine (all hab .isStringLike).bind (by grind) fun all? _ h => ?_
  cases h
  rw [UnionType.Matches.isEmpty_eq hab]
  split
  · exact pure (x.siblings.insert_native hstrings .int)
  · exact pure hstrings

theorem arithmeticType (e : Evaluator) (op : BinaryOp) (huv : x.left.SameTypes x.right u v)
    (huv' : x.left.SameTypes x.right u' v') :
    x.Tallies (x.left.SameTypes x.right) (e.arithmeticType n op u u')
      (e.arithmeticType n op v v') := by
  unfold Evaluator.arithmeticType
  refine (isArray huv).bind (by grind) fun first _ h => ?_
  cases h
  refine (isArray huv').bind (by grind) fun second _ h => ?_
  cases h
  split
  · refine (withoutNull huv).bind (by grind) fun a b hab => ?_
    exact (withoutNull huv').bind (by grind) fun a' b' hab' => pure (hab.union hab')
  split
  · exact (display _ _).bind (by grind) fun _ _ _ => (display _ _).bind (by grind)
      fun _ _ _ => fail _ _
  split
  · exact pure (x.siblings.sameTypes_native .int)
  refine ((all huv .isIntLike).andM (by grind) (all huv' .isIntLike)).bind (by grind)
      fun whole _ h => ?_
  cases h
  split
  · refine pure ?_
    split
    · exact sameTypes_numeric
    · exact x.siblings.sameTypes_native .int
  refine ((all huv (.isNative .float)).orM (by grind) (all huv' (.isNative .float))).bind (by grind)
      fun float _ h => ?_
  cases h
  split
  · exact pure (x.siblings.sameTypes_native .float)
  · exact pure sameTypes_numeric

theorem operationType (e : Evaluator) (op : BinaryOp) (huv : x.left.SameTypes x.right u v)
    (huv' : x.left.SameTypes x.right u' v') :
    x.Tallies (x.left.SameTypes x.right) (e.operationType n op u u')
      (e.operationType n op v v') := by
  have hnative (k : NativeKind) : x.Tallies (x.left.SameTypes x.right)
      (Pure.pure (UnionType.native k)) (Pure.pure (UnionType.native k)) :=
    pure (x.siblings.sameTypes_native k)
  have hother : x.Tallies (x.left.SameTypes x.right)
      (do
        if op.isComparison then
          e.checkComparison n op u u'
          return .native .bool
        else e.arithmeticType n op u u')
      (do
        if op.isComparison then
          e.checkComparison n op v v'
          return .native .bool
        else e.arithmeticType n op v v') := by
    split
    · exact (checkComparison e op huv huv').bind (by grind) fun _ _ _ => hnative .bool
    · exact arithmeticType e op huv huv'
  unfold Evaluator.operationType
  cases op with
  | concat => exact hnative .string
  | boolAnd | boolOr | boolXor => exact hnative .bool
  | spaceship | shiftLeft | shiftRight => exact hnative .int
  | bitwiseAnd | bitwiseOr | bitwiseXor => exact bitwiseType huv
  | _ => exact hother

theorem intValue? (huv : x.left.SameTypes x.right u v) :
    x.Tallies (fun a b => a = b) (Evaluator.intValue? u)
      (Evaluator.intValue? v) := by
  unfold Evaluator.intValue?
  have hsingle := x.siblings.single?_rel huv
  generalize u.single? = i? at hsingle ⊢
  generalize v.single? = j? at hsingle ⊢
  cases hsingle with
  | none => exact pure rfl
  | some hij =>
    refine (fetch hij).bind (by grind)
        fun ⟨kind, nullable⟩ ⟨kind', nullable'⟩ ⟨_, _, _, hkind⟩ => ?_
    cases kind with
    | intLiteral i =>
      cases kind' with
      | intLiteral j => exact pure (congrArg some hkind)
      | _ => exact hkind.elim
    | _ => cases kind' <;> first | exact hkind.elim | exact pure rfl

theorem signedType (op : UnaryOp) (huv : x.left.SameTypes x.right u v) :
    x.Tallies (x.left.SameTypes x.right) (Evaluator.signedType op u)
      (Evaluator.signedType op v) := by
  have hliteral (k : Int) : x.Tallies (x.left.SameTypes x.right)
      (do return .of (← AnalysisM.types (intern (.intLiteral k) false)))
      (do return .of (← AnalysisM.types (intern (.intLiteral k) false))) :=
    (types (tallies_intern x.siblings (a := .intLiteral k) (b := .intLiteral k) trivial trivial rfl
      false)).bind (by grind) fun _ _ hij => pure (UnionType.Matches.of hij)
  unfold Evaluator.signedType
  refine (intValue? huv).bind (by grind) fun found _ h => ?_
  cases h
  cases found with
  | some value =>
    dsimp only
    generalize (if op = .minus then -value else value) = signed
    split
    · exact hliteral signed
    · exact pure (x.siblings.sameTypes_native .float)
  | none =>
    refine (all huv .isIntLike).bind (by grind) fun whole _ h => ?_
    cases h
    split
    · exact pure (x.siblings.sameTypes_native .int)
    refine (all huv (.isNative .float)).bind (by grind) fun float _ h => ?_
    cases h
    split
    · exact pure (x.siblings.sameTypes_native .float)
    · exact pure sameTypes_numeric

/-! ### Keys -/

/-- The key that a child stands for is one on both sides, and has at most 64 bits. -/
theorem literalKey (hchild : child.Fits r) (huv : x.left.SameTypes x.right u v) :
    x.Tallies (fun k k' => k = k' ∧ ∀ key, k = some key → key.Bounded)
      (Evaluator.literalKey child u) (Evaluator.literalKey child v) := by
  have hs := x.siblings.strict
  refine options.bind (by cases child <;> grind) fun o _ h => ?_
  cases h
  have hnone : x.Tallies (fun k k' => k = k' ∧ ∀ key, k = some key → ShapeKey.Bounded key)
      (Pure.pure none) (Pure.pure none) :=
    pure ⟨rfl, fun _ h => (Option.some_ne_none _ h.symm).elim⟩
  have hsome {key : ShapeKey} (hkey : key.Bounded) :
      x.Tallies (fun k k' => k = k' ∧ ∀ key, k = some key → ShapeKey.Bounded key)
        (Pure.pure (some key)) (Pure.pure (some key)) :=
    pure ⟨rfl, fun _ h => Option.some.inj h ▸ hkey⟩
  cases child with
  | int n =>
    refine hsome fun j hj => ?_
    cases hj
    exact hchild.accepts hs
  | str s => exact hsome (ShapeKey.bounded_ofText s)
  | float bits =>
    dsimp only
    split
    · refine hsome fun j hj => ?_
      cases hj
      exact isInteger_clampInteger _
    · exact hnone
  | bool b =>
    dsimp only
    split
    · refine hsome fun j hj => ?_
      cases hj
      cases b <;> decide
    · exact hnone
  | null =>
    dsimp only
    split
    · refine hsome ?_
      rintro _ ⟨⟩
    · exact hnone
  | node m =>
    dsimp only
    have hsingle := x.siblings.single?_rel huv
    generalize u.single? = i? at hsingle ⊢
    generalize v.single? = j? at hsingle ⊢
    cases hsingle with
    | none => exact hnone
    | some hij =>
      refine (fetch hij).bind (by grind) ?_
      rintro ⟨kind, nullable⟩ ⟨kind', nullable'⟩ ⟨hi, -, -, hkind⟩
      cases kind with
      | intLiteral n =>
        cases kind' with
        | intLiteral n' =>
          obtain rfl : n = n' := hkind
          refine hsome fun j hj => ?_
          cases hj
          exact x.siblings.sound.fit _ _ hi hs
        | _ => exact hkind.elim
      | stringLiteral s =>
        cases kind' with
        | stringLiteral s' =>
          obtain rfl : s = s' := hkind
          exact hsome (ShapeKey.bounded_ofText s)
        | _ => exact hkind.elim
      | _ => cases kind' <;> first | exact hkind.elim | exact hnone

theorem keyKindOf (huv : x.left.SameTypes x.right u v) :
    x.Tallies Eq (Evaluator.keyKindOf u) (Evaluator.keyKindOf v) := by
  unfold Evaluator.keyKindOf
  refine (all huv .isIntLike).bind (by grind) fun whole _ h => ?_
  cases h
  split
  · exact pure rfl
  refine (all huv .isStringLike).bind (by grind) fun text _ h => ?_
  cases h
  split
  · exact pure rfl
  · exact pure rfl

/-! ### Indexing -/

theorem hasArrayAccess (huv : x.left.SameTypes x.right u v) :
    x.Tallies Eq (Evaluator.hasArrayAccess u) (Evaluator.hasArrayAccess v) := by
  unfold Evaluator.hasArrayAccess
  refine (query (x.siblings.classNames huv)).bind (by grind) fun names names' hnames => ?_
  -- whether a class has an ancestor is always answered
  have hanswer {T : TypeTable} (hT : T.Canonical) (p q : ClassName) :
      ¬ AnalysisM.Yields x.context x.setup x.start T (do
        if p.sameClass q then return true
        else
          let type ← AnalysisM.types (classType p)
          hierarchy ((UnionType.of type).hasAncestor q)) none := by
    intro h
    split at h
    · cases h.pure_eq
    · rcases h.bind_inv (Repeats.types (recurs_classType p)).proceeds (by grind) with
        ⟨i, -, h⟩ | ⟨h, -⟩
      · exact Yields.hasAncestor_ne hT h
      · obtain ⟨_, ⟨⟩, -⟩ := h.types_inv (recurs_classType p) hT
  refine anyM_matched hnames (by grind) (fun p _ q _ hpq => ?_)
    (fun p _ => hanswer x.siblings.canonical p _) fun q _ => hanswer x.siblings.canonical' q _
  rw [QualifiedName.sameClass, QualifiedName.sameClass, hpq.same]
  split
  · exact pure rfl
  · exact (types (tallies_classType x.siblings hpq)).bind (by grind)
      fun i j hij => hasAncestor hij rfl

theorem checkStringOffset (e : Evaluator) (huv' : x.left.SameTypes x.right u' v') :
    x.Tallies (fun _ _ => True) (e.checkStringOffset n u u') (e.checkStringOffset n v v') := by
  unfold Evaluator.checkStringOffset
  refine options.bind (by grind) fun o _ h => ?_
  cases h
  refine (withoutNull huv').bind (by grind) fun a b hab => ?_
  rw [UnionType.Matches.isEmpty_eq hab]
  split
  · exact pure trivial
  refine (any hab (.acceptsOffset _)).bind (by grind) fun fits _ h => ?_
  cases h
  split
  · exact pure trivial
  · exact (display _ _).bind (by grind) fun _ _ _ => (display _ _).bind (by grind)
      fun _ _ _ => emit _ _

theorem checkKey (e : Evaluator) (huv' : x.left.SameTypes x.right u' v') (kind : KeyKind) :
    x.Tallies (fun _ _ => True) (e.checkKey n u u' kind) (e.checkKey n v v' kind) := by
  have hreport (k : IssueKind) (a b a' b' c : UnionType) : x.Tallies (fun _ _ => True)
      (do e.report k n.line [← AnalysisM.display a, ← AnalysisM.display b, ← AnalysisM.display c])
      (do
        e.report k n.line
          [← AnalysisM.display a', ← AnalysisM.display b', ← AnalysisM.display c]) :=
    (display _ _).bind (by grind) fun _ _ _ => (display _ _).bind (by grind)
      fun _ _ _ => (display _ _).bind
      (by grind) fun _ _ _ => emit _ _
  unfold Evaluator.checkKey
  refine options.bind (by grind) fun o _ h => ?_
  cases h
  refine (withoutNull huv').bind (by grind) fun a b hab => ?_
  rw [UnionType.Matches.isEmpty_eq hab]
  split
  · exact pure trivial
  refine (any hab (.acceptsIndex _ _)).bind (by grind) fun fits _ h => ?_
  cases h
  split
  · exact hreport _ _ _ _ _ _
  refine ((any huv' .admitsNull).andM (by grind) (pure rfl)).bind (by grind) fun null _ h => ?_
  cases h
  split
  · exact hreport _ _ _ _ _ _
  · exact pure trivial

theorem checkIndex (e : Evaluator) {w w' : UnionType}
    (hww : x.left.SameTypes x.right w w') (huv' : x.left.SameTypes x.right u' v') :
    x.Tallies (fun _ _ => True) (e.checkIndex n u w u') (e.checkIndex n v w' v') := by
  unfold Evaluator.checkIndex
  rw [UnionType.Matches.isEmpty_eq huv', x.siblings.hasMixed_eq huv']
  split
  · exact pure trivial
  refine (any huv' .isTemplate).bind (by grind) fun open? _ h => ?_
  cases h
  split
  · exact pure trivial
  obtain ⟨k, hk, hk'⟩ := hww.keyKind_eq
  refine (query ⟨k, k, hk, hk', rfl⟩).bind (by grind) fun kind _ h => ?_
  cases h
  cases kind with
  | some kind => exact checkKey e huv' kind
  | none =>
    refine (any hww .isStringLike).bind (by grind) fun text _ h => ?_
    cases h
    split
    · exact checkStringOffset e huv'
    · exact pure trivial

theorem valuesUnder (e : Evaluator) (huv : x.left.SameTypes x.right u v) (others : Bool)
    (key : Option ShapeKey) (w w' : UnionType) :
    x.Tallies (x.left.SameTypes x.right) (e.valuesUnder n w u others key)
      (e.valuesUnder n w' v others key) := by
  unfold Evaluator.valuesUnder
  cases key with
  | some key =>
    refine (query (huv.shapeField? key)).bind (by grind) fun found found' hfound => ?_
    cases hfound with
    | some h => exact pure h
    | none =>
      refine (any huv .isStringLike).bind (by grind) fun text _ h => ?_
      cases h
      split
      · exact (display _ _).bind (by grind) fun _ _ _ => fail _ _
      · exact pure .empty
  | none =>
    obtain ⟨a, b, ha, hb, hab⟩ := huv.filterMembers .isShape
    obtain ⟨c, d, hc, hd, hcd⟩ := x.siblings.elementTypes hab
    refine query ⟨c, d, ?_, ?_, hcd⟩
    · rw [ha]
      exact hc
    · rw [hb]
      exact hd

theorem indexShapes (e : Evaluator) (huv : x.left.SameTypes x.right u v)
    {index index' : Option (Child × UnionType)} (hindex : x.SameIndex index index')
    (w w' : UnionType) :
    x.Tallies (x.left.SameTypes x.right) (e.indexShapes n w u index)
      (e.indexShapes n w' v index') := by
  unfold Evaluator.indexShapes
  have hjoin {others : Bool} {p p' : AnalysisM (Option ShapeKey)} (h : x.Tallies Eq p p')
      (hp : Repeats x.context x.setup p) (hp' : Repeats x.context x.setup p') :
      x.Tallies (x.left.SameTypes x.right) (p >>= e.valuesUnder n w u others)
        (p' >>= e.valuesUnder n w' v others) :=
    h.bind ⟨by grind, by grind, e.built_valuesUnder n w u others, e.built_valuesUnder n w' v others⟩
      fun key _ h => h ▸ valuesUnder e huv others key w w'
  refine (query (A := Eq) ?_).bind ⟨by grind, by grind, fun others => ?_, fun others => ?_⟩
    fun others _ h => ?_
  · obtain ⟨a, b, ha, hb, hab⟩ := huv.filterMembers (Outward.isShape.comp not)
    obtain ⟨some?, hsome, hsome'⟩ := hab.anyMember_eq .isArrayLike
    refine ⟨some?, some?, ?_, ?_, rfl⟩
    · rw [UnionType.withoutShapes, ha]
      exact hsome
    · rw [UnionType.withoutShapes, hb]
      exact hsome'
  · rcases index with _ | ⟨child, type⟩
    · exact .bind (.pure none) (e.built_valuesUnder n w u others)
    · exact .bind (Evaluator.built_literalKey child type) (e.built_valuesUnder n w u others)
  · rcases index' with _ | ⟨child, type⟩
    · exact .bind (.pure none) (e.built_valuesUnder n w' v others)
    · exact .bind (Evaluator.built_literalKey child type) (e.built_valuesUnder n w' v others)
  · cases h
    cases hindex with
    | none => exact hjoin (pure rfl) (.pure _) (.pure _)
    | @some a b h =>
      obtain ⟨child, type⟩ := a
      obtain ⟨child', type'⟩ := b
      obtain ⟨rfl, hfits, htypes⟩ := h
      exact hjoin ((literalKey hfits htypes).imp fun _ _ h => h.1)
        (Evaluator.repeats_literalKey _ _) (Evaluator.repeats_literalKey _ _)

theorem valuesOfShapes (e : Evaluator) (huv : x.left.SameTypes x.right u v)
    {index index' : Option (Child × UnionType)} (hindex : x.SameIndex index index')
    (w w' : UnionType)
    (hasShape : Bool) :
    x.Tallies (x.left.SameTypes x.right) (e.valuesOfShapes n w u index hasShape)
      (e.valuesOfShapes n w' v index' hasShape) := by
  unfold Evaluator.valuesOfShapes
  split
  · exact indexShapes e huv hindex w w'
  · exact pure .empty

theorem valuesOfArrays (huv : x.left.SameTypes x.right u v) (hasArray : Bool) :
    x.Tallies (x.left.SameTypes x.right) (Evaluator.valuesOfArrays u hasArray)
      (Evaluator.valuesOfArrays v hasArray) := by
  unfold Evaluator.valuesOfArrays
  split
  · exact query (x.siblings.elementTypes huv)
  · exact pure .empty

theorem reportNull (e : Evaluator) (huv : x.left.SameTypes x.right u v) (w w' : UnionType) :
    x.Tallies (fun _ _ => True) (e.reportNull n u w) (e.reportNull n v w') := by
  unfold Evaluator.reportNull
  refine ((any huv .admitsNull).andM (by grind)
    (pure (congrArg not (x.siblings.hasMixed_eq huv)))).bind (by grind) fun null _ h => ?_
  cases h
  split
  · exact (display _ _).bind (by grind) fun _ _ _ => emit _ _
  · exact pure trivial

theorem checkIndex? (e : Evaluator) (huv : x.left.SameTypes x.right u v)
    {index index' : Option (Child × UnionType)} (hindex : x.SameIndex index index')
    (w w' : UnionType) :
    x.Tallies (fun _ _ => True) (e.checkIndex? n w u index) (e.checkIndex? n w' v index') := by
  cases hindex with
  | none => exact pure trivial
  | some h => exact checkIndex e huv h.2.2

theorem dimKnown (e : Evaluator) (huv : x.left.SameTypes x.right u v)
    {index index' : Option (Child × UnionType)} (hindex : x.SameIndex index index') :
    x.Tallies (x.left.SameTypes x.right) (e.dimKnown n u index) (e.dimKnown n v index') := by
  unfold Evaluator.dimKnown
  refine (withoutNull huv).bind ⟨by grind, by grind,
    fun a => (Built.query _).bind fun _ => (e.built_valuesOfShapes n u a index _).bind (by grind),
    fun b => (Built.query _).bind fun _ => (e.built_valuesOfShapes n v b index' _).bind (by grind)⟩
    fun a b hab => ?_
  refine (any hab .isShape).bind ⟨by grind, by grind,
    fun _ => (e.built_valuesOfShapes n u a index _).bind (by grind),
    fun _ => (e.built_valuesOfShapes n v b index' _).bind (by grind)⟩ fun hasShape _ h => ?_
  cases h
  refine (valuesOfShapes e hab hindex u v hasShape).bind (by grind) fun shapes shapes' hshapes => ?_
  refine (query (hab.filterMembers (Outward.isShape.comp not))).bind (by grind)
      fun others others' hothers => ?_
  refine ((any hothers .isArrayLike).orM (by grind) (pure (x.siblings.hasMixed_eq hothers))).bind
    (by grind) fun hasArray _ h => ?_
  cases h
  refine (valuesOfArrays hothers hasArray).bind (by grind) fun arrays arrays' harrays => ?_
  refine (any hab .isStringLike).bind (by grind) fun hasString _ h => ?_
  cases h
  refine ((any hab .isTemplate).orM (by grind) (hasArrayAccess hab)).bind (by grind)
      fun hasObject _ h => ?_
  cases h
  split
  · exact (display _ _).bind (by grind) fun _ _ _ => fail _ _
  refine (reportNull e huv a b).bind (by grind) fun _ _ _ => ?_
  refine (checkIndex? e hab hindex u v).bind (by grind) fun _ _ _ => pure ?_
  have hboth : x.left.SameTypes x.right ((UnionType.empty.union shapes).union arrays)
      ((UnionType.empty.union shapes').union arrays') :=
    (UnionType.Matches.empty.union hshapes).union harrays
  unfold Evaluator.dimResult
  cases hasString with
  | true =>
    have hstring := x.siblings.insert_native hboth .string
    cases hasObject with
    | true => exact x.siblings.insert_native hstring .mixed
    | false => exact hstring
  | false =>
    cases hasObject with
    | true => exact x.siblings.insert_native hboth .mixed
    | false => exact hboth

/-- The type of an array literal, once its elements are known. -/
theorem literalArray {k k' : LiteralKeys} (h : LiteralKeys.Same x.left x.right k k') :
    x.Tallies (x.left.SameTypes x.right)
      (do
        if k.isShape then return .of (← AnalysisM.types (intern (.shape k.fields) false))
        else
          let elements ← AnalysisM.types k.values.widenLiterals
          AnalysisM.types (elements.orMixed.asArrays (k.keyKind.getD .int)))
      (do
        if k'.isShape then return .of (← AnalysisM.types (intern (.shape k'.fields) false))
        else
          let elements ← AnalysisM.types k'.values.widenLiterals
          AnalysisM.types (elements.orMixed.asArrays (k'.keyKind.getD .int))) := by
  rw [h.isShape, h.keyKind]
  split
  · exact (types (h.tallies_shape x.siblings)).bind (by grind) fun _ _ hij => pure (.of hij)
  · refine (types (UnionType.tallies_widenLiterals x.siblings h.values)).bind (by grind)
      fun u v huv => ?_
    exact types (UnionType.tallies_asArrays x.siblings (x.siblings.orMixed huv) _)

end Tallies

end Comparison

end UnionInference
