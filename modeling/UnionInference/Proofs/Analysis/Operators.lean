import UnionInference.Proofs.Analysis.Resolve

/-!
Operators and arrays on sound worlds. The rules for them run when the evaluation of children does:
they ask about types that are held and make new ones of these.
-/

namespace UnionInference

open AnalysisM

variable {r : Regime} {s : Setup} {w w₁ w₂ : World} {n : Node} {child : Child} {u : UnionType}

/-- The children are evaluated without a violation, and what is found for them is held. -/
structure Evaluator.Safe (r : Regime) (s : Setup) (v : Evaluator) : Prop where
  context : v.context.Fits r
  run : ∀ (catching : Bool) (c : Context) (child : Child) (w : World), c.Fits r → child.Fits r →
    w.Sound r s → Runs r s w (v.run catching c child) fun w₁ u => u.Inside w₁.types

namespace AnalysisM

theorem runs_any (hw : w.Sound r s) (hu : u.Inside w.types) (f : Ty → Bool) :
    Runs r s w (query fun t => u.anyMember t f) fun _ _ => True :=
  runs_ask hw (UnionType.exists_anyMember hu f)

theorem runs_all (hw : w.Sound r s) (hu : u.Inside w.types) (f : Ty → Bool) :
    Runs r s w (query fun t => u.allMembers t f) fun _ _ => True :=
  runs_ask hw (UnionType.exists_allMembers hu f)

theorem runs_withoutNull (hw : w.Sound r s) {q : String → Prop} (hq : TypeM.Traces r q)
    (hu : u.Held q w.types) : Runs r s w (types u.withoutNull) fun w₁ v => v.Held q w₁.types :=
  runs_types hw (UnionType.supplies_withoutNull hq hw.types hu)

theorem runs_literalType (hw : w.Sound r s) {x : Scalar}
    (hint : ∀ i, x = .int i → r.strict → Text.isInteger i = true)
    (hstring : ∀ y, x = .string y → r.Plain y) :
    Runs r s w (literalType x) fun w₁ u => u.Inside w₁.types :=
  (runs_options hw).bind fun o _ h₁ _ =>
    runs_types h₁.sound (UnionType.supplies_ofScalar h₁.sound.types o hint hstring)

/-- The member of a union with one member. -/
theorem runs_single (hw : w.Sound r s) (hu : u.Inside w.types) {i : TypeId}
    (hi : u.single? = some i) : Runs r s w (query fun t => t.fetch i) fun _ ty => ty.kind.Fit r :=
  (runs_fetch hw (hu i (UnionType.mem_of_single? hi))).imp fun ty _ h₁ hty =>
    h₁.sound.types.fit i ty hty.1

end AnalysisM

namespace Evaluator

variable {v : Evaluator} {left right : UnionType}

theorem held_natives (hw : w.Sound r s) (ks : List NativeKind) :
    (UnionType.ofList (ks.map NativeKind.id)).Inside w.types := by
  refine UnionType.held_ofList fun j hj => ?_
  obtain ⟨k, -, rfl⟩ := List.mem_map.1 hj
  exact UnionType.held_native hw.types k k.id (UnionType.mem_of.2 rfl)

/-! ### Operators -/

theorem runs_isArray (hw : w.Sound r s) (hu : u.Inside w.types) :
    Runs r s w (isArray u) fun _ _ => True :=
  runs_andM (runs_all hw hu _) fun _ h₁ => runs_pure h₁.sound trivial

theorem runs_isScalar (hw : w.Sound r s) (hu : u.Inside w.types) :
    Runs r s w (isScalar u) fun _ _ => True :=
  runs_andM (runs_all hw hu _) fun _ h₁ => runs_pure h₁.sound trivial

theorem runs_checkComparison (hw : w.Sound r s) (hleft : left.Inside w.types)
    (hright : right.Inside w.types) (op : BinaryOp) :
    Runs r s w (v.checkComparison n op left right) fun _ _ => True := by
  unfold checkComparison
  split
  · exact runs_pure hw trivial
  · refine (runs_andM (runs_isArray hw hleft) fun _ h₁ =>
      runs_isScalar h₁.sound (hright.keeps h₁.keeps)).bind fun yes w₁ h₁ _ => ?_
    split
    · exact (runs_display h₁.sound (hright.keeps h₁.keeps)).bind fun _ _ h₂ _ =>
        runs_report h₂.sound ..
    · refine (runs_andM (runs_isScalar h₁.sound (hleft.keeps h₁.keeps)) fun _ h₂ =>
        runs_isArray h₂.sound (hright.keeps (h₁.trans h₂).keeps)).bind fun yes w₂ h₂ _ => ?_
      split
      · exact (runs_display h₂.sound (hleft.keeps (h₁.trans h₂).keeps)).bind fun _ _ h₃ _ =>
          runs_report h₃.sound ..
      · exact runs_pure h₂.sound trivial

theorem runs_bitwiseType (hw : w.Sound r s) (hleft : left.Inside w.types) :
    Runs r s w (bitwiseType left) fun w₁ u => u.Inside w₁.types := by
  unfold bitwiseType
  split
  · exact runs_pure hw (held_natives hw [.int, .string])
  · refine (runs_withoutNull hw (TypeM.traces_true r) hleft).bind fun left w₁ h₁ hleft => ?_
    refine (runs_any h₁.sound hleft _).bind fun strings w₂ h₂ _ => ?_
    have hstrings : (if strings then UnionType.native .string else .empty).Inside w₂.types := by
      split
      · exact UnionType.held_native h₂.sound.types .string
      · exact UnionType.held_empty
    refine (runs_all h₂.sound (hleft.keeps h₂.keeps) _).bind fun all w₃ h₃ _ => ?_
    split
    · exact runs_pure h₃.sound ((hstrings.keeps h₃.keeps).insert
        (UnionType.held_native h₃.sound.types .int _ (UnionType.mem_of.2 rfl)))
    · exact runs_pure h₃.sound (hstrings.keeps h₃.keeps)

theorem runs_arithmeticType (hw : w.Sound r s) (hleft : left.Inside w.types)
    (hright : right.Inside w.types) (op : BinaryOp) :
    Runs r s w (v.arithmeticType n op left right) fun w₁ u => u.Inside w₁.types := by
  unfold arithmeticType
  refine (runs_isArray hw hleft).bind fun leftArray w₁ h₁ _ => ?_
  refine (runs_isArray h₁.sound (hright.keeps h₁.keeps)).bind fun rightArray w₂ h₂ _ => ?_
  have hleft₂ := hleft.keeps (h₁.trans h₂).keeps
  have hright₂ := hright.keeps (h₁.trans h₂).keeps
  have hw₂ := h₂.sound
  split
  · refine (runs_withoutNull hw₂ (TypeM.traces_true r) hleft₂).bind fun x w₃ h₃ hx => ?_
    refine (runs_withoutNull h₃.sound (TypeM.traces_true r) (hright₂.keeps h₃.keeps)).bind
      fun y w₄ h₄ hy => ?_
    exact runs_pure h₄.sound ((hx.keeps h₄.keeps).union hy)
  · split
    · refine (runs_display hw₂ hleft₂).bind fun _ w₃ h₃ _ => ?_
      exact (runs_display h₃.sound (hright₂.keeps h₃.keeps)).bind fun _ _ h₄ _ =>
        runs_failWith h₄.sound ..
    · split
      · exact runs_pure hw₂ (UnionType.held_native hw₂.types .int)
      · refine (runs_andM (runs_all hw₂ hleft₂ _) fun _ h₃ =>
          runs_all h₃.sound (hright₂.keeps h₃.keeps) _).bind fun yes w₃ h₃ _ => ?_
        split
        · refine runs_pure h₃.sound ?_
          split
          · exact held_natives h₃.sound [.int, .float]
          · exact UnionType.held_native h₃.sound.types .int
        · refine (runs_orM (runs_all h₃.sound (hleft₂.keeps h₃.keeps) _) fun _ h₄ =>
            runs_all h₄.sound (hright₂.keeps (h₃.trans h₄).keeps) _).bind fun yes w₄ h₄ _ => ?_
          split
          · exact runs_pure h₄.sound (UnionType.held_native h₄.sound.types .float)
          · exact runs_pure h₄.sound (held_natives h₄.sound [.int, .float])

theorem runs_operationType (hw : w.Sound r s) (hleft : left.Inside w.types)
    (hright : right.Inside w.types) (op : BinaryOp) :
    Runs r s w (v.operationType n op left right) fun w₁ u => u.Inside w₁.types := by
  have hnative (k : NativeKind) : Runs r s w (pure (UnionType.native k)) fun w₁ u =>
    u.Inside w₁.types := runs_pure hw (UnionType.held_native hw.types k)
  unfold operationType
  split
  · exact hnative .string
  · exact hnative .bool
  · exact hnative .bool
  · exact hnative .bool
  · exact hnative .int
  · exact hnative .int
  · exact hnative .int
  · exact runs_bitwiseType hw hleft
  · exact runs_bitwiseType hw hleft
  · exact runs_bitwiseType hw hleft
  · split
    · exact (runs_checkComparison hw hleft hright op).bind fun _ w₁ h₁ _ =>
        runs_pure h₁.sound (UnionType.held_native h₁.sound.types .bool)
    · exact runs_arithmeticType hw hleft hright op

variable (hv : v.Safe r s)
include hv

theorem Safe.visit (hw : w.Sound r s) (hchild : child.Fits r) :
    Runs r s w (v.visit child) fun w₁ u => u.Inside w₁.types := hv.run _ _ _ _ hv.context hchild hw

theorem Safe.visitQuietly (hw : w.Sound r s) (hchild : child.Fits r) :
    Runs r s w (v.visitQuietly child) fun w₁ u => u.Inside w₁.types :=
  (hv.run _ _ _ _ hv.context hchild hw).recover fun _ _ h₁ => runs_pure h₁.sound UnionType.held_empty

theorem Safe.visitForEffects (hw : w.Sound r s) (hchild : child.Fits r) :
    Runs r s w (v.visitForEffects child) fun _ _ => True :=
  ((Safe.visit hv hw hchild).bind fun _ _ h₁ _ => runs_pure h₁.sound trivial).recover
    fun _ _ h₁ => runs_pure h₁.sound trivial

/-- The child in a slot that must be there. -/
theorem Safe.visitRequired (hw : w.Sound r s) (hn : n.Fits r) (name : String) :
    Runs r s w (required n name >>= v.visit) fun w₁ u => u.Inside w₁.types :=
  (runs_required hw hn name).bind fun _ _ h₁ hchild => hv.visit h₁.sound hchild.1

theorem runs_operation (hw : w.Sound r s) (hn : n.Fits r) (first second unknown : String) :
    Runs r s w (v.operation n first second unknown) fun w₁ u => u.Inside w₁.types := by
  unfold operation
  split
  · exact runs_unanalyzable hw n _
  · next op _ =>
    refine (runs_required hw hn first).bind fun left w₁ h₁ hleft => ?_
    refine (runs_required h₁.sound hn second).bind fun right w₂ h₂ hright => ?_
    split
    · refine (hv.visitQuietly h₂.sound hleft.1).bind fun x w₃ h₃ hx => ?_
      refine (hv.visit h₃.sound hright.1).bind fun y w₄ h₄ hy => ?_
      refine (runs_withoutNull h₄.sound (TypeM.traces_true r) (hx.keeps h₄.keeps)).bind
        fun z w₅ h₅ hz => ?_
      exact runs_pure h₅.sound (hz.union (hy.keeps h₅.keeps))
    · refine (hv.visit h₂.sound hleft.1).bind fun x w₃ h₃ hx => ?_
      refine (hv.visit h₃.sound hright.1).bind fun y w₄ h₄ hy => ?_
      exact runs_operationType h₄.sound (hx.keeps h₄.keeps) hy op

omit hv in
theorem runs_signedType (hw : w.Sound r s) (hu : u.Inside w.types) (op : UnaryOp) :
    Runs r s w (signedType op u) fun w₁ u => u.Inside w₁.types := by
  have hvalue : Runs r s w (intValue? u) fun _ _ => True := by
    unfold intValue?
    split
    · exact runs_pure hw trivial
    · next i hi =>
      refine (runs_single hw hu hi).bind fun ty w₁ h₁ _ => ?_
      split
      · exact runs_pure h₁.sound trivial
      · exact runs_pure h₁.sound trivial
  refine hvalue.bind fun value w₁ h₁ _ => ?_
  have hu₁ := hu.keeps h₁.keeps
  cases value with
  | some i =>
    dsimp only
    generalize (if op = .minus then -i else i) = signed
    split
    · next hsigned =>
      refine (runs_types h₁.sound (TypeM.supplies_intern (TypeM.traces_true r) h₁.sound.types
        (.intLiteral signed) false ⟨by simp [TypeKind.embedded], by simp⟩ (fun _ => hsigned)
        (by simp))).bind fun j w₂ h₂ hj => ?_
      exact runs_pure h₂.sound (UnionType.held_of hj.1)
    · exact runs_pure h₁.sound (UnionType.held_native h₁.sound.types .float)
  | none =>
    refine (runs_all h₁.sound hu₁ _).bind fun yes w₂ h₂ _ => ?_
    split
    · exact runs_pure h₂.sound (UnionType.held_native h₂.sound.types .int)
    · refine (runs_all h₂.sound (hu₁.keeps h₂.keeps) _).bind fun yes w₃ h₃ _ => ?_
      split
      · exact runs_pure h₃.sound (UnionType.held_native h₃.sound.types .float)
      · exact runs_pure h₃.sound (held_natives h₃.sound [.int, .float])

theorem runs_unaryOp (hw : w.Sound r s) (hn : n.Fits r) :
    Runs r s w (v.unaryOp n) fun w₁ u => u.Inside w₁.types := by
  unfold unaryOp
  split
  · exact runs_unanalyzable hw n _
  · refine (runs_required hw hn "expr").bind fun child w₁ h₁ hchild => ?_
    refine (hv.visit h₁.sound hchild.1).bind fun operand w₂ h₂ hoperand => ?_
    split
    · exact runs_pure h₂.sound (UnionType.held_native h₂.sound.types .bool)
    · refine (runs_all h₂.sound hoperand _).bind fun yes w₃ h₃ _ => runs_pure h₃.sound ?_
      split
      · exact UnionType.held_native h₃.sound.types .string
      · exact UnionType.held_native h₃.sound.types .int
    · exact runs_pure h₂.sound hoperand
    · exact runs_signedType h₂.sound hoperand _
    · exact runs_signedType h₂.sound hoperand _

theorem runs_incDec (hw : w.Sound r s) (hn : n.Fits r) :
    Runs r s w (v.incDec n) fun w₁ u => u.Inside w₁.types := by
  unfold incDec
  refine (runs_required hw hn "var").bind fun child w₁ h₁ hchild => ?_
  refine (hv.visit h₁.sound hchild.1).bind fun operand w₂ h₂ hoperand => ?_
  refine (runs_all h₂.sound hoperand _).bind fun yes w₃ h₃ _ => ?_
  have hoperand₃ := hoperand.keeps h₃.keeps
  split
  · exact runs_pure h₃.sound (UnionType.held_native h₃.sound.types .int)
  · refine (runs_all h₃.sound hoperand₃ _).bind fun yes w₄ h₄ _ => ?_
    split
    · exact runs_pure h₄.sound (UnionType.held_native h₄.sound.types .float)
    · exact runs_types h₄.sound (UnionType.supplies_widenLiterals (TypeM.traces_true r)
        h₄.sound.types (hoperand₃.keeps h₄.keeps))

omit hv in
theorem regular_stdClass : (QualifiedName.make "\\" "stdClass").Regular :=
  ⟨⟨["stdClass".toList], by decide, by decide, by decide⟩,
    by unfold QualifiedName.Divided; decide⟩

theorem runs_cast (hw : w.Sound r s) (hn : n.Fits r) :
    Runs r s w (v.cast n) fun w₁ u => u.Inside w₁.types := by
  unfold cast
  refine (runs_required hw hn "expr").bind fun child w₁ h₁ hchild => ?_
  refine (hv.visit h₁.sound hchild.1).bind fun operand w₂ h₂ hoperand => ?_
  have hnative (k : NativeKind) : Runs r s w₂ (pure (UnionType.native k)) fun w₁ u =>
    u.Inside w₁.types := runs_pure h₂.sound (UnionType.held_native h₂.sound.types k)
  split
  · exact runs_unanalyzable h₂.sound n _
  · exact hnative .null
  · exact hnative .bool
  · exact hnative .int
  · exact hnative .float
  · exact hnative .string
  · refine (runs_isArray h₂.sound hoperand).bind fun yes w₃ h₃ _ => ?_
    split
    · exact runs_withoutNull h₃.sound (TypeM.traces_true r) (hoperand.keeps h₃.keeps)
    · exact runs_pure h₃.sound (UnionType.held_native h₃.sound.types .array)
  · refine (runs_all h₂.sound hoperand _).bind fun yes w₃ h₃ _ => ?_
    split
    · exact runs_pure h₃.sound (hoperand.keeps h₃.keeps)
    · refine (runs_classType h₃.sound regular_stdClass.admits).bind fun i w₄ h₄ hi => ?_
      exact runs_pure h₄.sound (UnionType.held_of hi)

/-! ### Arrays -/

end Evaluator

theorem isInteger_clampInteger (i : Int) : Text.isInteger (Text.clampInteger i) = true := by
  rw [Text.isInteger, Text.clampInteger, decide_eq_true_eq]
  simp only [Text.minInteger, Text.maxInteger]
  omega

/-- The integers among the keys have 64 bits. -/
def ShapeKey.Bounded (key : ShapeKey) : Prop := ∀ i, key = .int i → Text.isInteger i = true

theorem ShapeKey.bounded_ofText (x : String) : (ShapeKey.ofText x).Bounded := by
  intro i hi
  rw [ShapeKey.ofText] at hi
  split at hi
  · next j hj =>
    split at hi
    · cases hi
      exact (Option.filter_eq_some_iff.1 hj).2
    · cases hi
  · cases hi

/-- The table holds the types of the elements so far, and the integers among their keys have 64
bits. -/
structure LiteralKeys.Sound (r : Regime) (t : TypeTable) (k : LiteralKeys) : Prop where
  fields : ∀ f ∈ k.fields, f.2.type.Inside t
  keys : r.strict → ∀ f ∈ k.fields, f.1.Bounded
  values : k.values.Inside t
  next : Text.isInteger k.next = true

namespace LiteralKeys.Sound

variable {t t₁ : TypeTable} {k : LiteralKeys}

theorem keeps (h : k.Sound r t) (hk : t.Keeps t₁) : k.Sound r t₁ :=
  ⟨fun f hf => (h.fields f hf).keeps hk, h.keys, h.values.keeps hk, h.next⟩

theorem addSpread (h : k.Sound r t) (kind : KeyKind) (hu : u.Inside t) :
    (k.addSpread kind u).Sound r t :=
  ⟨h.fields, h.keys, h.values.union hu, h.next⟩

theorem addUnknown (h : k.Sound r t) (ht : t.Sound r) (kind : KeyKind) (hu : u.Inside t) :
    (k.addUnknown kind u).Sound r t :=
  ⟨h.fields, h.keys, h.values.union (hu.orMixed ht), h.next⟩

theorem addKnown (h : k.Sound r t) (ht : t.Sound r) {key : ShapeKey}
    (hkey : r.strict → key.Bounded) (hu : u.Inside t) : (k.addKnown key u).Sound r t := by
  refine ⟨fun f hf => ?_, fun hs f hf => ?_, h.values.union (hu.orMixed ht), ?_⟩
  · rcases ShapeFields.mem_insert hf with hf | rfl
    · exact h.fields f hf
    · exact hu.orMixed ht
  · rcases ShapeFields.mem_insert hf with hf | rfl
    · exact h.keys hs f hf
    · exact hkey hs
  · cases key with
    | str x => exact h.next
    | int i =>
      show Text.isInteger (max k.next (Text.clampInteger (i + 1))) = true
      rw [Int.max_def]
      split
      · exact isInteger_clampInteger _
      · exact h.next

end LiteralKeys.Sound

namespace Evaluator

variable {v : Evaluator} {base index nonNull : UnionType}

theorem runs_literalKey (hw : w.Sound r s) (hchild : child.Fits r) (hu : u.Inside w.types) :
    Runs r s w (literalKey child u) fun _ found =>
      ∀ key, found = some key → r.strict → key.Bounded := by
  refine (runs_options hw).bind fun o w₁ h₁ _ => ?_
  have hu₁ := hu.keeps h₁.keeps
  have hsome {key : ShapeKey} (hkey : r.strict → key.Bounded) :
      ∀ key', some key = some key' → r.strict → key'.Bounded := fun key' heq => by
    cases heq
    exact hkey
  split
  · next i =>
    refine runs_pure h₁.sound (hsome fun hs j hj => ?_)
    cases hj
    exact hchild.accepts hs
  · exact runs_pure h₁.sound (hsome fun _ => ShapeKey.bounded_ofText _)
  · refine runs_pure h₁.sound ?_
    split
    · refine hsome fun _ j hj => ?_
      cases hj
      exact isInteger_clampInteger _
    · nofun
  · next b =>
    refine runs_pure h₁.sound ?_
    split
    · refine hsome fun _ j hj => ?_
      cases hj
      cases b <;> decide
    · nofun
  · refine runs_pure h₁.sound ?_
    split
    · exact hsome fun _ j hj => nomatch hj
    · nofun
  · split
    · exact runs_pure h₁.sound nofun
    · next i hi =>
      refine (runs_single h₁.sound hu₁ hi).bind fun ty w₂ h₂ hty => ?_
      split
      · next i hk =>
        rw [hk] at hty
        refine runs_pure h₂.sound (hsome fun hs j hj => ?_)
        cases hj
        exact hty hs
      · exact runs_pure h₂.sound (hsome fun _ => ShapeKey.bounded_ofText _)
      · exact runs_pure h₂.sound nofun

theorem runs_keyKindOf (hw : w.Sound r s) (hu : u.Inside w.types) :
    Runs r s w (keyKindOf u) fun _ _ => True := by
  unfold keyKindOf
  refine (runs_all hw hu _).bind fun yes w₁ h₁ _ => ?_
  split
  · exact runs_pure h₁.sound trivial
  · refine (runs_all h₁.sound (hu.keeps h₁.keeps) _).bind fun yes w₂ h₂ _ => ?_
    split
    · exact runs_pure h₂.sound trivial
    · exact runs_pure h₂.sound trivial

theorem runs_addUnpacked (hv : v.Safe r s) (hw : w.Sound r s) (hn : n.Fits r) {keys : LiteralKeys}
    (hkeys : keys.Sound r w.types) :
    Runs r s w (v.addUnpacked n keys) fun w₁ keys => keys.Sound r w₁.types := by
  unfold addUnpacked
  refine (runs_required hw hn "expr").bind fun child w₁ h₁ hchild => ?_
  refine (hv.visit h₁.sound hchild.1).bind fun unpacked w₂ h₂ hunpacked => ?_
  have hkeys₂ := hkeys.keeps (h₁.trans h₂).keeps
  split
  · exact runs_pure h₂.sound (hkeys₂.addSpread _ (UnionType.held_native h₂.sound.types .mixed))
  · refine (runs_any h₂.sound hunpacked _).bind fun yes w₃ h₃ _ => ?_
    have hunpacked₃ := hunpacked.keeps h₃.keeps
    have hkeys₃ := hkeys₂.keeps h₃.keeps
    split
    · refine (runs_display h₃.sound hunpacked₃).bind fun _ w₄ h₄ _ => ?_
      refine (runs_report h₄.sound ..).bind fun _ w₅ h₅ _ => ?_
      exact runs_pure h₅.sound ((hkeys₃.keeps (h₄.trans h₅).keeps).addSpread _
        (UnionType.held_native h₅.sound.types .mixed))
    · refine (runs_ask h₃.sound (UnionType.exists_keyKind hunpacked₃)).bind fun kind w₄ h₄ _ => ?_
      refine (runs_options h₄.sound).bind fun o w₅ h₅ _ => ?_
      have hunpacked₅ := hunpacked₃.keeps (h₄.trans h₅).keeps
      have hkeys₅ := hkeys₃.keeps (h₄.trans h₅).keeps
      dsimp only
      have hvalues {w₆ : World} (h₆ : w₅.Leads r s w₆) (kind : KeyKind) : Runs r s w₆
          (do return keys.addSpread kind (← query unpacked.iterableValues).orMixed)
          fun w₁ keys => keys.Sound r w₁.types := by
        obtain ⟨values, hrun, hheld⟩ :=
          UnionType.exists_iterableValues h₆.sound.types (hunpacked₅.keeps h₆.keeps)
        refine (runs_query h₆.sound (P := fun x => UnionType.Inside w₆.types x)
          ⟨values, hrun, hheld⟩).bind ?_
        rintro values _ h₇ ⟨rfl, hvalues⟩
        exact runs_pure h₇.sound ((hkeys₅.keeps h₆.keeps).addSpread _
          (hvalues.orMixed h₇.sound.types))
      split
      · refine (runs_display h₅.sound hunpacked₅).bind fun _ w₆ h₆ _ => ?_
        exact (runs_report h₆.sound ..).bind fun _ w₇ h₇ _ => hvalues (h₆.trans h₇) _
      · exact hvalues (.refl h₅.sound) _

theorem runs_addElement (hv : v.Safe r s) (hw : w.Sound r s) (hn : n.Fits r) {keys : LiteralKeys}
    (hkeys : keys.Sound r w.types) :
    Runs r s w (v.addElement n keys) fun w₁ keys => keys.Sound r w₁.types := by
  unfold addElement
  split
  · exact runs_addUnpacked hv hw hn hkeys
  · refine (runs_required hw hn "value").bind fun child w₁ h₁ hchild => ?_
    refine (hv.visit h₁.sound hchild.1).bind fun value w₂ h₂ hvalue => ?_
    have hkeys₂ := hkeys.keeps (h₁.trans h₂).keeps
    split
    · refine runs_pure h₂.sound (hkeys₂.addKnown h₂.sound.types (fun _ i hi => ?_) hvalue)
      cases hi
      exact hkeys.next
    · next keyChild hkeyChild =>
      have hfits := hn.optional? hkeyChild
      refine (hv.visit h₂.sound hfits).bind fun type w₃ h₃ htype => ?_
      refine (runs_literalKey h₃.sound hfits htype).bind fun found w₄ h₄ hfound => ?_
      have hvalue₄ := hvalue.keeps (h₃.trans h₄).keeps
      have hkeys₄ := hkeys₂.keeps (h₃.trans h₄).keeps
      split
      · next key => exact runs_pure h₄.sound (hkeys₄.addKnown h₄.sound.types (hfound key rfl) hvalue₄)
      · refine (runs_keyKindOf h₄.sound (htype.keeps h₄.keeps)).bind fun kind w₅ h₅ _ => ?_
        exact runs_pure h₅.sound ((hkeys₄.keeps h₅.keeps).addUnknown h₅.sound.types kind
          (hvalue₄.keeps h₅.keeps))

theorem runs_arrayLiteral (hv : v.Safe r s) (hw : w.Sound r s) (hn : n.Fits r) :
    Runs r s w (v.arrayLiteral n) fun w₁ u => u.Inside w₁.types := by
  unfold arrayLiteral
  refine Runs.bind (Q := fun w₁ keys => LiteralKeys.Sound r w₁.types keys) ?_
    fun keys w₁ h₁ hkeys => ?_
  · refine runs_foldlM hw ⟨by simp, by simp, UnionType.held_empty, by decide⟩
      fun keys w₁ element helement h₁ hkeys => ?_
    exact runs_addElement hv h₁.sound (hn.listNode helement) hkeys
  · split
    · refine (runs_types h₁.sound (TypeM.supplies_intern (TypeM.traces_true r) h₁.sound.types
        (.shape keys.fields) false (TypeTable.HoldsKind.shape hkeys.fields) hkeys.keys
        (by simp))).bind fun i w₂ h₂ hi => ?_
      exact runs_pure h₂.sound (UnionType.held_of hi.1)
    · refine (runs_types h₁.sound (UnionType.supplies_widenLiterals (TypeM.traces_true r)
        h₁.sound.types hkeys.values)).bind fun elements w₂ h₂ helements => ?_
      exact runs_types h₂.sound (UnionType.supplies_asArrays (TypeM.traces_true r) h₂.sound.types
        (helements.orMixed h₂.sound.types) _)

/-! ### Indexing -/

theorem runs_hasArrayAccess (hw : w.Sound r s) (hu : u.Inside w.types) :
    Runs r s w (hasArrayAccess u) fun _ _ => True := by
  obtain ⟨names, hrun, hknown⟩ := UnionType.exists_classNames hu
  unfold hasArrayAccess
  refine (runs_query hw (P := fun names => ∀ x ∈ names, w.types.Knows x)
    ⟨names, hrun, hknown⟩).bind ?_
  rintro names _ h₁ ⟨rfl, hknown⟩
  refine runs_anyM h₁.sound fun w₂ name hname h₂ => ?_
  have hknown₂ := h₂.keeps.knows (hknown name hname)
  split
  · exact runs_pure h₂.sound trivial
  · have hadmits : r.Admits name := by
      rcases hknown₂ with hregular | ⟨i, args, nullable, hi⟩
      · exact hregular.admits
      · obtain ⟨htypable, hregular⟩ := h₂.sound.types.fit i _ hi
        exact ⟨htypable, fun hs => hregular (.inl hs)⟩
    refine (runs_types h₂.sound (TypeM.supplies_classType (TypeM.traces_true r) h₂.sound.types
      hadmits)).bind fun i w₃ h₃ hi => ?_
    exact runs_hierarchy h₃.sound (ExpandM.ends_hasAncestor h₃.sound.shallow hi.1.lt_size
      (.inr (hi.2 hknown₂)) _)

theorem runs_reportTypes (hw : w.Sound r s) (v : Evaluator) (kind : IssueKind) (line : Nat)
    (hbase : base.Inside w.types) (hindex : index.Inside w.types)
    (args : String → String → List String) :
    Runs r s w (do v.report kind line (args (← display base) (← display index)))
      fun _ _ => True := by
  refine (runs_display hw hbase).bind fun _ w₁ h₁ _ => ?_
  exact (runs_display h₁.sound (hindex.keeps h₁.keeps)).bind fun _ _ h₂ _ =>
    runs_report h₂.sound ..

theorem runs_checkStringOffset (hw : w.Sound r s) (hbase : base.Inside w.types)
    (hindex : index.Inside w.types) :
    Runs r s w (v.checkStringOffset n base index) fun _ _ => True := by
  unfold checkStringOffset
  refine (runs_options hw).bind fun o w₁ h₁ _ => ?_
  refine (runs_withoutNull h₁.sound (TypeM.traces_true r) (hindex.keeps h₁.keeps)).bind
    fun nonNull w₂ h₂ hnonNull => ?_
  split
  · exact runs_pure h₂.sound trivial
  · refine (runs_any h₂.sound hnonNull _).bind fun yes w₃ h₃ _ => ?_
    have h₁₃ := h₁.trans (h₂.trans h₃)
    split
    · exact runs_pure h₃.sound trivial
    · exact runs_reportTypes h₃.sound v _ _ (hbase.keeps h₁₃.keeps) (hindex.keeps h₁₃.keeps)
        fun x y => [x, y, "int"]

theorem runs_checkKey (hw : w.Sound r s) (hbase : base.Inside w.types)
    (hindex : index.Inside w.types) (kind : KeyKind) :
    Runs r s w (v.checkKey n base index kind) fun _ _ => True := by
  unfold checkKey
  refine (runs_options hw).bind fun o w₁ h₁ _ => ?_
  refine (runs_withoutNull h₁.sound (TypeM.traces_true r) (hindex.keeps h₁.keeps)).bind
    fun nonNull w₂ h₂ hnonNull => ?_
  have hreport {w₃ : World} (h₃ : w₂.Leads r s w₃) (kind : IssueKind) (k : KeyKind) : Runs r s w₃
      (do v.report kind n.line [← display base, ← display index, ← display (.ofKeyKind k)])
      fun _ _ => True := by
    have h₁₃ := h₁.trans (h₂.trans h₃)
    refine (runs_display h₃.sound (hbase.keeps h₁₃.keeps)).bind fun _ w₄ h₄ _ => ?_
    refine (runs_display h₄.sound (hindex.keeps (h₁₃.trans h₄).keeps)).bind fun _ w₅ h₅ _ => ?_
    refine (runs_display h₅.sound (UnionType.held_ofKeyKind h₅.sound.types k)).bind
      fun _ w₆ h₆ _ => ?_
    exact runs_report h₆.sound ..
  split
  · exact runs_pure h₂.sound trivial
  · refine (runs_any h₂.sound hnonNull _).bind fun yes w₃ h₃ _ => ?_
    have hindex₃ := hindex.keeps (h₁.trans (h₂.trans h₃)).keeps
    split
    · exact hreport h₃ _ _
    · refine (runs_andM (runs_any h₃.sound hindex₃ _) fun _ h₄ =>
        runs_pure h₄.sound trivial).bind fun yes w₄ h₄ _ => ?_
      split
      · exact hreport (h₃.trans h₄) _ _
      · exact runs_pure h₄.sound trivial

theorem runs_checkIndex (hw : w.Sound r s) (hbase : base.Inside w.types)
    (hnonNull : nonNull.Inside w.types) (hindex : index.Inside w.types) :
    Runs r s w (v.checkIndex n base nonNull index) fun _ _ => True := by
  unfold checkIndex
  split
  · exact runs_pure hw trivial
  · refine (runs_any hw hindex _).bind fun yes w₁ h₁ _ => ?_
    split
    · exact runs_pure h₁.sound trivial
    · refine (runs_ask h₁.sound (UnionType.exists_keyKind (hnonNull.keeps h₁.keeps))).bind
        fun kind w₂ h₂ _ => ?_
      have h₁₂ := h₁.trans h₂
      split
      · exact runs_checkKey h₂.sound (hbase.keeps h₁₂.keeps) (hindex.keeps h₁₂.keeps) _
      · refine (runs_any h₂.sound (hnonNull.keeps h₁₂.keeps) _).bind fun yes w₃ h₃ _ => ?_
        have h₁₃ := h₁₂.trans h₃
        split
        · exact runs_checkStringOffset h₃.sound (hbase.keeps h₁₃.keeps) (hindex.keeps h₁₃.keeps)
        · exact runs_pure h₃.sound trivial

/-- The index, where there is one, is a child of the node and has a type that is held. -/
def IndexSound (r : Regime) (w : World) (index : Option (Child × UnionType)) : Prop :=
  ∀ x, index = some x → x.1.Fits r ∧ x.2.Inside w.types

/-- A known key asks for the field under it; otherwise all fields are asked for. -/
theorem runs_shapesAt (hw : w.Sound r s) (hbase : base.Inside w.types)
    (hnonNull : nonNull.Inside w.types) (others : Bool) (key : Option ShapeKey) : Runs r s w
    (match key with
    | some key => do
      match ← query fun t => nonNull.shapeField? t key with
      | some found => return found
      | none =>
        if !others && !(← query nonNull.hasStringLike) then
          v.failWith .typeInvalidDimOffset n.line [key.text, ← display base]
        else return .empty
    | none => query fun t => do (← nonNull.filterMembers t Ty.isShape).elementTypes t)
    fun w₁ u => u.Inside w₁.types := by
  cases key with
  | some key =>
    obtain ⟨found, hrun, hfound⟩ := UnionType.exists_shapeField? hnonNull key
    refine (runs_query hw (P := fun found => ∀ x, found = some x →
      UnionType.Inside w.types x) ⟨found, hrun, hfound⟩).bind ?_
    rintro found _ h₃ ⟨rfl, hfound⟩
    split
    · next x => exact runs_pure h₃.sound (hfound x rfl)
    · refine (runs_any h₃.sound hnonNull _).bind fun yes w₄ h₄ _ => ?_
      split
      · exact (runs_display h₄.sound (hbase.keeps h₄.keeps)).bind fun _ _ h₅ _ =>
          runs_failWith h₅.sound ..
      · exact runs_pure h₄.sound UnionType.held_empty
  | none =>
    obtain ⟨shapes, hrun, hshapes⟩ := UnionType.exists_filterMembers hnonNull Ty.isShape
    obtain ⟨elements, hrun', helements⟩ := UnionType.exists_elementTypes hw.types hshapes
    refine (runs_query hw (P := fun x => UnionType.Inside w.types x)
      ⟨elements, ?_, helements⟩).imp ?_
    · rw [hrun]
      exact hrun'
    · rintro _ _ _ ⟨rfl, h⟩
      exact h

theorem runs_indexShapes (hw : w.Sound r s) (hbase : base.Inside w.types)
    (hnonNull : nonNull.Inside w.types) {index : Option (Child × UnionType)}
    (hindex : IndexSound r w index) :
    Runs r s w (v.indexShapes n base nonNull index) fun w₁ u => u.Inside w₁.types := by
  have hothers : ∃ yes, (do (← nonNull.withoutShapes w.types).hasArrayLike w.types) = .ok yes := by
    obtain ⟨others, hrun, hothers⟩ := UnionType.exists_filterMembers hnonNull fun ty => !ty.isShape
    obtain ⟨yes, hyes⟩ := UnionType.exists_anyMember hothers Ty.isArrayLike
    refine ⟨yes, ?_⟩
    rw [UnionType.withoutShapes, hrun]
    exact hyes
  unfold indexShapes
  refine (runs_ask hw hothers).bind fun others w₁ h₁ _ => ?_
  have hbase₁ := hbase.keeps h₁.keeps
  have hnonNull₁ := hnonNull.keeps h₁.keeps
  cases index with
  | none =>
    exact (runs_pure (Q := fun _ _ => True) h₁.sound trivial).bind fun key w₂ h₂ _ =>
      runs_shapesAt h₂.sound (hbase₁.keeps h₂.keeps) (hnonNull₁.keeps h₂.keeps) others key
  | some x =>
    obtain ⟨hchild, htype⟩ := hindex x rfl
    exact (runs_literalKey h₁.sound hchild (htype.keeps h₁.keeps)).bind fun key w₂ h₂ _ =>
      runs_shapesAt h₂.sound (hbase₁.keeps h₂.keeps) (hnonNull₁.keeps h₂.keeps) others key

theorem runs_indexType (hv : v.Safe r s) (hw : w.Sound r s) (hn : n.Fits r) :
    Runs r s w (v.indexType n) fun w₁ index => IndexSound r w₁ index := by
  unfold indexType
  split
  · exact runs_pure hw nofun
  · next child hchild =>
    have hfits := hn.optional? hchild
    refine (hv.visit hw hfits).bind fun type w₁ h₁ htype => ?_
    refine runs_pure h₁.sound ?_
    rintro _ ⟨⟩
    exact ⟨hfits, htype⟩

theorem IndexSound.leads {index : Option (Child × UnionType)} (h : IndexSound r w index)
    (hw : w.Leads r s w₁) : IndexSound r w₁ index :=
  fun x hx => ⟨(h x hx).1, (h x hx).2.keeps hw.keeps⟩

theorem runs_valuesOfShapes (hw : w.Sound r s) (hbase : base.Inside w.types)
    (hnonNull : nonNull.Inside w.types) {index : Option (Child × UnionType)}
    (hindex : IndexSound r w index) (hasShape : Bool) :
    Runs r s w (v.valuesOfShapes n base nonNull index hasShape) fun w₁ u => u.Inside w₁.types := by
  unfold valuesOfShapes
  split
  · exact runs_indexShapes hw hbase hnonNull hindex
  · exact runs_pure hw UnionType.held_empty

theorem runs_valuesOfArrays (hw : w.Sound r s) {others : UnionType}
    (hothers : others.Inside w.types) (hasArray : Bool) :
    Runs r s w (valuesOfArrays others hasArray) fun w₁ u => u.Inside w₁.types := by
  unfold valuesOfArrays
  split
  · obtain ⟨elements, hrun, helements⟩ := UnionType.exists_elementTypes hw.types hothers
    refine (runs_query hw (P := fun x => UnionType.Inside w.types x)
      ⟨elements, hrun, helements⟩).imp ?_
    rintro _ _ _ ⟨rfl, h⟩
    exact h
  · exact runs_pure hw UnionType.held_empty

theorem runs_reportNull (hw : w.Sound r s) (hbase : base.Inside w.types)
    (hnonNull : nonNull.Inside w.types) :
    Runs r s w (v.reportNull n base nonNull) fun _ _ => True := by
  unfold reportNull
  refine (runs_andM (runs_any hw hbase _) fun _ h₁ =>
    runs_pure h₁.sound trivial).bind fun yes w₁ h₁ _ => ?_
  split
  · exact (runs_display h₁.sound (hnonNull.keeps h₁.keeps)).bind fun _ _ h₂ _ =>
      runs_report h₂.sound ..
  · exact runs_pure h₁.sound trivial

theorem runs_checkIndex? (hw : w.Sound r s) (hbase : base.Inside w.types)
    (hnonNull : nonNull.Inside w.types) {index : Option (Child × UnionType)}
    (hindex : IndexSound r w index) :
    Runs r s w (v.checkIndex? n base nonNull index) fun _ _ => True := by
  cases index with
  | none => exact runs_pure hw trivial
  | some x => exact runs_checkIndex hw hbase hnonNull (hindex x rfl).2

theorem held_dimResult {t : TypeTable} (ht : t.Sound r) {fromShapes fromArrays : UnionType}
    (hshapes : fromShapes.Inside t) (harrays : fromArrays.Inside t) {hasString hasObject : Bool} :
    (dimResult fromShapes fromArrays hasString hasObject).Inside t := by
  have hnative (k : NativeKind) : t.Holds (fun _ => True) k.id :=
    UnionType.held_native ht k k.id (UnionType.mem_of.2 rfl)
  have hboth : ((UnionType.empty.union fromShapes).union fromArrays).Inside t :=
    (UnionType.held_empty.union hshapes).union harrays
  unfold dimResult
  cases hasString <;> cases hasObject
  · exact hboth
  · exact hboth.insert (hnative .mixed)
  · exact hboth.insert (hnative .string)
  · exact (hboth.insert (hnative .string)).insert (hnative .mixed)

/-- What indexing reports is reported before its type is returned. -/
theorem runs_dimReported (hw : w.Sound r s) (hbase : base.Inside w.types)
    (hnonNull : nonNull.Inside w.types) {index : Option (Child × UnionType)}
    (hindex : IndexSound r w index) {u : UnionType} (hu : u.Inside w.types) :
    Runs r s w (do
      v.reportNull n base nonNull
      v.checkIndex? n base nonNull index
      return u) fun w₁ u => u.Inside w₁.types := by
  refine (runs_reportNull hw hbase hnonNull).bind fun _ w₁ h₁ _ => ?_
  refine (runs_checkIndex? h₁.sound (hbase.keeps h₁.keeps) (hnonNull.keeps h₁.keeps)
    (hindex.leads h₁)).bind fun _ w₂ h₂ _ => ?_
  exact runs_pure h₂.sound (hu.keeps (h₁.trans h₂).keeps)

theorem runs_dimKnown (hw : w.Sound r s) (hbase : base.Inside w.types)
    {index : Option (Child × UnionType)} (hindex : IndexSound r w index) :
    Runs r s w (v.dimKnown n base index) fun w₁ u => u.Inside w₁.types := by
  unfold dimKnown
  refine (runs_withoutNull hw (TypeM.traces_true r) hbase).bind fun nonNull w₁ h₁ hnonNull => ?_
  refine (runs_any h₁.sound hnonNull _).bind fun hasShape w₂ h₂ _ => ?_
  have hnonNull₂ := hnonNull.keeps h₂.keeps
  have h₀₂ := h₁.trans h₂
  refine (runs_valuesOfShapes h₂.sound (hbase.keeps h₀₂.keeps) hnonNull₂ (hindex.leads h₀₂)
    hasShape).bind fun fromShapes w₃ h₃ hshapes => ?_
  obtain ⟨others, hrun, hothers⟩ :=
    UnionType.exists_filterMembers (hnonNull₂.keeps h₃.keeps) fun ty => !ty.isShape
  refine (runs_query h₃.sound (P := fun x => UnionType.Inside w₃.types x)
    ⟨others, hrun, hothers⟩).bind ?_
  rintro others _ h₄ ⟨rfl, hothers⟩
  refine (runs_orM (runs_any h₄.sound hothers _) fun _ h₅ =>
    runs_pure h₅.sound trivial).bind fun hasArray w₅ h₅ _ => ?_
  refine (runs_valuesOfArrays h₅.sound (hothers.keeps h₅.keeps) hasArray).bind
    fun fromArrays w₆ h₆ harrays => ?_
  have h₂₆ := h₃.trans (h₄.trans (h₅.trans h₆))
  have hnonNull₆ := hnonNull₂.keeps h₂₆.keeps
  refine (runs_any h₆.sound hnonNull₆ _).bind fun hasString w₇ h₇ _ => ?_
  refine (runs_orM (runs_any h₇.sound (hnonNull₆.keeps h₇.keeps) _) fun _ h₈ =>
    runs_hasArrayAccess h₈.sound (hnonNull₆.keeps (h₇.trans h₈).keeps)).bind
    fun hasObject w₈ h₈ _ => ?_
  have h₆₈ := h₇.trans h₈
  have h₀₈ := h₀₂.trans (h₂₆.trans h₆₈)
  have hbase₈ := hbase.keeps h₀₈.keeps
  split
  · exact (runs_display h₈.sound hbase₈).bind fun _ _ h₉ _ => runs_failWith h₉.sound ..
  · have hshapes₈ := hshapes.keeps (h₄.trans (h₅.trans (h₆.trans h₆₈))).keeps
    exact runs_dimReported h₈.sound hbase₈ (hnonNull₆.keeps h₆₈.keeps) (hindex.leads h₀₈)
      (held_dimResult h₈.sound.types hshapes₈ (harrays.keeps h₆₈.keeps))

theorem runs_dim (hv : v.Safe r s) (hw : w.Sound r s) (hn : n.Fits r) :
    Runs r s w (v.dim n) fun w₁ u => u.Inside w₁.types := by
  rw [dim_eq]
  refine (runs_required hw hn "expr").bind fun child w₁ h₁ hchild => ?_
  refine (hv.visit h₁.sound hchild.1).bind fun base w₂ h₂ hbase => ?_
  refine (runs_indexType hv h₂.sound hn).bind fun index w₃ h₃ hindex => ?_
  split
  · exact runs_pure h₃.sound UnionType.held_empty
  · exact runs_dimKnown h₃.sound (hbase.keeps h₃.keeps) hindex

end Evaluator

end UnionInference
