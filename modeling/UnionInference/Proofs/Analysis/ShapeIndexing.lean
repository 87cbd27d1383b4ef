import UnionInference.Proofs.Analysis.Literals
import UnionInference.Proofs.Analysis.Modes
import UnionInference.Proofs.Analysis.Tracing
import UnionInference.Proofs.Types.RoundTrip

/-!
Indexing shapes. The value under a literal key is looked up with the key itself, while the check of
the index sees its type alone. So an index that finds its field is reported where its type hides which
integer a string denotes: where the options give the string the type of all strings, strings are not
cast to keys, and all keys of the shape are integers.
-/

namespace UnionInference

/-! ### Kinds of issues that are reported -/

/-- What is reported on the way from one world to the other are issues of these kinds. -/
def World.Reports (w : World) (kinds : List IssueKind) (w' : World) : Prop :=
  ∃ is : List Issue, w'.issues.toList = w.issues.toList ++ is ∧ is.map Issue.kind = kinds

namespace World.Reports

variable {w w₁ w' : World} {kinds kinds' : List IssueKind}

theorem of_eq (h : w'.issues = w.issues) : w.Reports [] w' := ⟨[], by simp [h], rfl⟩

theorem trans (h : w.Reports kinds w₁) (h' : w₁.Reports kinds' w') :
    w.Reports (kinds ++ kinds') w' := by
  obtain ⟨is, his, rfl⟩ := h
  obtain ⟨js, hjs, rfl⟩ := h'
  exact ⟨is ++ js, by rw [hjs, his, List.append_assoc], List.map_append⟩

theorem mem_iff (h : w.Reports kinds w') {kind : IssueKind} :
    (∃ i : Issue, i.Reported w w' ∧ i.kind = kind) ↔ kind ∈ kinds := by
  obtain ⟨is, his, rfl⟩ := h
  have hsince : w'.issues.since w.issues.size = is := by
    rw [IssueLog.since, his,
      show w.issues.size = w.issues.toList.length from (Array.length_toList).symm, List.drop_left]
  simp only [Issue.Reported, hsince, List.mem_map]

end World.Reports

theorem TypeTable.Rooted.ofKeyKind_lt {t : TypeTable} (ht : t.Rooted) (key : KeyKind) :
    ∀ i ∈ (UnionType.ofKeyKind key).members, i < t.size := by
  intro i hi
  cases key with
  | int =>
    rw [UnionType.ofKeyKind, UnionType.members_native, List.mem_singleton] at hi
    exact hi ▸ ht.native_lt_size .int
  | string =>
    rw [UnionType.ofKeyKind, UnionType.members_native, List.mem_singleton] at hi
    exact hi ▸ ht.native_lt_size .string
  | mixed =>
    rw [UnionType.ofKeyKind, UnionType.mem_ofList, List.mem_pair] at hi
    rcases hi with rfl | rfl
    · exact ht.native_lt_size .int
    · exact ht.native_lt_size .string

namespace AnalysisM

/-- In every world with the table the work gives the result and reports issues of these kinds; the
table stays as it is. -/
def Answers {α : Type} (s : Setup) (t : TypeTable) (p : AnalysisM α) (a : α)
    (kinds : List IssueKind) : Prop :=
  ∀ w : World, w.types = t → ∃ w', p s w = .ok (.ok a, w') ∧ w'.types = t ∧ w.Reports kinds w'

namespace Answers

variable {α β : Type} {s : Setup} {t : TypeTable} {p : AnalysisM α} {a : α} {b : β}
  {f : α → AnalysisM β} {kinds kinds' : List IssueKind}

theorem pure (a : α) : Answers s t (pure a) a [] := fun w hw => ⟨w, rfl, hw, .of_eq rfl⟩

theorem bind (hp : Answers s t p a kinds) (hf : Answers s t (f a) b kinds') :
    Answers s t (p >>= f) b (kinds ++ kinds') := by
  intro w hw
  obtain ⟨w₁, hrun, hw₁, hreports⟩ := hp w hw
  obtain ⟨w₂, hrun', hw₂, hreports'⟩ := hf w₁ hw₁
  exact ⟨w₂, (bind_of_ok hrun).trans hrun', hw₂, hreports.trans hreports'⟩

/-- Nothing is reported at first. -/
theorem quiet (hp : Answers s t p a []) (hf : Answers s t (f a) b kinds) :
    Answers s t (p >>= f) b kinds := hp.bind hf

theorem options : Answers s t options s.options [] := fun w hw => ⟨w, rfl, hw, .of_eq rfl⟩

theorem query {f : TypeTable → Checked α} (h : f t = .ok a) : Answers s t (query f) a [] := by
  rintro w rfl
  exact ⟨w, query_eq_ok.2 ⟨a, h, rfl, rfl⟩, rfl, .of_eq rfl⟩

theorem types {work : TypeM α} (h : work t = .ok (a, t)) : Answers s t (types work) a [] := by
  rintro w rfl
  exact ⟨w, types_eq_ok.2 ⟨a, w.types, h, rfl, rfl⟩, rfl, .of_eq rfl⟩

theorem display {u : UnionType} (hu : ∀ i ∈ u.members, i < t.size) :
    ∃ x, Answers s t (display u) x [] := by
  obtain ⟨x, hx⟩ := UnionType.exists_display hu
  exact ⟨_, (query hx).quiet (pure _)⟩

theorem report (c : Context) (kind : IssueKind) (line : Nat) (args : List String) :
    Answers s t (report c kind line args) () [kind] := by
  intro w hw
  let i := c.issue kind line args
  exact ⟨{ w with issues := w.issues.add i }, rfl, hw, [i], by simp [IssueLog.add, IssueLog.toList],
    rfl⟩

/-- The work starts in a world with another table and leaves this one. -/
theorem after {w w₁ : World} (hp : p s w = .ok (.ok a, w₁)) (hquiet : w.Reports [] w₁)
    (htypes : w₁.types = t) (hf : Answers s t (f a) b kinds) :
    ∃ w', (p >>= f) s w = .ok (.ok b, w') ∧ w.Reports kinds w' := by
  obtain ⟨w', hrun, -, hreports⟩ := hf w₁ htypes
  exact ⟨w', (bind_of_ok hp).trans hrun, hquiet.trans hreports⟩

end Answers

end AnalysisM

namespace Evaluator

open AnalysisM

variable {v : Evaluator} {n : Node} {s : Setup} {t : TypeTable} {i i' j : TypeId}
  {base : UnionType} {ty : Ty} {fields : ShapeFields} {nullable : Bool}

/-- What the check of an index reports for keys of a kind. -/
def checkKeyKinds (o : Options) (kind : KeyKind) (ty : Ty) : List IssueKind :=
  if acceptsIndex o.scalarArrayKeyCast kind ty then [] else [.typeMismatchDimFetch]

/-- An index that admits no null is checked against the kind of the keys. -/
theorem answers_checkKey (ht : t.Rooted) (hbase : ∀ i ∈ base.members, i < t.size)
    (hj : t.get? j = some ty) (hnull : ty.admitsNull = false) (kind : KeyKind) :
    Answers s t (v.checkKey n base (.of j) kind) () (checkKeyKinds s.options kind ty) := by
  let fits := acceptsIndex s.options.scalarArrayKeyCast kind
  unfold checkKey checkKeyKinds
  refine Answers.options.quiet ((Answers.types (UnionType.withoutNull_of ht hj hnull)).quiet ?_)
  rw [if_neg (by rw [UnionType.isEmpty_iff, UnionType.members_of]; exact List.cons_ne_nil _ _)]
  refine (Answers.query (UnionType.anyMember_of hj fits)).quiet ?_
  dsimp only [fits]
  cases acceptsIndex s.options.scalarArrayKeyCast kind ty with
  | false =>
    obtain ⟨x, hx⟩ := Answers.display (s := s) hbase
    obtain ⟨y, hy⟩ := Answers.display (s := s) (t := t) (u := .of j)
      fun j' hj' => UnionType.mem_of.1 hj' ▸ TypeTable.lt_size_of_get? hj
    obtain ⟨z, hz⟩ := Answers.display (s := s) (t := t)
      (u := .ofKeyKind (if s.options.scalarArrayKeyCast then .mixed else kind))
      (ht.ofKeyKind_lt _)
    exact hx.quiet (hy.quiet (hz.quiet (.report _ _ _ _)))
  | true =>
    have hadmits : Answers s t (query (UnionType.of j).admitsNull) false [] :=
      .query ((UnionType.anyMember_of hj Ty.admitsNull).trans (by rw [hnull]))
    have hboth : Answers s t (query (UnionType.of j).admitsNull <&&>
        pure !s.options.scalarArrayKeyCast) false [] := hadmits.quiet (.pure false)
    exact hboth.quiet (.pure ())

/-- What the check of an index of a shape reports. An index of which nothing is known passes it. -/
def checkIndexKinds (o : Options) (fields : ShapeFields) (j : TypeId) (ty : Ty) : List IssueKind :=
  if (UnionType.of j).hasMixed || ty.isTemplate then []
  else checkKeyKinds o ((ShapeFields.keyKind fields).getD .mixed) ty

/-- An index of a shape is checked against the kind of its keys. -/
theorem answers_checkIndex (ht : t.Rooted) (hbase : ∀ i ∈ base.members, i < t.size)
    (hi : t.get? i = some ⟨.shape fields, false⟩) (hj : t.get? j = some ty)
    (hnull : ty.admitsNull = false) :
    Answers s t (v.checkIndex n base (.of i) (.of j)) () (checkIndexKinds s.options fields j ty) := by
  have hnonempty : (UnionType.of j).isEmpty = false := by
    rw [← Bool.not_eq_true, UnionType.isEmpty_iff, UnionType.members_of]
    exact List.cons_ne_nil _ _
  unfold checkIndex checkIndexKinds
  rw [hnonempty, Bool.false_or]
  cases (UnionType.of j).hasMixed with
  | true => exact .pure ()
  | false =>
    refine (Answers.query (UnionType.anyMember_of hj Ty.isTemplate)).quiet ?_
    cases ty.isTemplate with
    | true => exact .pure ()
    | false =>
      refine (Answers.query (UnionType.keyKind_of hi)).quiet ?_
      exact answers_checkKey ht hbase hj hnull _

/-- A shape that has the key holds the type of its field there. -/
theorem answers_indexShapes (hi : t.get? i = some ⟨.shape fields, false⟩) {child : Child}
    {key : ShapeKey} {field : ShapeField} {index : UnionType} (hkey : child.literalKey? = some key)
    (hfield : ShapeFields.get? fields key = some field) :
    Answers s t (v.indexShapes n base (.of i) (some (child, index)))
      (UnionType.empty.union field.type) [] := by
  have hothers : (do (← (UnionType.of i).withoutShapes t).hasArrayLike t) = .ok false := by
    rw [UnionType.withoutShapes_of hi rfl]
    rfl
  unfold indexShapes
  refine (Answers.query hothers).quiet ?_
  refine Answers.quiet (a := some key)
    (fun w hw => ⟨w, literalKey_of hkey index, hw, .of_eq rfl⟩) ?_
  exact (Answers.query (UnionType.shapeField?_of hi hfield)).quiet (.pure _)

/-- No object of a shape can be indexed like an array. -/
theorem answers_hasArrayAccess (hi : t.get? i = some ty) (hclass : ty.className? = none) :
    Answers s t (hasArrayAccess (.of i)) false [] :=
  (Answers.query (UnionType.classNames_of hi hclass)).quiet (.pure false)

/-- A shape is not the type of all values. -/
theorem not_hasMixed_of_shape (ht : t.Rooted) (hi : t.get? i = some ⟨.shape fields, nullable⟩) :
    (UnionType.of i).hasMixed = false := by
  rw [← Bool.not_eq_true, UnionType.hasMixed, UnionType.contains, List.contains_iff_mem,
    UnionType.mem_of]
  rintro rfl
  cases hi.symm.trans (ht.get?_native .mixed)

/-- What indexing a shape that may be null reports of the shape. -/
def nullableKinds (nullable : Bool) : List IssueKind :=
  if nullable then [.typeArraySuspiciousNullable] else []

/-- A shape that may be null is reported for it. -/
theorem answers_reportNull (ht : t.Rooted) (hi : t.get? i = some ⟨.shape fields, nullable⟩)
    {nonNull : UnionType} (hnonNull : ∀ k ∈ nonNull.members, k < t.size) :
    Answers s t (v.reportNull n (.of i) nonNull) () (nullableKinds nullable) := by
  have hquery : Answers s t (query (UnionType.of i).admitsNull) (nullable || false) [] :=
    .query (UnionType.anyMember_of hi Ty.admitsNull)
  rw [Bool.or_false] at hquery
  have hadmits : Answers s t
      (query (UnionType.of i).admitsNull <&&> pure !(UnionType.of i).hasMixed) nullable [] := by
    cases nullable with
    | true =>
      rw [not_hasMixed_of_shape ht hi]
      exact hquery.quiet (.pure _)
    | false => exact hquery.quiet (.pure _)
  refine hadmits.quiet ?_
  cases nullable with
  | true =>
    obtain ⟨text, htext⟩ := Answers.display (s := s) hnonNull
    exact htext.quiet (.report _ _ _ _)
  | false => exact .pure ()

/-- A shape that has the key holds the type of its field there. Besides null, only the check of the
index is reported. -/
theorem dimKnown_of_shape_reports {w : World} {child : Child} {key : ShapeKey} {field : ShapeField}
    {fields' : ShapeFields} (hkey : child.literalKey? = some key)
    (hwithout : (UnionType.of i).withoutNull w.types = .ok (.of i', t)) (ht : t.Rooted)
    (hi : t.get? i = some ⟨.shape fields', nullable⟩)
    (hi' : t.get? i' = some ⟨.shape fields, false⟩) (hj : t.get? j = some ty)
    (hnull : ty.admitsNull = false) (hfield : ShapeFields.get? fields key = some field) :
    ∃ w', v.dimKnown n (.of i) (some (child, .of j)) s w =
        .ok (.ok ((UnionType.empty.union (UnionType.empty.union field.type)).union .empty), w') ∧
      w.Reports (nullableKinds nullable ++ checkIndexKinds s.options fields j ty) w' := by
  have hlt {k : TypeId} {ty : Ty} (hk : t.get? k = some ty) :
      ∀ k' ∈ (UnionType.of k).members, k' < t.size :=
    fun k' hk' => UnionType.mem_of.1 hk' ▸ TypeTable.lt_size_of_get? hk
  have hany (p : Ty → Bool) : Answers s t (query fun t => (UnionType.of i').anyMember t p)
      (p ⟨.shape fields, false⟩) [] := .query (UnionType.anyMember_of hi' p)
  have hnoArray : UnionType.empty.hasArrayLike t = .ok false := rfl
  have harray : Answers s t
      (query UnionType.empty.hasArrayLike <||> pure UnionType.empty.hasMixed) false [] :=
    (Answers.query hnoArray).quiet (.pure _)
  have hobject : Answers s t
      (query (UnionType.of i').hasTemplate <||> hasArrayAccess (.of i')) false [] :=
    (hany Ty.isTemplate).quiet (answers_hasArrayAccess hi' rfl)
  have hnonNull : types (UnionType.of i).withoutNull s w =
      .ok (.ok (.of i'), { w with types := t }) := types_eq_ok.2 ⟨_, t, hwithout, rfl, rfl⟩
  unfold dimKnown
  refine Answers.after hnonNull (.of_eq rfl) rfl ?_
  refine (hany Ty.isShape).quiet ((answers_indexShapes hi' hkey hfield).quiet ?_)
  refine (Answers.query (UnionType.withoutShapes_of hi' rfl)).quiet (harray.quiet ?_)
  refine (Answers.pure UnionType.empty).quiet ((hany Ty.isStringLike).quiet (hobject.quiet ?_))
  have hcheck : Answers s t (v.checkIndex? n (.of i) (.of i') (some (child, .of j))) ()
      (checkIndexKinds s.options fields j ty) := answers_checkIndex ht (hlt hi) hi' hj hnull
  refine (answers_reportNull ht hi (hlt hi')).bind ?_
  rw [← List.append_nil (checkIndexKinds s.options fields j ty)]
  exact hcheck.bind (.pure _)

/-- Indexing a shape under a key that it has gives the type of the field. Besides null, only the check
of the index is reported. -/
theorem dim_of_shape_reports {w w₁ w₂ : World} {expr child : Child} {key : ShapeKey}
    {field : ShapeField} {fields' : ShapeFields}
    (hexpr : n.child? "expr" = some expr) (hdim : optional? n "dim" = some child)
    (hkey : child.literalKey? = some key) (hbase : v.visit expr s w = .ok (.ok (.of i), w₁))
    (hindex : v.visit child s w₁ = .ok (.ok (.of j), w₂))
    (hwithout : (UnionType.of i).withoutNull w₂.types = .ok (.of i', t)) (ht : t.Rooted)
    (hi : t.get? i = some ⟨.shape fields', nullable⟩)
    (hi' : t.get? i' = some ⟨.shape fields, false⟩) (hj : t.get? j = some ty)
    (hnull : ty.admitsNull = false) (hfield : ShapeFields.get? fields key = some field) :
    ∃ x w₃, v.dim n s w = .ok (.ok x, w₃) ∧ x.SameMembers field.type ∧
      w₂.Reports (nullableKinds nullable ++ checkIndexKinds s.options fields j ty) w₃ := by
  have hrequired : required n "expr" s w = .ok (.ok expr, w) := by
    rw [required, hexpr]
    rfl
  have hindexType : v.indexType n s w₁ = .ok (.ok (some (child, .of j)), w₂) := by
    rw [indexType, hdim]
    exact (bind_of_ok hindex).trans rfl
  have hsome : ¬ (UnionType.of i).isEmpty = true := by
    rw [UnionType.isEmpty_iff, UnionType.members_of]
    exact List.cons_ne_nil _ _
  obtain ⟨w₃, hknown, hreports⟩ := dimKnown_of_shape_reports (v := v) (n := n) (s := s) hkey
    hwithout ht hi hi' hj hnull hfield
  have hmembers : ((UnionType.empty.union (UnionType.empty.union field.type)).union .empty).SameMembers
      field.type := fun m => by simp
  refine ⟨_, w₃, ?_, hmembers, hreports⟩
  rw [dim_eq, bind_of_ok hrequired, bind_of_ok hbase, bind_of_ok hindexType, if_neg hsome]
  exact hknown

end Evaluator

/-! ### Literals as indexes -/

/-- The options show the text of a string in its type. -/
def Options.ShowsText (o : Options) (x : String) : Prop :=
  o.literalScalarTypes = true ∧ x.utf8ByteSize ≤ o.maxLiteralStringLength

instance (o : Options) (x : String) : Decidable (o.ShowsText x) := inferInstanceAs (Decidable (_ ∧ _))

/-- The kinds of types that literals have which are keys: the literal itself, or its built-in type. -/
inductive Child.KeyTyped (o : Options) : Child → TypeKind → Prop
  | int (n : Int) (h : o.literalScalarTypes = true) : KeyTyped o (.int n) (.intLiteral n)
  | anyInt (n : Int) (h : o.literalScalarTypes = false) : KeyTyped o (.int n) (.native .int)
  | string (x : String) (h : o.ShowsText x) : KeyTyped o (.str x) (.stringLiteral x)
  | anyString (x : String) (h : ¬ o.ShowsText x) : KeyTyped o (.str x) (.native .string)

/-- The type of the index hides which integer it denotes: it is a string of which the options do not
show the text, which are not cast to keys, and all keys of the shape are integers. -/
def Child.HidesKey (o : Options) (fields : ShapeFields) : Child → Prop
  | .str x => ¬ o.ShowsText x ∧ o.scalarArrayKeyCast = false ∧ ∀ f ∈ fields, f.1.kind = .int
  | _ => False

instance (o : Options) (fields : ShapeFields) (child : Child) : Decidable (child.HidesKey o fields) :=
  match child with
  | .str _ => inferInstanceAs (Decidable (_ ∧ _ ∧ _))
  | .node _ | .int _ | .float _ | .bool _ | .null => inferInstanceAs (Decidable False)

/-- A literal that is asked for is found. -/
theorem TypeTable.Canonical.find_literal {t : TypeTable} (hc : t.Canonical) {kind : TypeKind}
    (hkind : kind.IsLiteral) : ∃ i t₁, TypeM.intern kind false t = .ok (i, t₁) ∧
      t.Grows TypeKind.WellNamed t₁ ∧ t₁.get? i = some ⟨kind, false⟩ := by
  have hnamed : kind.WellNamed := by cases kind <;> trivial
  have hinside : ∀ e ∈ kind.embedded, e < t.size := by
    cases kind <;> first | exact hkind.elim | simp [TypeKind.embedded]
  obtain ⟨i, t₁, found, hrun, hgrows, hi, halike⟩ := hc.exists_intern hnamed hinside
  have heq : found = kind := by
    cases kind <;> first | exact hkind.elim | skip
    all_goals cases found <;> first | exact halike.elim | exact congrArg _ halike
  exact ⟨i, t₁, hrun, hgrows, heq ▸ hi⟩

namespace AnalysisM

/-- A literal that is a key has one type, which is the literal itself or its built-in type. -/
theorem literalType_keyTyped {s : Setup} {w : World} {child : Child} {key : ShapeKey}
    (hkey : child.literalKey? = some key) (hc : w.types.Canonical) :
    ∃ i t₁ kind, literalType (child.scalar?.getD .null) s w =
        .ok (.ok (.of i), { w with types := t₁ }) ∧
      w.types.Grows TypeKind.WellNamed t₁ ∧ t₁.get? i = some ⟨kind, false⟩ ∧
      child.KeyTyped s.options kind := by
  suffices h : ∀ x, child.scalar? = some x → ∃ i t₁ kind,
      UnionType.ofScalar x s.options w.types = .ok (.of i, t₁) ∧
        w.types.Grows TypeKind.WellNamed t₁ ∧ t₁.get? i = some ⟨kind, false⟩ ∧
        child.KeyTyped s.options kind by
    obtain ⟨x, hx⟩ : ∃ x, child.scalar? = some x := by
      cases child <;> first | exact ⟨_, rfl⟩ | cases hkey
    obtain ⟨i, t₁, kind, hrun, h⟩ := h x hx
    refine ⟨i, t₁, kind, ?_, h⟩
    rw [hx]
    exact (bind_of_ok (a := s.options) rfl).trans (types_eq_ok.2 ⟨.of i, t₁, hrun, rfl, rfl⟩)
  have hliteral {k : TypeKind} (htyped : child.KeyTyped s.options k) (hk : k.IsLiteral) :
      ∃ i t₁ kind, (UnionType.of <$> TypeM.intern k false) w.types = .ok (.of i, t₁) ∧
        w.types.Grows TypeKind.WellNamed t₁ ∧ t₁.get? i = some ⟨kind, false⟩ ∧
        child.KeyTyped s.options kind := by
    obtain ⟨i, t₁, hrun, hgrows, hi⟩ := hc.find_literal hk
    refine ⟨i, t₁, k, ?_, hgrows, hi, htyped⟩
    rw [map_eq_pure_bind]
    exact TypeM.bind_eq_ok.2 ⟨i, t₁, hrun, rfl⟩
  have hnative {k : NativeKind} (htyped : child.KeyTyped s.options (.native k)) : ∃ i t₁ kind,
      (pure (UnionType.native k) : TypeM UnionType) w.types = .ok (.of i, t₁) ∧
        w.types.Grows TypeKind.WellNamed t₁ ∧ t₁.get? i = some ⟨kind, false⟩ ∧
        child.KeyTyped s.options kind :=
    ⟨k.id, w.types, .native k, rfl, .refl hc, TypeTable.get?_eq (hc.natives k), htyped⟩
  cases child with
  | int n =>
    rintro _ ⟨⟩
    rw [UnionType.ofScalar]
    split
    · next h => exact hliteral (.int n h) trivial
    · next h => exact hnative (.anyInt n (Bool.not_eq_true _ ▸ h))
  | str x =>
    rintro _ ⟨⟩
    rw [UnionType.ofScalar]
    split
    · next h => exact hliteral (.string x (by simpa [Options.ShowsText] using h)) trivial
    · next h => exact hnative (.anyString x (by simpa [Options.ShowsText] using h))
  | _ => cases hkey

end AnalysisM

/-! ### The check of an index that finds its field -/

namespace Evaluator

variable {o : Options} {child : Child} {kind : TypeKind} {key : ShapeKey} {fields : ShapeFields}

/-- A literal fits the keys of a shape that has it as a key unless its type hides the key. -/
theorem acceptsIndex_iff (h : child.KeyTyped o kind) (hkey : child.literalKey? = some key)
    {field : ShapeField} (hmem : (key, field) ∈ fields) :
    acceptsIndex o.scalarArrayKeyCast ((ShapeFields.keyKind fields).getD .mixed) ⟨kind, false⟩ = true ↔
      ¬ child.HidesKey o fields := by
  have hall : (∀ f ∈ fields, f.1.kind = .int) ↔ ShapeFields.keyKind fields = some .int := by
    rw [ShapeFields.keyKind, KeyKind.mergeAll_eq_some_iff, KeyKind.Covers, List.forall_mem_map]
    simp [List.ne_nil_of_mem hmem, -Prod.forall]
  obtain ⟨k, hk⟩ := Option.ne_none_iff_exists'.1
    (mt ShapeFields.keyKind_eq_none_iff.1 (List.ne_nil_of_mem hmem))
  obtain ⟨-, hcovers⟩ := KeyKind.mergeAll_eq_some_iff.1 hk
  have hcovered : k = key.kind ∨ k = .mixed :=
    hcovers.imp (fun h => (h _ (List.mem_map_of_mem hmem)).symm) And.left
  simp only [hk, Option.some.injEq] at hall
  rw [hk, Option.getD_some]
  cases h with
  | int n | anyInt n =>
    cases hkey
    rcases hcovered with rfl | rfl <;>
      simp [Child.HidesKey, acceptsIndex, isWhole, Ty.isIntLike, ShapeKey.kind]
  | string x hshows =>
    cases hkey
    rw [Child.HidesKey, hall]
    rcases hcovered with rfl | rfl
    · cases hx : (ShapeKey.ofText x).kind <;>
        simp [acceptsIndex, isWhole, Ty.isStringLike, hx, hshows]
    · simp [acceptsIndex, Ty.isStringLike]
  | anyString x hhides =>
    cases hkey
    rw [Child.HidesKey, hall]
    cases k <;>
      simp +contextual [acceptsIndex, isWhole, Ty.isStringLike, Ty.isIntLike, hhides]

/-- What is reported of an index that finds its field. -/
def hiddenKinds (o : Options) (fields : ShapeFields) (child : Child) : List IssueKind :=
  if child.HidesKey o fields then [.typeMismatchDimFetch] else []

theorem checkIndexKinds_eq (h : child.KeyTyped o kind) (hkey : child.literalKey? = some key)
    {field : ShapeField} (hmem : (key, field) ∈ fields) {j : TypeId} (hj : j ≠ NativeKind.mixed.id) :
    checkIndexKinds o fields j ⟨kind, false⟩ = hiddenKinds o fields child := by
  have hmixed : (UnionType.of j).hasMixed = false := by
    rw [← Bool.not_eq_true, UnionType.hasMixed, UnionType.contains, List.contains_iff_mem,
      UnionType.mem_of]
    exact fun h => hj h.symm
  have htemplate : (⟨kind, false⟩ : Ty).isTemplate = false := by cases h <;> rfl
  rw [checkIndexKinds, hmixed, htemplate, Bool.false_or, if_neg Bool.false_ne_true, checkKeyKinds,
    hiddenKinds]
  have hfits := acceptsIndex_iff h hkey hmem
  by_cases hhides : child.HidesKey o fields
  · rw [if_neg (mt hfits.1 (not_not.2 hhides)), if_pos hhides]
  · rw [if_pos (hfits.2 hhides), if_neg hhides]

end Evaluator

/-! ### Shapes without null -/

theorem ShapeFields.exists_get?_of_alike {fs gs : ShapeFields} (h : List.Forall₂ ShapeField.Alike fs gs)
    {key : ShapeKey} {g : ShapeField} (hg : ShapeFields.get? gs key = some g) :
    ∃ f, ShapeFields.get? fs key = some f ∧ f.type.SameMembers g.type := by
  induction h with
  | nil => cases hg
  | @cons f g' fs gs hfg h ih =>
    rw [ShapeFields.get?, List.lookup_cons, ← hfg.1] at hg
    rw [ShapeFields.get?, List.lookup_cons]
    split at hg
    · obtain rfl := Option.some.inj hg
      exact ⟨f.2, rfl, hfg.2.2⟩
    · exact ih hg

theorem Evaluator.hiddenKinds_of_alike {o : Options} {child : Child} {fs gs : ShapeFields}
    (h : List.Forall₂ ShapeField.Alike fs gs) : hiddenKinds o fs child = hiddenKinds o gs child := by
  have hkeys : fs.map Prod.fst = gs.map Prod.fst :=
    List.forall₂_eq_eq_eq ▸ List.rel_map (fun _ _ h => h.1) h
  have hints (fields : ShapeFields) : (∀ f ∈ fields, f.1.kind = .int) ↔
      ∀ key ∈ fields.map Prod.fst, key.kind = .int := by rw [List.forall_mem_map]
  have hhides : child.HidesKey o fs ↔ child.HidesKey o gs := by
    cases child with
    | str x => simp only [Child.HidesKey, hints, hkeys]
    | _ => rfl
  simp only [hiddenKinds, hhides]

/-- Without null, a shape has the same fields. -/
theorem UnionType.exists_withoutNull_shape {t : TypeTable} (hc : t.Canonical) (ht : t.Rooted)
    {i : TypeId} {fields : ShapeFields} {nullable : Bool}
    (hi : t.get? i = some ⟨.shape fields, nullable⟩) :
    ∃ i' t₁ fields', (UnionType.of i).withoutNull t = .ok (.of i', t₁) ∧
      t.Grows TypeKind.WellNamed t₁ ∧ t₁.get? i' = some ⟨.shape fields', false⟩ ∧
      List.Forall₂ ShapeField.Alike fields' fields := by
  cases nullable with
  | false =>
    exact ⟨i, t, fields, withoutNull_of ht hi rfl, .refl hc, hi, TypeKind.Alike.refl (.shape fields)⟩
  | true =>
    have hwrites := hc.writable_get? hi
    obtain ⟨i', t₁, found, hrun, hgrows, hi', halike⟩ :=
      hc.exists_intern hwrites.named hwrites.inside
    cases found with
    | shape fields' =>
      refine ⟨i', t₁, fields', ?_, hgrows, hi', halike⟩
      have hne : i ≠ NativeKind.null.id := by
        rintro rfl
        cases hi.symm.trans (ht.get?_native .null)
      obtain ⟨e, he, hty⟩ := Option.map_eq_some_iff.1 hi
      refine withoutNull_of_withNull hne (TypeM.bind_eq_ok.2
        ⟨_, t, TypeM.fetch_eq_ok.2 ⟨rfl, e, he, rfl⟩, ?_⟩)
      rw [hty]
      exact hrun
    | _ => exact halike.elim

/-! ### Indexing under a literal -/

namespace AnalysisM

variable {levels : Nat} {catching : Bool} {c : Context} {s : Setup} {w w₁ : World}

theorem evaluateWithin_of_literalKey {child : Child} {key : ShapeKey}
    (hkey : child.literalKey? = some key) (levels : Nat) (catching : Bool) (c : Context) :
    evaluateWithin levels catching c child = literalType (child.scalar?.getD .null) := by
  cases child with
  | node n => cases hkey
  | _ => exact evaluateWithin.eq_def levels catching c _

variable {d : Node} {base child : Child} {i : TypeId} {fields : ShapeFields} {nullable : Bool}
  {key : ShapeKey} {field : ShapeField}

/-- Indexing a shape under a literal that is one of its keys gives the type of the field. All that is
reported is that the shape may be null, and that the type of the literal hides the key. -/
theorem evaluateWithin_shapeField (hkind : d.kind = .dim) (hexpr : d.child? "expr" = some base)
    (hdim : optional? d "dim" = some child) (hkept : (w.cacheOf c)[d.id]? = none)
    (hbase : evaluateWithin levels catching c base s w = .ok (.ok (.of i), w₁))
    (hc : w₁.types.Canonical) (ht : w₁.types.Rooted)
    (hi : w₁.types.get? i = some ⟨.shape fields, nullable⟩)
    (hkey : child.literalKey? = some key) (hfield : ShapeFields.get? fields key = some field) :
    ∃ x w₂, evaluateWithin (levels + 1) catching c (.node d) s w = .ok (.ok x, w₂) ∧
      x.SameMembers field.type ∧
      w₁.Reports (Evaluator.nullableKinds nullable ++ Evaluator.hiddenKinds s.options fields child)
        w₂ := by
  obtain ⟨j, t₁, kind, hindex, hgrows, hj, htyped⟩ := literalType_keyTyped (s := s) hkey hc
  have hvisit : evaluateWithin levels catching c child s w₁ =
      .ok (.ok (.of j), { w₁ with types := t₁ }) := by
    rw [evaluateWithin_of_literalKey hkey, hindex]
  have ht₁ := hgrows.keeps.rooted ht
  obtain ⟨i', t₂, fields', hwithout, hgrows', hi', halike⟩ := UnionType.exists_withoutNull_shape
    hgrows.canonical ht₁ (hgrows.keeps.keeps.get? hi)
  obtain ⟨field', hfield', hsame⟩ := ShapeFields.exists_get?_of_alike halike hfield
  have hne : j ≠ NativeKind.mixed.id := by
    rintro rfl
    cases hj.symm.trans (ht₁.get?_native .mixed)
    cases htyped
  have hnull : (⟨kind, false⟩ : Ty).admitsNull = false := by cases htyped <;> rfl
  obtain ⟨x, w₂, hrun, hx, hreports⟩ := Evaluator.dim_of_shape_reports
    (v := ⟨c, catching, evaluateWithin levels⟩) hexpr hdim hkey hbase hvisit hwithout
    (hgrows'.keeps.rooted ht₁) (hgrows'.keeps.keeps.get? (hgrows.keeps.keeps.get? hi)) hi'
    (hgrows'.keeps.keeps.get? hj) hnull hfield'
  refine ⟨x, w₂.remember c d.id x, evaluateWithin_of_node hkept ?_, hx.trans hsame, ?_⟩
  · rw [Evaluator.node, hkind]
    exact hrun
  · rw [← Evaluator.hiddenKinds_of_alike halike,
      ← Evaluator.checkIndexKinds_eq htyped hkey (TypeKind.mem_of_lookup hfield') hne]
    exact hreports

/-- Indexing a shape under a literal that is one of its keys gives the type of the field. That the
index does not fit is reported exactly if the type of the literal hides the key. -/
theorem evaluateWithin_shapeIndex (hkind : d.kind = .dim) (hexpr : d.child? "expr" = some base)
    (hdim : optional? d "dim" = some child) (hkept : (w.cacheOf c)[d.id]? = none)
    (hbase : evaluateWithin levels catching c base s w = .ok (.ok (.of i), w₁))
    (hc : w₁.types.Canonical) (ht : w₁.types.Rooted)
    (hi : w₁.types.get? i = some ⟨.shape fields, nullable⟩)
    (hkey : child.literalKey? = some key) (hfield : ShapeFields.get? fields key = some field) :
    ∃ x w₂, evaluateWithin (levels + 1) catching c (.node d) s w = .ok (.ok x, w₂) ∧
      x.SameMembers field.type ∧
      ((∃ issue : Issue, issue.Reported w₁ w₂ ∧ issue.kind = .typeMismatchDimFetch) ↔
        child.HidesKey s.options fields) := by
  obtain ⟨x, w₂, hrun, hx, hreports⟩ :=
    evaluateWithin_shapeField hkind hexpr hdim hkept hbase hc ht hi hkey hfield
  refine ⟨x, w₂, hrun, hx, hreports.mem_iff.trans ?_⟩
  have hnullable : IssueKind.typeMismatchDimFetch ∉ Evaluator.nullableKinds nullable := by
    cases nullable <;> decide
  rw [List.mem_append, or_iff_right hnullable, Evaluator.hiddenKinds]
  split
  · next h => exact iff_of_true (List.mem_singleton_self _) h
  · next h => exact iff_of_false List.not_mem_nil h

/-! ### A row with one number -/

/-- The scope of a function with the variable `$row`. -/
def rowWorld (t : TypeTable) (i : TypeId) : World where
  types := t
  base := .create false
  scopes := #[Scope.function.add "row" (.of i)]
  caches := #[{}]

/-- A use of the variable `$row`. -/
def useOfRow : Node := ⟨1, .variable, 0, 1, [(.name "name", .str "row")]⟩

/-- The expression `$row["0"]`. -/
def firstOfRow : Node :=
  ⟨0, .dim, 0, 1, [(.name "expr", .node useOfRow), (.name "dim", .str "0")]⟩

theorem evaluateWithin_useOfRow (s : Setup) (t : TypeTable) (i : TypeId) :
    evaluateWithin 1 true outside (.node useOfRow) s (rowWorld t i) =
      .ok (.ok (.of i), (rowWorld t i).remember outside useOfRow.id (.of i)) :=
  evaluateWithin_variable rfl rfl rfl (Scope.get?_function_add "row" _) Std.HashMap.getElem?_empty

/-- There is a shape whose only field is an integer under 0. -/
theorem exists_row : ∃ (t : TypeTable) (i : TypeId) (fields : ShapeFields) (field : ShapeField),
    t.Canonical ∧ t.Rooted ∧ t.get? i = some ⟨.shape fields, false⟩ ∧
      fields.map Prod.fst = [.int 0] ∧ ShapeFields.get? fields (.int 0) = some field ∧
      field.type.SameMembers (.native .int) := by
  have hrooted := TypeTable.rooted_initial false
  have hbounded : ∀ key ∈ [ShapeKey.int 0], key.Bounded :=
    List.forall_mem_singleton.2 fun i hi => by cases hi; decide
  have hin : ∀ value ∈ [UnionType.native .int], ∀ i ∈ value.members,
      i < (TypeTable.initial false).size :=
    List.forall_mem_singleton.2 fun i hi =>
      UnionType.mem_of.1 hi ▸ hrooted.native_lt_size .int
  obtain ⟨-, t, -, hgrows, i, fields, -, hi, halike⟩ :=
    UnionType.exists_shape (TypeTable.canonical_initial false) hbounded hin
  have hint : ShapeFields.get? (ShapeFields.ofLists [.int 0] [.native .int]) (.int 0) =
      some { type := .native .int } := by decide
  obtain ⟨field, hfield, hsame⟩ := ShapeFields.exists_get?_of_alike halike hint
  refine ⟨t, i, fields, field, hgrows.canonical, hgrows.keeps.rooted hrooted, hi, ?_, hfield, hsame⟩
  exact List.forall₂_eq_eq_eq ▸ List.rel_map (fun _ _ h => h.1) halike

/-- Where the options show the texts of strings, the number is found in silence. -/
theorem evaluateWithin_firstOfRow : ∃ (w w₁ w₂ : World) (i : TypeId) (fields : ShapeFields)
    (x : UnionType),
    evaluateWithin 1 true outside (.node useOfRow) {} w = .ok (.ok (.of i), w₁) ∧
    w₁.types.get? i = some ⟨.shape fields, false⟩ ∧ fields.map Prod.fst = [.int 0] ∧
    evaluateWithin 2 true outside (.node firstOfRow) {} w = .ok (.ok x, w₂) ∧
    x.SameMembers (.native .int) ∧
    ¬ ∃ issue : Issue, issue.Reported w₁ w₂ ∧ issue.kind = .typeMismatchDimFetch := by
  obtain ⟨t, i, fields, field, hc, ht, hi, hkeys, hfield, hsame⟩ := exists_row
  have hbase := evaluateWithin_useOfRow {} t i
  have hkey : (Child.str "0").literalKey? = some (.int 0) := by decide
  obtain ⟨x, w₂, hrun, hx, hreports⟩ := evaluateWithin_shapeIndex (d := firstOfRow) rfl rfl rfl
    Std.HashMap.getElem?_empty hbase hc ht hi hkey hfield
  have hshows : ({} : Options).ShowsText "0" := by decide
  exact ⟨_, _, w₂, i, fields, x, hbase, hi, hkeys, hrun, hx.trans hsame,
    mt hreports.1 fun h => h.1 hshows⟩

/-- Where the options give all strings one type, the number is found as well, and the index is
reported not to fit. -/
theorem not_silent_firstOfRow : ∃ (s : Setup) (w w₁ w₂ : World) (i : TypeId) (fields : ShapeFields)
    (x : UnionType),
    evaluateWithin 1 true outside (.node useOfRow) s w = .ok (.ok (.of i), w₁) ∧
    w₁.types.get? i = some ⟨.shape fields, false⟩ ∧ fields.map Prod.fst = [.int 0] ∧
    evaluateWithin 2 true outside (.node firstOfRow) s w = .ok (.ok x, w₂) ∧
    x.SameMembers (.native .int) ∧ w₁.Reports [.typeMismatchDimFetch] w₂ := by
  let s : Setup := { options := { literalScalarTypes := false } }
  obtain ⟨t, i, fields, field, hc, ht, hi, hkeys, hfield, hsame⟩ := exists_row
  have hbase := evaluateWithin_useOfRow s t i
  have hkey : (Child.str "0").literalKey? = some (.int 0) := by decide
  obtain ⟨x, w₂, hrun, hx, hreports⟩ := evaluateWithin_shapeField (d := firstOfRow) rfl rfl rfl
    Std.HashMap.getElem?_empty hbase hc ht hi hkey hfield
  have hints : ∀ f ∈ fields, f.1.kind = .int := by
    have h : ∀ key ∈ fields.map Prod.fst, key.kind = .int := by
      rw [hkeys]
      decide
    exact List.forall_mem_map.1 h
  have hhides : (Child.str "0").HidesKey s.options fields := ⟨by decide, rfl, hints⟩
  rw [Evaluator.hiddenKinds, if_pos hhides] at hreports
  exact ⟨s, _, _, w₂, i, fields, x, hbase, hi, hkeys, hrun, hx.trans hsame, hreports⟩

end AnalysisM

end UnionInference
