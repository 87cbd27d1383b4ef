import UnionInference.Proofs.Analysis.ShapeIndexing

/-!
Indexing array literals. Under a key of a literal whose keys differ stands the value that the literal
has there, whether the key is given as an integer or as a string, and no key is reported missing. The
type of the index may still be reported: it may tell less of the key than the child does.
-/

namespace UnionInference

/-! ### Missing keys -/

/-- What is reported from one world to the other is no key that a shape does not have. -/
def World.KeysFound (w w' : World) : Prop :=
  ∃ is : List Issue, w'.issues.toList = w.issues.toList ++ is ∧
    ∀ i ∈ is, i.kind ≠ .typeInvalidDimOffset

namespace World.KeysFound

variable {w w₁ w' : World}

theorem of_eq (h : w'.issues = w.issues) : w.KeysFound w' := ⟨[], by simp [h], nofun⟩

theorem trans (h : w.KeysFound w₁) (h' : w₁.KeysFound w') : w.KeysFound w' := by
  obtain ⟨is, his, hkind⟩ := h
  obtain ⟨js, hjs, hkind'⟩ := h'
  refine ⟨is ++ js, by rw [hjs, his, List.append_assoc], fun i hi => ?_⟩
  exact (List.mem_append.1 hi).elim (hkind i) (hkind' i)

theorem of_reports {kinds : List IssueKind} (h : w.Reports kinds w')
    (hkinds : .typeInvalidDimOffset ∉ kinds) : w.KeysFound w' := by
  obtain ⟨is, his, rfl⟩ := h
  exact ⟨is, his, fun i hi hkind => hkinds (hkind ▸ List.mem_map_of_mem hi)⟩

theorem kind_ne (h : w.KeysFound w') {i : Issue} (hi : i.Reported w w') :
    i.kind ≠ .typeInvalidDimOffset := by
  obtain ⟨is, his, hkind⟩ := h
  rw [Issue.Reported, IssueLog.since, his] at hi
  rw [show w.issues.size = w.issues.toList.length from (Array.length_toList).symm,
    List.drop_left] at hi
  exact hkind i hi

end World.KeysFound

namespace Evaluator

variable {v : Evaluator} {n : Node} {s : Setup} {i j : TypeId} {ty : Ty} {fields : ShapeFields}

theorem not_mem_checkIndexKinds (o : Options) (fields : ShapeFields) (j : TypeId) (ty : Ty) :
    .typeInvalidDimOffset ∉ checkIndexKinds o fields j ty := by
  unfold checkIndexKinds checkKeyKinds
  split
  · exact List.not_mem_nil
  · split <;> decide

/-- Indexing a shape under a key that it has gives the type of the field. -/
theorem dim_of_shape {w w₁ w₂ : World} {expr child : Child} {key : ShapeKey} {field : ShapeField}
    (hexpr : n.child? "expr" = some expr) (hdim : optional? n "dim" = some child)
    (hkey : child.literalKey? = some key) (hbase : v.visit expr s w = .ok (.ok (.of i), w₁))
    (hindex : v.visit child s w₁ = .ok (.ok (.of j), w₂)) (ht : w₂.types.Rooted)
    (hi : w₂.types.get? i = some ⟨.shape fields, false⟩) (hj : w₂.types.get? j = some ty)
    (hnull : ty.admitsNull = false) (hfield : ShapeFields.get? fields key = some field) :
    ∃ x w₃, v.dim n s w = .ok (.ok x, w₃) ∧ x.SameMembers field.type ∧ w₂.KeysFound w₃ := by
  obtain ⟨x, w₃, hrun, hx, hreports⟩ := dim_of_shape_reports hexpr hdim hkey hbase hindex
    (UnionType.withoutNull_of ht hi rfl) ht hi hi hj hnull hfield
  exact ⟨x, w₃, hrun, hx, .of_reports hreports (not_mem_checkIndexKinds s.options fields j ty)⟩

end Evaluator

/-! ### Keys given by literals -/

/-- A literal that is asked for is found as a type without null. -/
theorem TypeTable.Canonical.exists_literal {t : TypeTable} (hc : t.Canonical) {kind : TypeKind}
    (hkind : kind.IsLiteral) : ∃ i t₁ ty, TypeM.intern kind false t = .ok (i, t₁) ∧
      t.Grows TypeKind.WellNamed t₁ ∧ t₁.get? i = some ty ∧ ty.admitsNull = false := by
  obtain ⟨i, t₁, hrun, hgrows, hi⟩ := hc.find_literal hkind
  exact ⟨i, t₁, _, hrun, hgrows, hi, by cases kind <;> first | rfl | exact hkind.elim⟩

/-- A literal that is a key has one type, which admits no null. -/
theorem AnalysisM.literalType_of_key {s : Setup} {w : World} {child : Child} {key : ShapeKey}
    (hkey : child.literalKey? = some key) (hc : w.types.Canonical) :
    ∃ i t₁ ty, literalType (child.scalar?.getD .null) s w =
        .ok (.ok (.of i), { w with types := t₁ }) ∧
      w.types.Grows TypeKind.WellNamed t₁ ∧ t₁.get? i = some ty ∧ ty.admitsNull = false := by
  obtain ⟨i, t₁, kind, hrun, hgrows, hi, htyped⟩ := literalType_keyTyped (s := s) hkey hc
  exact ⟨i, t₁, _, hrun, hgrows, hi, by cases htyped <;> rfl⟩

/-! ### Array literals -/

/-- The node indexes the literal under the key, which is given as an integer or as a string. -/
structure IndexesUnder (d literal : Node) (key : ShapeKey) : Prop where
  kind : d.kind = .dim
  expr : d.child? "expr" = some (.node literal)
  key : ∃ child, optional? d "dim" = some child ∧ child.literalKey? = some key

namespace UnionType

variable {t : TypeTable} {u value : UnionType} {keys : List ShapeKey} {values : List UnionType}

/-- The shape with these keys and values holds each value under its key. -/
theorem IsShapeOf.exists_field (h : u.IsShapeOf t keys values)
    (hlength : keys.length = values.length) (hnodup : keys.Nodup) {key : ShapeKey}
    (hmem : (key, value) ∈ keys.zip values) :
    ∃ id fields field, u = .of id ∧ t.get? id = some ⟨.shape fields, false⟩ ∧
      ShapeFields.get? fields key = some field ∧ field.type.SameMembers value := by
  obtain ⟨id, fields, rfl, hid, halike⟩ := h
  have hkeys : fields.map Prod.fst = keys := by
    refine Eq.trans ?_ (ShapeFields.keys_ofLists hlength)
    exact List.forall₂_eq_eq_eq ▸ List.rel_map (fun _ _ h => h.1) halike
  have hfield : (key, { type := value }) ∈ ShapeFields.ofLists keys values :=
    List.mem_map.2 ⟨(key, value), hmem, rfl⟩
  obtain ⟨⟨_, field⟩, hf, rfl, -, hsame⟩ := exists_of_forall₂ halike.flip hfield
  exact ⟨id, fields, field, rfl, hid, TypeKind.lookup_of_mem (hkeys ▸ hnodup) hf, hsame⟩

end UnionType

namespace Evaluator

open AnalysisM

variable {r : Regime} {v : Evaluator} {levels : Nat} {catching : Bool} {c : Context} {s : Setup}
  {w w' : World} {n : Node} {us : List UnionType}

theorem runs_elementValue (hv : v.Safe r s) (hw : w.Sound r s) (hn : n.Fits r) :
    Runs r s w (v.elementValue n) fun w₁ u => u.Inside w₁.types := by
  unfold elementValue
  refine (runs_required hw hn "value").bind fun child w₁ h₁ hchild => ?_
  refine (hv.visit h₁.sound hchild.1).bind fun value w₂ h₂ hvalue => ?_
  split
  · next key hkey =>
    refine (hv.visit h₂.sound (hn.optional? hkey)).bind fun type w₃ h₃ _ => ?_
    exact runs_pure h₃.sound ((hvalue.keeps h₃.keeps).orMixed h₃.sound.types)
  · exact runs_pure h₂.sound (hvalue.orMixed h₂.sound.types)

theorem runs_elementValues (hv : v.Safe r s) (hw : w.Sound r s) (hn : n.Fits r) :
    Runs r s w (v.elementValues n) fun w₁ us => ∀ u ∈ us, u.Inside w₁.types :=
  runs_mapM hw (fun _ _ _ h hu => hu.keeps h.keeps) fun _ _ he h =>
    runs_elementValue hv h.sound (hn.listNode he)

/-- Where names are regular, the elements of a literal leave a table in which the texts of types tell
them apart, with the built-in types in their places and the types of the values. -/
theorem canonical_elementValues (hstrict : r.strict) (hc : c.Fits r) (hn : n.Fits r)
    (hw : w.Sound r s) (ht : w.types.Rooted)
    (h : elementValues ⟨c, catching, evaluateWithin levels⟩ n s w = .ok (.ok us, w')) :
    w'.types.Canonical ∧ w'.types.Rooted ∧ ∀ u ∈ us, u.Inside w'.types := by
  obtain ⟨hleads, hus⟩ := (runs_elementValues
    (v := ⟨c, catching, evaluateWithin levels⟩) ⟨hc, runs_evaluateWithin levels⟩ hw hn).post h
  have hcanonical := hleads.sound.types.canonical hstrict
  exact ⟨hcanonical, hleads.keeps.rooted ht hcanonical, hus⟩

end Evaluator

namespace AnalysisM

variable {levels : Nat} {catching : Bool} {c : Context} {s : Setup} {w w' : World}
  {literal : Node} {us : List UnionType}

/-- An array literal of plain elements is the shape with their keys and values if the keys differ, and
indexing it under any of them gives the value there, and no key is reported missing. Otherwise it is
an array over the widened values, whose keys are of the kind that covers all keys. -/
theorem evaluateWithin_arrayLiteral (hkind : literal.kind = .array)
    (hplain : ∀ e ∈ literalElements literal, PlainElement e)
    (hkept : (w.cacheOf c)[literal.id]? = none)
    (hvalues : Evaluator.elementValues ⟨c, catching, evaluateWithin levels⟩ literal s w =
      .ok (.ok us, w'))
    (hc : w'.types.Canonical) (ht : w'.types.Rooted) (hin : ∀ u ∈ us, u.Inside w'.types) :
    ∃ u w₁, evaluateWithin (levels + 1) catching c (.node literal) s w = .ok (.ok u, w₁) ∧
      u.Collects w₁.types (elementKeys literal) us ∧
      ((elementKeys literal).Nodup → ∀ d key value, IndexesUnder d literal key →
        (key, value) ∈ (elementKeys literal).zip us → (w.cacheOf c)[d.id]? = none →
        ∃ x w₂, evaluateWithin (levels + 2) catching c (.node d) s w = .ok (.ok x, w₂) ∧
          x.SameMembers value ∧ ∀ i : Issue, i.Reported w' w₂ → i.kind ≠ .typeInvalidDimOffset) := by
  let v : Evaluator := ⟨c, catching, evaluateWithin levels⟩
  obtain ⟨u, t₁, hliteral, hgrows, hcollects⟩ := Evaluator.arrayLiteral_spec (v := v) hc ht
    (fun u hu i hi => (hin u hu i hi).lt_size) hplain hvalues
  let w₁ := World.remember { w' with types := t₁ } c literal.id u
  have hrun : evaluateWithin (levels + 1) catching c (.node literal) s w = .ok (.ok u, w₁) := by
    refine evaluateWithin_of_node hkept ?_
    rw [Evaluator.node, hkind]
    exact hliteral
  refine ⟨u, w₁, hrun, hcollects, fun hnodup d key value hd hmem hdkept => ?_⟩
  obtain ⟨child, hdim, hkey⟩ := hd.key
  obtain ⟨id, fields, field, rfl, hid, hfield, hsame⟩ :=
    (hcollects.shape hnodup).exists_field hcollects.length hnodup hmem
  obtain ⟨j, t₂, ty, hindex, hgrows', hj, hnull⟩ :=
    literalType_of_key (s := s) (w := w₁) hkey hgrows.canonical
  have hvisit : evaluateWithin (levels + 1) catching c child s w₁ =
      .ok (.ok (.of j), { w₁ with types := t₂ }) := by
    rw [evaluateWithin_of_literalKey hkey, hindex]
  obtain ⟨x, w₂, hdimRun, hx, hfound⟩ := Evaluator.dim_of_shape
    (v := ⟨c, catching, evaluateWithin (levels + 1)⟩) hd.expr hdim hkey hrun hvisit
    (hgrows'.keeps.rooted (hgrows.keeps.rooted ht)) (hgrows'.keeps.keeps.get? hid) hj hnull hfield
  refine ⟨x, w₂.remember c d.id x, evaluateWithin_of_node hdkept ?_, hx.trans hsame, ?_⟩
  · rw [Evaluator.node, hd.kind]
    exact hdimRun
  · have hlog : w'.KeysFound w₂ := (World.KeysFound.of_eq rfl).trans hfound
    exact fun i hi => hlog.kind_ne hi

/-! ### Literals of the number seven -/

/-- An element with the value `7`; it has no key when its key is null. -/
def sevenUnder (id : Nat) (key : Child) : Node :=
  ⟨id, .arrayElem, 0, 1, [(.name "value", .int 7), (.name "key", key)]⟩

/-- The node is such an element, with a key that may stand in a literal or with none. -/
def IsSeven (e : Node) : Prop :=
  ∃ id key, e = sevenUnder id key ∧ (key = .null ∨ ∃ k, key.literalKey? = some k ∧ k.Bounded)

theorem isSeven_null (id : Nat) : IsSeven (sevenUnder id .null) := ⟨id, .null, rfl, .inl rfl⟩

theorem isSeven_string (id : Nat) (x : String) : IsSeven (sevenUnder id (.str x)) :=
  ⟨id, .str x, rfl, .inr ⟨_, rfl, ShapeKey.bounded_ofText x⟩⟩

theorem IsSeven.plain {e : Node} (h : IsSeven e) : PlainElement e := by
  obtain ⟨id, key, rfl, hkey⟩ := h
  refine ⟨by show NodeKind.arrayElem ≠ _; decide, fun child hchild => ?_⟩
  obtain ⟨hfound, hnull⟩ := Option.filter_eq_some_iff.1 hchild
  cases hfound
  refine hkey.resolve_left ?_
  rintro rfl
  cases hnull

theorem IsSeven.value {e : Node} (h : IsSeven e) : e.child? "value" = some (.int 7) := by
  obtain ⟨id, key, rfl, -⟩ := h
  rfl

/-- The literal `["a" => 7, 7, "5" => 7, 7]`. -/
def mixedSevens : Node :=
  ⟨0, .array, 0, 1, [(.index 0, .node (sevenUnder 1 (.str "a"))),
    (.index 1, .node (sevenUnder 2 .null)), (.index 2, .node (sevenUnder 3 (.str "5"))),
    (.index 3, .node (sevenUnder 4 .null))]⟩

/-- The literal `["0" => 7, 7, 0 => 7]`, in which a key comes twice. -/
def repeatedSevens : Node :=
  ⟨0, .array, 0, 1, [(.index 0, .node (sevenUnder 1 (.str "0"))),
    (.index 1, .node (sevenUnder 2 .null)), (.index 2, .node (sevenUnder 3 (.int 0)))]⟩

/-- Literals have types, so the elements that are made of literals have values. -/
theorem exists_elementValues {v : Evaluator} {es : List Node}
    (hv : v.run = evaluateWithin levels) (hes : ∀ e ∈ es, IsSeven e) (hc : w.types.Canonical) :
    ∃ us w', es.mapM v.elementValue s w = .ok (.ok us, w') := by
  have hvisit {child : Child} {key : ShapeKey} (hkey : child.literalKey? = some key) {w : World}
      (hc : w.types.Canonical) :
      ∃ u w₁, v.visit child s w = .ok (.ok u, w₁) ∧ w₁.types.Canonical := by
    obtain ⟨i, t₁, ty, hrun, hgrows, -⟩ := literalType_of_key (s := s) hkey hc
    refine ⟨.of i, { w with types := t₁ }, ?_, hgrows.canonical⟩
    rw [Evaluator.visit, hv, evaluateWithin_of_literalKey hkey, hrun]
  induction es generalizing w with
  | nil => exact ⟨[], w, rfl⟩
  | cons e es ih =>
    obtain ⟨he, hes⟩ := List.forall_mem_cons.1 hes
    have hfirst : ∃ u w₁, v.elementValue e s w = .ok (.ok u, w₁) ∧ w₁.types.Canonical := by
      obtain ⟨u, w₁, hrun, hc₁⟩ := hvisit (show (Child.int 7).literalKey? = some _ from rfl) hc
      have hrequired : required e "value" s w = .ok (.ok (.int 7), w) := by
        rw [required, he.value]
        rfl
      rw [Evaluator.elementValue, bind_of_ok hrequired, bind_of_ok hrun]
      cases hkey : optional? e "key" with
      | none => exact ⟨_, w₁, rfl, hc₁⟩
      | some child =>
        obtain ⟨key, hchildKey, -⟩ := he.plain.key child hkey
        obtain ⟨u', w₂, hrun', hc₂⟩ := hvisit hchildKey hc₁
        dsimp only
        rw [bind_of_ok hrun']
        exact ⟨_, w₂, rfl, hc₂⟩
    obtain ⟨u, w₁, hrun, hc₁⟩ := hfirst
    obtain ⟨us, w₂, hrest⟩ := ih hes hc₁
    refine ⟨u :: us, w₂, ?_⟩
    rw [List.mapM_cons, bind_of_ok hrun, bind_of_ok hrest]
    rfl

/-- A world without classes, scopes and stores is as sound as its table. -/
theorem sound_new {t : TypeTable} (ht : t.Sound .regular) :
    ({ types := t, base := .create true } : World).Sound .regular {} where
  shallow := by
    have hnone : ∀ c u, (CodeBase.create true).declared? c ≠ some u := by
      intro c u
      rw [CodeBase.declared?, CodeBase.class?_create]
      simp [CodeBase.create]
    refine .of_walks ht (CodeBase.sound_create .regular t true) (fun c u hu => ?_) ?_
    · exact absurd hu (hnone c u)
    · intro c walk hlength hchain
      obtain ⟨d, rest, rfl⟩ := List.exists_cons_of_length_pos (l := walk) (by rw [hlength]; decide)
      obtain ⟨-, u, hu, -⟩ := (List.isChain_cons_cons.1 hchain).1
      exact hnone c u hu
  scopes := by simp
  caches := by simp
  whenTrue := by simp
  whenFalse := by simp

theorem fits_sevenUnder {id : Nat} {key : Child}
    (hkey : key.Fits .regular) : (sevenUnder id key).Fits .regular := by
  have hline : Text.isInteger ((1 : Nat) : Int) = true := by decide
  refine .intro ⟨nofun, fun _ => hline⟩ ?_
  rintro n ⟨⟩ e he
  rcases List.mem_pair.1 he with rfl | rfl
  · exact .intro (fun _ => by decide) nofun
  · exact hkey

theorem fits_string (x : String) : (Child.str x).Fits .regular :=
  .intro (fun _ h => h.elim) nofun

theorem fits_mixedSevens : mixedSevens.Fits .regular := by
  refine .intro ⟨nofun, fun _ => by decide⟩ ?_
  rintro n ⟨⟩ e he
  rcases List.mem_cons.1 he with rfl | he
  · exact fits_sevenUnder (fits_string "a")
  rcases List.mem_cons.1 he with rfl | he
  · exact fits_sevenUnder (.intro trivial nofun)
  rcases List.mem_pair.1 he with rfl | rfl
  · exact fits_sevenUnder (fits_string "5")
  · exact fits_sevenUnder (.intro trivial nofun)

theorem fits_repeatedSevens : repeatedSevens.Fits .regular := by
  refine .intro ⟨nofun, fun _ => by decide⟩ ?_
  rintro n ⟨⟩ e he
  rcases List.mem_cons.1 he with rfl | he
  · exact fits_sevenUnder (fits_string "0")
  rcases List.mem_pair.1 he with rfl | rfl
  · exact fits_sevenUnder (.intro trivial nofun)
  · exact fits_sevenUnder (.intro (fun _ => by decide) nofun)

theorem isSeven_mixedSevens : ∀ e ∈ literalElements mixedSevens, IsSeven e := by
  intro e he
  have hmem : e ∈ [sevenUnder 1 (.str "a"), sevenUnder 2 .null, sevenUnder 3 (.str "5"),
    sevenUnder 4 .null] := he
  simp only [List.mem_cons, List.not_mem_nil, or_false] at hmem
  rcases hmem with rfl | rfl | rfl | rfl
  · exact isSeven_string 1 "a"
  · exact isSeven_null 2
  · exact isSeven_string 3 "5"
  · exact isSeven_null 4

theorem isSeven_repeatedSevens : ∀ e ∈ literalElements repeatedSevens, IsSeven e := by
  intro e he
  have hmem : e ∈ [sevenUnder 1 (.str "0"), sevenUnder 2 .null, sevenUnder 3 (.int 0)] := he
  simp only [List.mem_cons, List.not_mem_nil, or_false] at hmem
  rcases hmem with rfl | rfl | rfl
  · exact isSeven_string 1 "0"
  · exact isSeven_null 2
  · exact ⟨3, .int 0, rfl, .inr ⟨_, rfl, by rintro i ⟨⟩; decide⟩⟩

/-- Both literals are evaluated: the first one is the shape with its four keys, and under each of
them it has the value there; the second one is an array with integer keys. -/
theorem evaluateWithin_mixedSevens : ∃ (w w₁ w₂ : World) (u v : UnionType) (us vs : List UnionType),
    w = .create {} ∧
    evaluateWithin 1 true outside (.node mixedSevens) {} w = .ok (.ok u, w₁) ∧
    u.IsShapeOf w₁.types [.str "a", .int 0, .int 5, .int 6] us ∧ us.length = 4 ∧
    (∀ d key value, IndexesUnder d mixedSevens key →
      (key, value) ∈ [.str "a", .int 0, .int 5, .int 6].zip us → ∃ x w₃,
        evaluateWithin 2 true outside (.node d) {} w = .ok (.ok x, w₃) ∧ x.SameMembers value) ∧
    evaluateWithin 1 true outside (.node repeatedSevens) {} w = .ok (.ok v, w₂) ∧
    v.IsArraysOf w₂.types .int vs ∧ vs.length = 3 := by
  have hsound := sound_new (TypeTable.sound_initial .regular false)
  have hrooted := TypeTable.rooted_initial false
  have hcanonical := TypeTable.canonical_initial false
  have hcreate : World.create {} = { types := .initial false, base := .create true } := rfl
  rw [hcreate]
  generalize TypeTable.initial false = t at hsound hrooted hcanonical ⊢
  let w : World := { types := t, base := .create true }
  have hstored (n : Nat) : (w.cacheOf outside)[n]? = none := Std.HashMap.getElem?_empty
  -- the keys differ
  obtain ⟨us, w', hvalues⟩ := exists_elementValues
    (v := ⟨outside, true, evaluateWithin 0⟩) (s := {}) (w := w) rfl isSeven_mixedSevens hcanonical
  obtain ⟨hc, ht, hin⟩ := Evaluator.canonical_elementValues trivial (fits_outside _)
    fits_mixedSevens hsound hrooted hvalues
  obtain ⟨u, w₁, hrun, hcollects, hindex⟩ := evaluateWithin_arrayLiteral (w := w)
    (rfl : mixedSevens.kind = .array) (fun e he => (isSeven_mixedSevens e he).plain) (hstored _)
    hvalues hc ht hin
  have hkeys : elementKeys mixedSevens = [.str "a", .int 0, .int 5, .int 6] := by decide
  rw [hkeys] at hcollects hindex
  -- a key comes twice
  obtain ⟨vs, w'', hvalues'⟩ := exists_elementValues
    (v := ⟨outside, true, evaluateWithin 0⟩) (s := {}) (w := w) rfl isSeven_repeatedSevens hcanonical
  obtain ⟨hc', ht', hin'⟩ := Evaluator.canonical_elementValues trivial (fits_outside _)
    fits_repeatedSevens hsound hrooted hvalues'
  obtain ⟨v, w₂, hrun', hcollects', -⟩ := evaluateWithin_arrayLiteral (w := w)
    (rfl : repeatedSevens.kind = .array) (fun e he => (isSeven_repeatedSevens e he).plain)
    (hstored _) hvalues' hc' ht' hin'
  have hkeys' : elementKeys repeatedSevens = [.int 0, .int 1, .int 0] := by decide
  rw [hkeys'] at hcollects'
  obtain ⟨kind, hkind, harrays⟩ := hcollects'.arrays (by decide)
  obtain rfl : KeyKind.int = kind := by
    simpa [KeyKind.mergeAll, ShapeKey.kind, KeyKind.merge] using hkind
  refine ⟨w, w₁, w₂, u, v, us, vs, rfl, hrun, hcollects.shape (by decide), hcollects.length.symm,
    fun d key value hd hmem => ?_, hrun', harrays, hcollects'.length.symm⟩
  obtain ⟨x, w₃, hdim, hx, -⟩ := hindex (by decide) d key value hd hmem (hstored _)
  exact ⟨x, w₃, hdim, hx⟩

/-! ### A placeholder that is written like a shape

A placeholder may be called what the shape of a literal is called. If it was there first, the literal
is the placeholder. -/

/-- The element of the literal, which has no key. -/
def seven : Node := ⟨1, .arrayElem, 0, 1, [(.name "value", .int 7), (.name "key", .null)]⟩

/-- The literal `[7]`. -/
def sevens : Node := ⟨0, .array, 0, 1, [(.index 0, .node seven)]⟩

theorem plainElement_seven : ∀ e ∈ literalElements sevens, PlainElement e :=
  List.forall_mem_singleton.2 ⟨by decide, nofun⟩

/-- The value of the element is the type of the number. -/
theorem elementValues_sevens {t t₁ : TypeTable} {i : TypeId} (b : CodeBase)
    (h : TypeM.intern (.intLiteral 7) false t = .ok (i, t₁)) :
    Evaluator.elementValues ⟨outside, true, evaluateWithin 0⟩ sevens {} { types := t, base := b } =
      .ok (.ok [.of i], { types := t₁, base := b }) := by
  let v : Evaluator := ⟨outside, true, evaluateWithin 0⟩
  have hvisit : v.visit (.int 7) {} { types := t, base := b } =
      .ok (.ok (.of i), { types := t₁, base := b }) := by
    have hkey : (Child.int 7).literalKey? = some (.int 7) := rfl
    show evaluateWithin 0 true outside (.int 7) {} _ = _
    rw [evaluateWithin_of_literalKey hkey]
    refine (bind_of_ok (a := ({} : Options)) rfl).trans (types_eq_ok.2 ⟨.of i, t₁, ?_, rfl, rfl⟩)
    show (UnionType.of <$> TypeM.intern (.intLiteral 7) false) t = _
    rw [map_eq_pure_bind]
    exact TypeM.bind_eq_ok.2 ⟨i, t₁, h, rfl⟩
  have helement : v.elementValue seven {} { types := t, base := b } =
      .ok (.ok (.of i), { types := t₁, base := b }) := by
    rw [Evaluator.elementValue, bind_of_ok (a := .int 7) rfl, bind_of_ok hvisit,
      UnionType.orMixed_of]
    rfl
  rw [Evaluator.elementValues, show literalElements sevens = [seven] from rfl, List.mapM_cons]
  exact (bind_of_ok helement).trans rfl

/-- The placeholder with the text of a shape, and the type of the element. -/
def oddRows : List TypeEntry :=
  [⟨⟨.template "array\x7b0:7\x7d", false⟩, "array\x7b0:7\x7d"⟩, ⟨⟨.intLiteral 7, false⟩, "7"⟩]

/-- Where they are found. -/
def oddNames : List (String × TypeId) :=
  [("7", 32), ("7", 32), ("array\x7b0:7\x7d", 31), ("array\x7b0:7\x7d", 31)]

/-- The shape of the literal is looked for by its text. -/
theorem writes_shapeOfSevens {t : TypeTable} (h : t.Lists oddRows oddNames) :
    t.Writes (.shape (ShapeFields.ofLists [.int 0] [.of 32])) false
      ⟨.shape (ShapeFields.ofLists [.int 0] [.of 32]), false⟩ "array\x7b0:7\x7d"
      "array\x7b0:7\x7d" := by
  have hseven := h.entry (i := 32) (e := oddRows[1]) rfl
  have htext : t.renderField (.int 0) { type := .of 32 } = "0:7" := by
    rw [TypeTable.renderField, TypeTable.renderUnion_of, TypeTable.key_eq hseven]
    decide
  have hrender : t.render ⟨.shape (ShapeFields.ofLists [.int 0] [.of 32]), false⟩ =
      "array\x7b0:7\x7d" := by
    show "" ++ ("array\x7b" ++ Text.join "," [t.renderField (.int 0) { type := .of 32 }] ++ "\x7d") = _
    rw [htext]
    decide
  refine ⟨fun e he => ?_, rfl, hrender, hrender⟩
  obtain rfl : e = 32 := by simpa [TypeKind.embedded, ShapeFields.ofLists] using he
  exact TypeTable.lt_size_of_entry hseven

/-- The literal `[7]` is no shape when a placeholder with the text of the shape was there first. -/
theorem not_evaluateWithin_arrayLiteral : ∃ (w w' w₁ : World) (i : TypeId) (u : UnionType),
    TypeM.intern (.template "array\x7b0:7\x7d") false (.initial false) = .ok (31, w.types) ∧
    Evaluator.elementValues ⟨outside, true, evaluateWithin 0⟩ sevens {} w = .ok (.ok [.of i], w') ∧
    elementKeys sevens = [.int 0] ∧
    evaluateWithin 1 true outside (.node sevens) {} w = .ok (.ok u, w₁) ∧
    ¬ u.IsShapeOf w₁.types [.int 0] [.of i] := by
  obtain ⟨t, hodd, l, -⟩ := (TypeTable.lists_initial false).intern_new
    (TypeTable.writes_template _ "array\x7b0:7\x7d") (by decide) rfl
  have htext : "" ++ Text.decimal 7 = "7" := by decide
  have hwrites : t.Writes (.intLiteral 7) false ⟨.intLiteral 7, false⟩ "7" "7" :=
    ⟨by simp [TypeKind.embedded], rfl, htext, htext⟩
  obtain ⟨t', hseven, l', -⟩ := l.intern_new hwrites (by decide) rfl
  have hvalues := elementValues_sevens (.create true) hseven
  have hfound : oddNames.lookup "array\x7b0:7\x7d" = some 31 := rfl
  have hshape := l'.intern_found (writes_shapeOfSevens l') (by decide) hfound
  have hkeys : elementKeys sevens = [.int 0] := by decide
  have hliteral := Evaluator.arrayLiteral_of_nodup plainElement_seven (by decide) hvalues
    (hkeys ▸ hshape)
  refine ⟨{ types := t, base := .create true }, _, _, 32, .of 31, hodd, hvalues, hkeys,
    evaluateWithin_of_node Std.HashMap.getElem?_empty hliteral, ?_⟩
  rintro ⟨id, fields, hid, hget, -⟩
  obtain rfl : 31 = id := UnionType.mem_of.1 (hid ▸ UnionType.mem_of.2 rfl)
  cases hget.symm.trans (TypeTable.get?_eq (l'.entry (i := 31) (e := oddRows[0]) rfl))

end AnalysisM

end UnionInference
