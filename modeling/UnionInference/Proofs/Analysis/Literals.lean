import UnionInference.Proofs.Analysis.Calls
import UnionInference.Proofs.Analysis.Frame
import UnionInference.Proofs.Types.Arrays
import UnionInference.Proofs.Types.NullCasts

/-!
Array literals. The keys of a literal are told by its elements alone: a key is written, or it follows
the integers among the keys before it. What is collected from the elements is told by their keys and
values, as each element adds its own. So a literal whose keys differ is the shape with these keys and
values, and any other one is an array over the widened values.
-/

namespace UnionInference

/-! ### Keys -/

namespace ShapeKey

/-- The integer, if the key is one. -/
def int? : ShapeKey → Option Int
  | .int i => some i
  | .str _ => none

/-- The key of an element that has none and comes after others: zero, or one more than the largest
integer among their keys if that is larger. -/
def following (earlier : List ShapeKey) : Int :=
  match (earlier.filterMap int?).max? with
  | some i => max 0 (Text.clampInteger (i + 1))
  | none => 0

theorem max?_concat (is : List Int) (i : Int) :
    (is ++ [i]).max? = some (is.max?.elim i fun j => max j i) := by
  induction is with
  | nil => rfl
  | cons j is ih =>
    rw [List.cons_append, List.max?_cons, ih, List.max?_cons]
    cases is.max? <;> simp

/-- A string key leaves the following key as it is, and an integer may raise it. -/
theorem following_concat (earlier : List ShapeKey) (key : ShapeKey) :
    following (earlier ++ [key]) =
      match key with
      | .int i => max (following earlier) (Text.clampInteger (i + 1))
      | .str _ => following earlier := by
  cases key with
  | str s =>
    have hints : (earlier ++ [str s]).filterMap int? = earlier.filterMap int? := by simp [int?]
    rw [following, hints]
    rfl
  | int i =>
    have hints : (earlier ++ [int i]).filterMap int? = earlier.filterMap int? ++ [i] := by
      simp [int?]
    rw [following, hints, max?_concat, following]
    cases (earlier.filterMap int?).max? with
    | none => rfl
    | some j =>
      simp only [Option.elim, Text.clampInteger]
      omega

theorem isInteger_following (earlier : List ShapeKey) : Text.isInteger (following earlier) = true := by
  rw [following]
  split
  · rw [Int.max_def]
    split
    · exact isInteger_clampInteger _
    · decide
  · decide

end ShapeKey

theorem KeyKind.mergeAll_concat (kinds : List KeyKind) (kind : KeyKind) :
    mergeAll (kinds ++ [kind]) = some (((mergeAll kinds).map fun old => old.merge kind).getD kind) := by
  cases kinds with
  | nil => rfl
  | cons k ks => simp [mergeAll]

/-! ### What is collected -/

/-- The fields with these keys and types, none of which may be missing. -/
def ShapeFields.ofLists (keys : List ShapeKey) (values : List UnionType) : ShapeFields :=
  (keys.zip values).map fun p => (p.1, { type := p.2 })

namespace ShapeFields

variable {keys : List ShapeKey} {values : List UnionType}

theorem keys_ofLists (h : keys.length = values.length) :
    (ofLists keys values).map Prod.fst = keys := by
  rw [ofLists, List.map_map]
  exact List.map_fst_zip h.le

theorem ofLists_concat (h : keys.length = values.length) (key : ShapeKey) (value : UnionType) :
    ofLists (keys ++ [key]) (values ++ [value]) =
      ofLists keys values ++ [(key, { type := value })] := by
  rw [ofLists, List.zip_append h, List.map_append]
  rfl

theorem mem_ofLists {f : ShapeKey × ShapeField} (h : f ∈ ofLists keys values) :
    f.1 ∈ keys ∧ f.2.type ∈ values := by
  obtain ⟨p, hp, rfl⟩ := List.mem_map.1 h
  exact List.of_mem_zip hp

theorem get?_eq_none_iff {fields : ShapeFields} {key : ShapeKey} :
    get? fields key = none ↔ key ∉ fields.map Prod.fst := by
  rw [get?, List.lookup_eq_none_iff, List.mem_map, not_exists]
  simp only [not_and]
  exact forall_congr' fun f => imp_congr_right fun _ => bne_iff_ne.trans ne_comm

end ShapeFields

/-- This is what is known from elements with these keys and values. -/
structure LiteralKeys.Tells (k : LiteralKeys) (keys : List ShapeKey) (values : List UnionType) :
    Prop where
  length : keys.length = values.length
  next : k.next = ShapeKey.following keys
  keyKind : k.keyKind = KeyKind.mergeAll (keys.map ShapeKey.kind)
  union : k.values = values.foldl UnionType.union .empty
  isShape : k.isShape = true ↔ keys.Nodup
  fields : keys.Nodup → k.fields = ShapeFields.ofLists keys values

namespace LiteralKeys.Tells

variable {k : LiteralKeys} {keys : List ShapeKey} {values : List UnionType}

theorem start : ({} : LiteralKeys).Tells [] [] :=
  ⟨rfl, rfl, rfl, rfl, by simp, fun _ => rfl⟩

/-- An element adds its key and its value. -/
theorem addKnown (h : k.Tells keys values) (key : ShapeKey) (value : UnionType) :
    (k.addKnown key value).Tells (keys ++ [key]) (values ++ [value.orMixed]) where
  length := by rw [List.length_append, List.length_append, h.length]; rfl
  next := by
    rw [ShapeKey.following_concat, ← h.next]
    cases key <;> rfl
  keyKind := by
    rw [List.map_append, List.map_singleton, KeyKind.mergeAll_concat, ← h.keyKind]
    rfl
  union := by
    rw [List.foldl_append, ← h.union]
    rfl
  isShape := by
    show (k.isShape && (ShapeFields.get? k.fields key).isNone) = true ↔ _
    rw [Bool.and_eq_true, h.isShape, Option.isNone_iff_eq_none, List.nodup_append]
    by_cases hkeys : keys.Nodup
    · rw [ShapeFields.get?_eq_none_iff, h.fields hkeys, ShapeFields.keys_ofLists h.length]
      simpa [hkeys] using ⟨fun hnot a ha heq => hnot (heq ▸ ha), fun hne hmem => hne key hmem rfl⟩
    · simp [hkeys]
  fields hnodup := by
    obtain ⟨hkeys, -, hnot⟩ := List.nodup_append.1 hnodup
    have hnew : key ∉ k.fields.map Prod.fst := by
      rw [h.fields hkeys, ShapeFields.keys_ofLists h.length]
      exact fun hmem => hnot key hmem key (List.mem_singleton_self _) rfl
    show ShapeFields.insert k.fields key _ = _
    rw [ShapeFields.insert_of_not_mem hnew, h.fields hkeys, ShapeFields.ofLists_concat h.length]

end LiteralKeys.Tells

/-! ### Elements -/

namespace Child

/-- The key that a literal stands for: an integer, or a string, which may denote one. -/
def literalKey? : Child → Option ShapeKey
  | .int n => some (.int n)
  | .str s => some (.ofText s)
  | _ => none

end Child

/-- The elements of an array literal. -/
def literalElements (n : Node) : List Node := n.list.filterMap Child.node?

/-- The key that is written in an element, if it has one. -/
def writtenKey? (e : Node) : Option ShapeKey := (optional? e "key").bind Child.literalKey?

/-- The element is not unpacked, and its key is left out, an integer of 64 bits or a string. -/
structure PlainElement (e : Node) : Prop where
  kind : e.kind ≠ .unpack
  key : ∀ child, optional? e "key" = some child →
    ∃ key, child.literalKey? = some key ∧ key.Bounded

/-- The key of an element that comes after others with these keys. -/
def elementKey (earlier : List ShapeKey) (e : Node) : ShapeKey :=
  (writtenKey? e).getD (.int (ShapeKey.following earlier))

/-- The keys of the elements of an array literal. -/
def elementKeys (n : Node) : List ShapeKey :=
  (literalElements n).foldl (fun earlier e => earlier ++ [elementKey earlier e]) []

namespace Evaluator

open AnalysisM

/-- The type of the value of an element; its key is evaluated afterwards. -/
def elementValue (v : Evaluator) (e : Node) : AnalysisM UnionType := do
  let value ← v.visit (← required e "value")
  match optional? e "key" with
  | some child => let _ ← v.visit child
  | none => pure ()
  return value.orMixed

/-- The types of the values of an array literal, evaluated in order. -/
def elementValues (v : Evaluator) (n : Node) : AnalysisM (List UnionType) :=
  (literalElements n).mapM v.elementValue

variable {v : Evaluator} {s : Setup} {w w' : World} {e : Node} {k : LiteralKeys}
  {keys : List ShapeKey} {values us : List UnionType} {u : UnionType}

/-- The key of a literal is told without its type. -/
theorem literalKey_of {child : Child} {key : ShapeKey} (h : child.literalKey? = some key)
    (type : UnionType) : literalKey child type s w = .ok (.ok (some key), w) := by
  cases child <;> cases h <;> rfl

/-- A plain element adds its key and its value. -/
theorem addElement_of_tells (he : PlainElement e) (h : k.Tells keys values)
    (hrun : v.elementValue e s w = .ok (.ok u, w')) :
    ∃ k', v.addElement e k s w = .ok (.ok k', w') ∧
      k'.Tells (keys ++ [elementKey keys e]) (values ++ [u]) := by
  rw [addElement, if_neg he.kind]
  obtain ⟨child, w₁, hchild, hrun⟩ := bind_eq_ok.1 hrun
  obtain ⟨value, w₂, hvalue, hrun⟩ := bind_eq_ok.1 hrun
  rw [bind_of_ok hchild, bind_of_ok hvalue]
  cases hkey : optional? e "key" with
  | none =>
    rw [hkey] at hrun
    cases hrun
    have helement : elementKey keys e = .int k.next := by
      rw [elementKey, writtenKey?, hkey, h.next]
      rfl
    exact ⟨_, rfl, helement ▸ h.addKnown _ value⟩
  | some child =>
    rw [hkey] at hrun
    obtain ⟨type, w₃, htype, hrun⟩ := bind_eq_ok.1 hrun
    cases hrun
    obtain ⟨key, hchildKey, -⟩ := he.key child hkey
    have helement : elementKey keys e = key := by
      rw [elementKey, writtenKey?, hkey, Option.bind_some, hchildKey]
      rfl
    refine ⟨k.addKnown key value, ?_, helement ▸ h.addKnown key value⟩
    dsimp only
    rw [bind_of_ok htype, bind_of_ok (literalKey_of hchildKey type)]
    rfl

/-- Plain elements add their keys and values one after the other. -/
theorem addElements_of_tells {es : List Node} (hes : ∀ e ∈ es, PlainElement e)
    (h : k.Tells keys values) (hrun : es.mapM v.elementValue s w = .ok (.ok us, w')) :
    ∃ k', es.foldlM (fun k e => v.addElement e k) k s w = .ok (.ok k', w') ∧
      k'.Tells (es.foldl (fun earlier e => earlier ++ [elementKey earlier e]) keys)
        (values ++ us) := by
  induction es generalizing k keys values us w with
  | nil =>
    cases hrun
    exact ⟨k, rfl, (List.append_nil values).symm ▸ h⟩
  | cons e es ih =>
    obtain ⟨he, hes⟩ := List.forall_mem_cons.1 hes
    rw [List.mapM_cons] at hrun
    obtain ⟨u, w₁, hfirst, hrun⟩ := bind_eq_ok.1 hrun
    obtain ⟨us', w₂, hrest, hrun⟩ := bind_eq_ok.1 hrun
    cases hrun
    obtain ⟨k₁, hadd, h₁⟩ := addElement_of_tells he h hfirst
    obtain ⟨k', hfold, h'⟩ := ih hes h₁ hrest
    refine ⟨k', ?_, by rwa [List.append_assoc] at h'⟩
    rw [List.foldlM_cons, bind_of_ok hadd, hfold]

/-- What is collected from the elements of a literal is told by their keys and values. -/
theorem collects_elements {n : Node} (hplain : ∀ e ∈ literalElements n, PlainElement e)
    (hrun : v.elementValues n s w = .ok (.ok us, w')) :
    ∃ k, (literalElements n).foldlM (fun k e => v.addElement e k) {} s w = .ok (.ok k, w') ∧
      k.Tells (elementKeys n) us := by
  obtain ⟨k, hfold, h⟩ := addElements_of_tells hplain .start hrun
  exact ⟨k, hfold, by rwa [List.nil_append] at h⟩

theorem bounded_elementKey {e : Node} (he : PlainElement e) (earlier : List ShapeKey) :
    (elementKey earlier e).Bounded := by
  rw [elementKey, writtenKey?]
  cases hkey : optional? e "key" with
  | none =>
    rintro i ⟨⟩
    exact ShapeKey.isInteger_following earlier
  | some child =>
    obtain ⟨key, hchild, hbounded⟩ := he.key child hkey
    rw [Option.bind_some, hchild]
    exact hbounded

/-- The integers among the keys of a literal have 64 bits. -/
theorem bounded_elementKeys {n : Node} (hplain : ∀ e ∈ literalElements n, PlainElement e) :
    ∀ key ∈ elementKeys n, key.Bounded := by
  have hloop : ∀ (es : List Node) (keys : List ShapeKey), (∀ e ∈ es, PlainElement e) →
      (∀ key ∈ keys, key.Bounded) →
      ∀ key ∈ es.foldl (fun earlier e => earlier ++ [elementKey earlier e]) keys, key.Bounded := by
    intro es
    induction es with
    | nil => exact fun keys _ h => h
    | cons e es ih =>
      intro keys hes h
      obtain ⟨he, hes⟩ := List.forall_mem_cons.1 hes
      refine ih _ hes fun key hkey => ?_
      rcases List.mem_append.1 hkey with hkey | hkey
      · exact h key hkey
      · exact List.mem_singleton.1 hkey ▸ bounded_elementKey he keys
  exact hloop _ [] hplain nofun

/-- Of a value it is known that it is any value at least. -/
theorem members_elementValue_ne (hrun : v.elementValue e s w = .ok (.ok u, w')) :
    u.members ≠ [] := by
  obtain ⟨child, w₁, -, hrun⟩ := bind_eq_ok.1 hrun
  obtain ⟨value, w₂, -, hrun⟩ := bind_eq_ok.1 hrun
  have hvalue : u = value.orMixed := by
    cases hkey : optional? e "key" with
    | none =>
      rw [hkey] at hrun
      cases hrun
      rfl
    | some child =>
      rw [hkey] at hrun
      obtain ⟨type, w₃, -, hrun⟩ := bind_eq_ok.1 hrun
      cases hrun
      rfl
  exact hvalue ▸ value.orMixed_members_ne_nil

theorem members_elementValues_ne {es : List Node}
    (hrun : es.mapM v.elementValue s w = .ok (.ok us, w')) : ∀ u ∈ us, u.members ≠ [] := by
  induction es generalizing us w with
  | nil =>
    cases hrun
    nofun
  | cons e es ih =>
    rw [List.mapM_cons] at hrun
    obtain ⟨u, w₁, hfirst, hrun⟩ := bind_eq_ok.1 hrun
    obtain ⟨us', w₂, hrest, hrun⟩ := bind_eq_ok.1 hrun
    cases hrun
    exact List.forall_mem_cons.2 ⟨members_elementValue_ne hfirst, ih hrest⟩

end Evaluator

/-! ### What the literal is -/

namespace UnionType

open TypeTable

variable {t t₁ : TypeTable} {u : UnionType} {keys : List ShapeKey} {values : List UnionType}
  {kind : KeyKind}

/-- The only member is the shape with these keys and types of fields in this order, none of which may
be missing. -/
def IsShapeOf (t : TypeTable) (u : UnionType) (keys : List ShapeKey) (values : List UnionType) :
    Prop :=
  ∃ id fields, u = .of id ∧ t.get? id = some ⟨.shape fields, false⟩ ∧
    List.Forall₂ ShapeField.Alike fields (ShapeFields.ofLists keys values)

/-- The members are the arrays with keys of the kind whose elements are widened types of the values. -/
def IsArraysOf (t : TypeTable) (u : UnionType) (kind : KeyKind) (values : List UnionType) : Prop :=
  ∀ id, id ∈ u.members ↔ ∃ value ∈ values, ∃ m ∈ value.members, ∃ e,
    t.Widens m e ∧ t.get? id = some ⟨.array kind e, false⟩

/-- A shape that is asked for is found with its fields. -/
theorem exists_shape (hc : t.Canonical) (hbounded : ∀ key ∈ keys, key.Bounded)
    (hin : ∀ value ∈ values, ∀ i ∈ value.members, i < t.size) :
    ∃ id t₁, TypeM.intern (.shape (ShapeFields.ofLists keys values)) false t = .ok (id, t₁) ∧
      t.Grows TypeKind.WellNamed t₁ ∧ IsShapeOf t₁ (.of id) keys values := by
  have hnamed : (TypeKind.shape (ShapeFields.ofLists keys values)).WellNamed :=
    fun f hf i hi => hbounded f.1 (ShapeFields.mem_ofLists hf).1 i hi
  have hinside : ∀ e ∈ (TypeKind.shape (ShapeFields.ofLists keys values)).embedded, e < t.size := by
    intro e he
    obtain ⟨f, hf, he⟩ := List.mem_flatMap.1 he
    exact hin f.2.type (ShapeFields.mem_ofLists hf).2 e he
  obtain ⟨id, t₁, found, hrun, hgrows, hid, halike⟩ := hc.exists_intern hnamed hinside
  cases found with
  | shape fields => exact ⟨id, t₁, hrun, hgrows, id, fields, rfl, hid, halike⟩
  | _ => exact halike.elim

/-- Arrays that are asked for are found with their elements. -/
theorem exists_asArrays (hc : t.Canonical) (hu : ∀ e ∈ u.members, e < t.size) (key : KeyKind) :
    ∃ v t₁, u.asArrays key t = .ok (v, t₁) ∧ t.Grows TypeKind.WellNamed t₁ ∧
      ∀ id, id ∈ v.members ↔ ∃ e ∈ u.members, t₁.get? id = some ⟨.array key e, false⟩ := by
  have hloop : ∀ (es : List TypeId) (t : TypeTable), t.Canonical → (∀ e ∈ es, e < t.size) →
      ∃ ids t₁, es.mapM (fun e => TypeM.array key e false) t = .ok (ids, t₁) ∧
        t.Grows TypeKind.WellNamed t₁ ∧
        List.Forall₂ (fun e id => t₁.get? id = some ⟨.array key e, false⟩) es ids := by
    intro es
    induction es with
    | nil => exact fun t hc _ => ⟨[], t, rfl, .refl hc, .nil⟩
    | cons e es ih =>
      intro t hc hes
      obtain ⟨he, hes⟩ := List.forall_mem_cons.1 hes
      have hnamed : (TypeKind.array key e).WellNamed := trivial
      obtain ⟨id, t₁, hrun, hgrows, hfinds⟩ := TypeM.intern_spec hc false hnamed hnamed
        fun x hx => List.mem_singleton.1 hx ▸ he
      have hid : t₁.get? id = some ⟨.array key e, false⟩ :=
        hgrows.canonical.get?_of_finds_array (hgrows.keeps.lt_size he) hfinds
      obtain ⟨ids, t₂, hrest, hgrows', hids⟩ := ih t₁ hgrows.canonical fun x hx =>
        hgrows.keeps.lt_size (hes x hx)
      refine ⟨id :: ids, t₂, ?_, hgrows.trans hgrows', .cons (hgrows'.keeps.keeps.get? hid) hids⟩
      rw [List.mapM_cons]
      exact TypeM.bind_eq_ok.2 ⟨id, t₁, hrun, TypeM.bind_eq_ok.2 ⟨ids, t₂, hrest, rfl⟩⟩
  obtain ⟨ids, t₁, hrun, hgrows, hids⟩ := hloop u.members t hc hu
  refine ⟨.ofList ids, t₁, TypeM.bind_eq_ok.2 ⟨ids, t₁, hrun, rfl⟩, hgrows, fun id => ?_⟩
  rw [mem_ofList]
  constructor
  · exact fun hid => exists_of_forall₂ hids.flip hid
  · rintro ⟨e, he, hid⟩
    obtain ⟨j, hj, hget⟩ := exists_of_forall₂ hids he
    rwa [hgrows.canonical.get?_inj hid hget]

/-- With different keys it is the shape with these keys and values, and else the arrays of the widened
values whose keys are of the kind that covers all keys. -/
structure Collects (t : TypeTable) (u : UnionType) (keys : List ShapeKey)
    (values : List UnionType) : Prop where
  length : keys.length = values.length
  shape : keys.Nodup → IsShapeOf t u keys values
  arrays : ¬ keys.Nodup → ∃ kind, KeyKind.mergeAll (keys.map ShapeKey.kind) = some kind ∧
    IsArraysOf t u kind values

/-- The arrays of the widened values. -/
theorem exists_arraysOf (hc : t.Canonical) (ht : t.Rooted)
    (hin : ∀ value ∈ values, ∀ i ∈ value.members, i < t.size) (key : KeyKind)
    (hne : ∃ value ∈ values, value.members ≠ []) :
    ∃ elements v t₁, (values.foldl union empty).widenLiterals t = .ok (elements, t) ∧
      elements.orMixed.asArrays key t = .ok (v, t₁) ∧ t.Grows TypeKind.WellNamed t₁ ∧
      IsArraysOf t₁ v key values := by
  have hmem : ∀ i, i ∈ (values.foldl union empty).members ↔ ∃ value ∈ values, i ∈ value.members :=
    fun i => by simp [mem_foldl_union, members_empty]
  obtain ⟨elements, hwiden, himage⟩ := image_widenLiterals (u := values.foldl union empty) hc ht
    fun i hi => by
      obtain ⟨value, hvalue, hi⟩ := (hmem i).1 hi
      exact hin value hvalue i hi
  have helements : elements.orMixed = elements := by
    obtain ⟨value, hvalue, hne⟩ := hne
    obtain ⟨i, hi⟩ := List.exists_mem_of_ne_nil _ hne
    refine orMixed_of_members_ne_nil (himage.members_ne_nil (List.ne_nil_of_mem (a := i) ?_))
    exact (hmem i).2 ⟨value, hvalue, hi⟩
  obtain ⟨v, t₁, hrun, hgrows, hv⟩ := exists_asArrays (u := elements) hc (fun e he => by
    obtain ⟨i, -, hie⟩ := (himage.mem e).1 he
    exact hie.lt_size) key
  refine ⟨elements, v, t₁, hwiden, by rwa [helements], hgrows, fun id => (hv id).trans ?_⟩
  constructor
  · rintro ⟨e, he, hid⟩
    obtain ⟨i, hi, hie⟩ := (himage.mem e).1 he
    obtain ⟨value, hvalue, hi⟩ := (hmem i).1 hi
    exact ⟨value, hvalue, i, hi, e, hie.keeps hgrows.keeps.keeps, hid⟩
  · rintro ⟨value, hvalue, i, hi, e, hie, hid⟩
    obtain ⟨j, hij⟩ := ht.exists_widens (hin value hvalue i hi)
    have hsame := (hij.2.keeps hgrows.keeps.keeps).unique hgrows.canonical hie
    exact ⟨e, (himage.mem e).2 ⟨i, (hmem i).2 ⟨value, hvalue, hi⟩, hsame ▸ hij.2⟩, hid⟩

end UnionType

namespace Evaluator

open AnalysisM

variable {v : Evaluator} {s : Setup} {w w' : World} {n : Node} {us : List UnionType}

/-- A literal of plain elements with different keys asks for the shape with these keys and values. -/
theorem arrayLiteral_of_nodup {id : TypeId} {t₁ : TypeTable}
    (hplain : ∀ e ∈ literalElements n, PlainElement e) (hnodup : (elementKeys n).Nodup)
    (hrun : v.elementValues n s w = .ok (.ok us, w'))
    (hintern : TypeM.intern (.shape (ShapeFields.ofLists (elementKeys n) us)) false w'.types =
      .ok (id, t₁)) :
    v.arrayLiteral n s w = .ok (.ok (.of id), { w' with types := t₁ }) := by
  obtain ⟨k, hfold, h⟩ := collects_elements hplain hrun
  rw [arrayLiteral]
  refine (bind_of_ok hfold).trans ?_
  rw [if_pos (h.isShape.2 hnodup), h.fields hnodup]
  exact (bind_of_ok (types_eq_ok.2 ⟨id, t₁, hintern, rfl, rfl⟩)).trans rfl

/-- An array literal of plain elements is told by the keys and values of these. -/
theorem arrayLiteral_spec (hc : w'.types.Canonical) (ht : w'.types.Rooted)
    (hin : ∀ u ∈ us, ∀ i ∈ u.members, i < w'.types.size)
    (hplain : ∀ e ∈ literalElements n, PlainElement e)
    (hrun : v.elementValues n s w = .ok (.ok us, w')) :
    ∃ u t₁, v.arrayLiteral n s w = .ok (.ok u, { w' with types := t₁ }) ∧
      w'.types.Grows TypeKind.WellNamed t₁ ∧ u.Collects t₁ (elementKeys n) us := by
  obtain ⟨k, hfold, h⟩ := collects_elements hplain hrun
  by_cases hnodup : (elementKeys n).Nodup
  · obtain ⟨id, t₁, hintern, hgrows, hshape⟩ :=
      UnionType.exists_shape hc (bounded_elementKeys hplain) hin
    exact ⟨.of id, t₁, arrayLiteral_of_nodup hplain hnodup hrun hintern, hgrows, h.length,
      fun _ => hshape, fun hnot => absurd hnodup hnot⟩
  · -- keys that are not all different are not all missing
    obtain ⟨kind, hkind⟩ : ∃ kind, KeyKind.mergeAll ((elementKeys n).map ShapeKey.kind) = some kind := by
      rw [← Option.ne_none_iff_exists', ne_eq, KeyKind.mergeAll_eq_none_iff, List.map_eq_nil_iff]
      rintro hnil
      simp [hnil] at hnodup
    have hne : ∃ u ∈ us, u.members ≠ [] := by
      obtain ⟨u, hu⟩ : ∃ u, u ∈ us := by
        refine List.exists_mem_of_ne_nil _ fun hnil => hnodup ?_
        have hlength := h.length
        rw [hnil, List.length_nil, List.length_eq_zero_iff] at hlength
        simp [hlength]
      exact ⟨u, hu, members_elementValues_ne hrun u hu⟩
    obtain ⟨elements, u, t₁, hwiden, harrays, hgrows, hu⟩ :=
      UnionType.exists_arraysOf hc ht hin kind hne
    refine ⟨u, t₁, ?_, hgrows, h.length, fun h => absurd h hnodup, fun _ => ⟨kind, hkind, hu⟩⟩
    rw [arrayLiteral]
    refine (bind_of_ok hfold).trans ?_
    rw [if_neg (mt h.isShape.1 hnodup), h.keyKind, hkind, h.union]
    refine (bind_of_ok (types_eq_ok.2 ⟨elements, w'.types, hwiden, rfl, rfl⟩)).trans ?_
    exact types_eq_ok.2 ⟨u, t₁, harrays, rfl, rfl⟩

end Evaluator

end UnionInference
