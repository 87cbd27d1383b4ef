import Mathlib.Data.List.Forall2
import UnionInference.Proofs.Name
import UnionInference.Proofs.Types.Union

/-!
Canonical tables. In a canonical table each type stands under its own text and under the text by
which it is looked for, and under no other; types that are written alike have one place. A table
extends another one when it holds all that the other one holds in the same places, so the texts of
the types of the smaller table are the same in both.
-/

namespace UnionInference

/-! ### Types that are written alike -/

/-- Names by which types can be told apart: class names are made of segments, template names are
identifiers and not the names of built-in types, and integer keys have 64 bits. -/
def TypeKind.WellNamed : TypeKind → Prop
  | .object name _ => name.WellFormed
  | .template name => IsIdentifier name ∧ ∀ k : NativeKind, name ≠ k.name
  | .shape fields => ∀ f ∈ fields, ∀ n, f.1 = .int n → Text.isInteger n = true
  | _ => True

/-- The parameters are passed alike, and what they take has the same members; no members stand for
all values. -/
def CallableParam.Alike (p q : CallableParam) : Prop :=
  p.type.orMixed.SameMembers q.type.orMixed ∧ p.byRef = q.byRef ∧ p.variadic = q.variadic ∧
    p.optional = q.optional

/-- The fields have the same key and hold the same, and both may be missing or none. -/
def ShapeField.Alike (f g : ShapeKey × ShapeField) : Prop :=
  f.1 = g.1 ∧ f.2.optional = g.2.optional ∧ f.2.type.SameMembers g.2.type

/-- The kinds are equal up to the order of members, with class names compared as given. -/
def TypeKind.Alike (sameName : ClassName → ClassName → Prop) : TypeKind → TypeKind → Prop
  | .native j, .native k => j = k
  | .object a as, .object b bs => sameName a b ∧ List.Forall₂ UnionType.SameMembers as bs
  | .array j a, .array k b => j = k ∧ a = b
  | .shape fs, .shape gs => List.Forall₂ ShapeField.Alike fs gs
  | .intLiteral m, .intLiteral n => m = n
  | .stringLiteral r, .stringLiteral s => r = s
  | .callable r, .callable s =>
    r.isClosure = s.isClosure ∧ List.Forall₂ CallableParam.Alike r.params s.params ∧
      r.result.SameMembers s.result
  | .template r, .template s => r = s
  | _, _ => False

/-- The types are equal up to the order of members, with class names compared as given. -/
def Ty.Alike (sameName : ClassName → ClassName → Prop) (a b : Ty) : Prop :=
  a.nullable = b.nullable ∧ a.kind.Alike sameName b.kind

namespace TypeTable

/-- Everything is found under its own text and under the text by which it is looked for, and nothing
else is found. -/
structure Canonical (t : TypeTable) : Prop where
  keyed : ∀ (i : TypeId) (e : TypeEntry), t.entries[i]? = some e → e.key = t.render e.type
  keyFound : ∀ (i : TypeId) (e : TypeEntry), t.entries[i]? = some e → t.byKey[e.key]? = some i
  identityFound : ∀ (i : TypeId) (e : TypeEntry), t.entries[i]? = some e →
    t.byKey[t.identity e.type]? = some i
  onlyFound : ∀ (k : String) (i : TypeId), t.byKey[k]? = some i →
    ∃ e, t.entries[i]? = some e ∧ (k = e.key ∨ k = t.identity e.type)
  normal : ∀ (i : TypeId) (e : TypeEntry), t.entries[i]? = some e →
    e.type.nullable = true → e.type.kind.acceptsNull = true
  named : ∀ (i : TypeId) (e : TypeEntry), t.entries[i]? = some e → e.type.kind.WellNamed
  natives : ∀ k : NativeKind, t.entries[k.id]? = some ⟨⟨.native k, false⟩, k.name⟩

/-- What a type must fulfil to be written in a table. -/
structure Writable (t : TypeTable) (ty : Ty) : Prop where
  inside : ∀ e ∈ ty.kind.embedded, e < t.size
  normal : ty.nullable = true → ty.kind.acceptsNull = true
  named : ty.kind.WellNamed

/-- The second table holds all that the first one holds, in the same places. -/
structure Extends (t t' : TypeTable) : Prop where
  entries : ∀ (i : TypeId) (e : TypeEntry), t.entries[i]? = some e → t'.entries[i]? = some e
  byKey : ∀ (k : String) (i : TypeId), t.byKey[k]? = some i → t'.byKey[k]? = some i

section

variable {t t' t'' : TypeTable}

/-! ### Entries -/

theorem exists_entry {i : TypeId} (h : i < t.size) : ∃ e, t.entries[i]? = some e :=
  ⟨t.entries[i], Array.getElem?_eq_getElem h⟩

theorem lt_size_of_entry {i : TypeId} {e : TypeEntry} (h : t.entries[i]? = some e) : i < t.size :=
  (Array.getElem?_eq_some_iff.1 h).1

theorem key_eq {i : TypeId} {e : TypeEntry} (h : t.entries[i]? = some e) : t.key i = e.key := by
  rw [key, h]; rfl

theorem get?_eq {i : TypeId} {e : TypeEntry} (h : t.entries[i]? = some e) : t.get? i = some e.type := by
  rw [get?, h]; rfl

theorem fetch_eq {i : TypeId} {e : TypeEntry} (h : t.entries[i]? = some e) : t.fetch i = .ok e.type := by
  obtain ⟨hlt, rfl⟩ := Array.getElem?_eq_some_iff.1 h
  rw [fetch, fetchBelow, dif_pos hlt]; rfl

theorem fetch_eq_error {i : TypeId} (h : t.size ≤ i) : t.fetch i = .error (.unknownType i) := by
  have hout : ¬ i < t.entries.size := Nat.not_lt.2 h
  rw [fetch, fetchBelow, dif_neg hout]; rfl

/-- A type is made of types that stand before it. -/
theorem embedded_lt {i : TypeId} {e : TypeEntry} (h : t.entries[i]? = some e) {j : TypeId}
    (hj : j ∈ e.type.kind.embedded) : j < i := by
  obtain ⟨hlt, rfl⟩ := Array.getElem?_eq_some_iff.1 h
  exact t.grounded i hlt j hj

theorem Canonical.writable (hc : t.Canonical) {i : TypeId} {e : TypeEntry}
    (h : t.entries[i]? = some e) : t.Writable e.type where
  inside _ hj := (embedded_lt h hj).trans (lt_size_of_entry h)
  normal := hc.normal i e h
  named := hc.named i e h

/-- The texts of types tell the types apart. -/
theorem Canonical.key_injective (hc : t.Canonical) {i j : TypeId} (hi : i < t.size) (hj : j < t.size)
    (h : t.key i = t.key j) : i = j := by
  obtain ⟨e, he⟩ := exists_entry hi
  obtain ⟨f, hf⟩ := exists_entry hj
  rw [key_eq he, key_eq hf] at h
  have hfound := hc.keyFound i e he
  rw [h, hc.keyFound j f hf] at hfound
  exact (Option.some.inj hfound).symm

/-! ### Extension -/

theorem Extends.refl (t : TypeTable) : t.Extends t := ⟨fun _ _ => id, fun _ _ => id⟩

theorem Extends.trans (h : t.Extends t') (k : t'.Extends t'') : t.Extends t'' :=
  ⟨fun i e he => k.entries i e (h.entries i e he), fun s i hi => k.byKey s i (h.byKey s i hi)⟩

theorem Extends.lt_size (h : t.Extends t') {i : TypeId} (hi : i < t.size) : i < t'.size := by
  obtain ⟨e, he⟩ := exists_entry hi
  exact lt_size_of_entry (h.entries i e he)

theorem Extends.key_eq (h : t.Extends t') {i : TypeId} (hi : i < t.size) : t'.key i = t.key i := by
  obtain ⟨e, he⟩ := exists_entry hi
  rw [TypeTable.key_eq he, TypeTable.key_eq (h.entries i e he)]

theorem Extends.get?_eq (h : t.Extends t') {i : TypeId} (hi : i < t.size) : t'.get? i = t.get? i := by
  obtain ⟨e, he⟩ := exists_entry hi
  rw [TypeTable.get?_eq he, TypeTable.get?_eq (h.entries i e he)]

theorem Extends.renderUnion_eq (h : t.Extends t') {u : UnionType} (hu : ∀ i ∈ u.members, i < t.size) :
    t'.renderUnion u = t.renderUnion u := by
  rw [renderUnion, renderUnion, List.map_congr_left fun i hi => h.key_eq (hu i hi)]

theorem Extends.renderClass_eq (h : t.Extends t') {name : String} {args : List UnionType}
    (ha : ∀ u ∈ args, ∀ i ∈ u.members, i < t.size) :
    t'.renderClass name args = t.renderClass name args := by
  rw [renderClass, renderClass, List.map_congr_left fun u hu => h.renderUnion_eq (ha u hu)]

theorem Extends.renderArray_eq (h : t.Extends t') {key : KeyKind} {i : TypeId} (hi : i < t.size) :
    t'.renderArray key i = t.renderArray key i := by
  rw [renderArray.eq_def, renderArray.eq_def, needsParens, needsParens, h.key_eq hi, h.get?_eq hi]

theorem Extends.renderKind_eq (h : t.Extends t') {kind : TypeKind}
    (hk : ∀ i ∈ kind.embedded, i < t.size) : t'.renderKind kind = t.renderKind kind := by
  cases kind with
  | native | intLiteral | stringLiteral | template => rfl
  | object name args =>
    exact h.renderClass_eq fun u hu i hi => hk i (List.mem_flatMap.2 ⟨u, hu, hi⟩)
  | array key i => exact h.renderArray_eq (hk i (by simp [TypeKind.embedded]))
  | shape fields =>
    have hfield : ∀ f ∈ fields, t'.renderField f.1 f.2 = t.renderField f.1 f.2 := by
      intro f hf
      rw [renderField, renderField,
        h.renderUnion_eq fun i hi => hk i (List.mem_flatMap.2 ⟨f, hf, hi⟩)]
    rw [renderKind, renderKind, List.map_congr_left hfield]
  | callable sig =>
    have hparam : ∀ p ∈ sig.params, t'.renderParam p = t.renderParam p := by
      intro p hp
      rw [renderParam, renderParam, h.renderUnion_eq fun i hi =>
        hk i (List.mem_append_left _ (List.mem_flatMap.2 ⟨p, hp, hi⟩))]
    have hresult : t'.renderResult sig.result = t.renderResult sig.result := by
      rw [renderResult.eq_def, renderResult.eq_def,
        h.renderUnion_eq fun i hi => hk i (List.mem_append_right _ hi)]
    rw [renderKind, renderKind, List.map_congr_left hparam, hresult]

theorem Extends.render_eq (h : t.Extends t') {ty : Ty} (hk : ∀ i ∈ ty.kind.embedded, i < t.size) :
    t'.render ty = t.render ty := by
  rw [render, render, h.renderKind_eq hk]

theorem Extends.identity_eq (h : t.Extends t') {ty : Ty} (hk : ∀ i ∈ ty.kind.embedded, i < t.size) :
    t'.identity ty = t.identity ty := by
  obtain ⟨kind, nullable⟩ := ty
  cases kind with
  | object name args =>
    simp only [identity]
    rw [h.renderClass_eq fun u hu i hi => hk i (List.mem_flatMap.2 ⟨u, hu, hi⟩)]
  | _ => exact h.render_eq hk

end

end TypeTable

/-! ### Names without letter case -/

/-- The kind with the names of classes folded. -/
def TypeKind.fold : TypeKind → TypeKind
  | .object name args => .object name.fold args
  | kind => kind

/-- The type with the names of classes folded. -/
def Ty.fold (ty : Ty) : Ty := ⟨ty.kind.fold, ty.nullable⟩

theorem TypeKind.embedded_fold (kind : TypeKind) : kind.fold.embedded = kind.embedded := by
  cases kind <;> rfl

theorem TypeKind.acceptsNull_fold (kind : TypeKind) : kind.fold.acceptsNull = kind.acceptsNull := by
  cases kind <;> rfl

theorem TypeKind.WellNamed.fold {kind : TypeKind} (h : kind.WellNamed) : kind.fold.WellNamed := by
  cases kind with
  | object name args => exact QualifiedName.WellFormed.fold h
  | _ => exact h

namespace TypeTable

/-- A type is looked for under the text of its folded form. -/
theorem identity_eq_render_fold (t : TypeTable) (ty : Ty) : t.identity ty = t.render ty.fold := by
  obtain ⟨kind, nullable⟩ := ty
  cases kind with
  | object name args =>
    simp only [identity, render, Ty.fold, TypeKind.fold, renderKind, QualifiedName.text_fold]
  | _ => rfl

theorem Writable.fold {t : TypeTable} {ty : Ty} (h : t.Writable ty) : t.Writable ty.fold where
  inside e he := h.inside e (by rwa [Ty.fold, TypeKind.embedded_fold] at he)
  normal hn := by
    rw [Ty.fold, TypeKind.acceptsNull_fold]
    exact h.normal hn
  named := h.named.fold

end TypeTable

end UnionInference
