import UnionInference.Proofs.ClassName
import UnionInference.Proofs.Types.Atoms

/-!
Sound tables. A sound table holds the types that are asked of it and remembers unions of types that
it holds, and under the name of a class it finds no array and no type with null. A sound table stays
sound when a type joins it. In a strict table class names are regular, which makes
it canonical; in any other one the name of a class that has no arguments may be any text at all.
-/

namespace UnionInference

/-- What is asked of the names and the hierarchy of classes. -/
structure Regime where
  /-- Class names are regular, so that texts tell types apart. -/
  strict : Prop
  /-- The results of calls may depend on the strings that are passed. -/
  dependent : Prop
  /-- Hierarchies may nest too deeply to be expanded. -/
  deep : Prop

namespace Regime

/-- Names are regular, and no result depends on a string. -/
def regular : Regime := ⟨True, False, False⟩

/-- The string may be a literal: where names are strict and results depend on strings, a string that
can name a class names it by a regular name. -/
def Plain (r : Regime) (s : String) : Prop :=
  r.strict → r.dependent → s.isEmpty = true ∨ Text.hasChar s '|' = true ∨
    (QualifiedName.ofFullName s).name.isEmpty = true ∨ (QualifiedName.ofFullName s).Regular

/-- Objects may be of the class. -/
structure Admits (r : Regime) (q : ClassName) : Prop where
  typable : q.Typable
  regular : r.strict → q.Regular

end Regime

theorem QualifiedName.Regular.admits {r : Regime} {q : ClassName} (h : q.Regular) : r.Admits q :=
  ⟨h.typable, fun _ => h⟩

/-- What a type must fulfil to join a sound table: where names are strict or there are arguments,
the name of a class is regular. -/
def TypeKind.Fit (r : Regime) : TypeKind → Prop
  | .object name args => name.Typable ∧ (r.strict ∨ args ≠ [] → name.Regular)
  | .template name => r.strict → (TypeKind.template name).WellNamed
  | .shape fields => r.strict → (TypeKind.shape fields).WellNamed
  | .intLiteral n => r.strict → Text.isInteger n = true
  | .stringLiteral s => r.Plain s
  | _ => True

theorem TypeKind.Fit.wellNamed {r : Regime} {kind : TypeKind} (h : kind.Fit r)
    (hs : r.strict) : kind.WellNamed := by
  cases kind with
  | object name args => exact (h.2 (.inl hs)).wellFormed
  | template name | shape fields => exact h hs
  | _ => trivial

namespace TypeTable

variable {r : Regime} {t t₁ t₂ : TypeTable} {ty : Ty} {i : TypeId}

/-! ### Tables that grow -/

/-- The second table holds the types of the first one in the same places. -/
def Keeps (t t₁ : TypeTable) : Prop :=
  ∀ (i : TypeId) (e : TypeEntry), t.entries[i]? = some e → t₁.entries[i]? = some e

theorem Keeps.refl (t : TypeTable) : t.Keeps t := fun _ _ h => h

theorem Keeps.trans (h : t.Keeps t₁) (h₁ : t₁.Keeps t₂) : t.Keeps t₂ :=
  fun i e he => h₁ i e (h i e he)

theorem Keeps.get? (h : t.Keeps t₁) (hi : t.get? i = some ty) : t₁.get? i = some ty := by
  obtain ⟨e, he, rfl⟩ := Option.map_eq_some_iff.1 hi
  exact get?_eq (h i e he)

theorem lt_size_of_get? (h : t.get? i = some ty) : i < t.size := by
  obtain ⟨e, he, -⟩ := Option.map_eq_some_iff.1 h
  exact lt_size_of_entry he

theorem exists_get? (h : i < t.size) : ∃ ty, t.get? i = some ty := by
  obtain ⟨e, he⟩ := exists_entry h
  exact ⟨e.type, get?_eq he⟩

@[grind →]
theorem Keeps.lt_size (h : t.Keeps t₁) (hi : i < t.size) : i < t₁.size := by
  obtain ⟨ty, hty⟩ := exists_get? hi
  exact lt_size_of_get? (h.get? hty)

/-- The table holds the type, and the placeholders inside it have the property. -/
inductive Holds (p : String → Prop) (t : TypeTable) : TypeId → Prop
  | intro {i : TypeId} {ty : Ty} (hty : t.get? i = some ty)
      (hparts : ∀ e ∈ ty.kind.embedded, Holds p t e)
      (htemplate : ∀ s, ty.kind = .template s → p s) : Holds p t i

variable {p q : String → Prop}

theorem Holds.lt_size (h : t.Holds p i) : i < t.size := by
  cases h with
  | intro hty _ _ => exact lt_size_of_get? hty

/-- The table holds what the kind is made of, and the placeholders inside have the property. -/
structure HoldsKind (p : String → Prop) (t : TypeTable) (kind : TypeKind) : Prop where
  parts : ∀ e ∈ kind.embedded, t.Holds p e
  template : ∀ s, kind = .template s → p s

theorem holds_iff (hty : t.get? i = some ty) : t.Holds p i ↔ t.HoldsKind p ty.kind := by
  constructor
  · rintro ⟨hty', hparts, htemplate⟩
    rw [hty] at hty'
    cases hty'
    exact ⟨hparts, htemplate⟩
  · exact fun h => .intro hty h.parts h.template

theorem Holds.kind (h : t.Holds p i) : ∃ ty, t.get? i = some ty ∧ t.HoldsKind p ty.kind := by
  obtain ⟨ty, hty⟩ := exists_get? h.lt_size
  exact ⟨ty, hty, (holds_iff hty).1 h⟩

theorem embedded_lt_of_get? {j : TypeId} (hty : t.get? i = some ty) (hj : j ∈ ty.kind.embedded) :
    j < i := by
  obtain ⟨e, he, rfl⟩ := Option.map_eq_some_iff.1 hty
  exact embedded_lt he hj

/-- The type comes with the proof that it is made of earlier ones. -/
theorem exists_fetchBelow (hty : t.get? i = some ty) :
    ∃ below, t.fetchBelow i = .ok ⟨ty, below⟩ := by
  obtain ⟨e, he, rfl⟩ := Option.map_eq_some_iff.1 hty
  obtain ⟨hlt, rfl⟩ := Array.getElem?_eq_some_iff.1 he
  exact ⟨t.grounded i hlt, dif_pos hlt⟩

/-- Without a condition on placeholders, a type is held at every place of the table. -/
theorem holds_of_lt (h : i < t.size) (hp : ∀ s, p s) : t.Holds p i := by
  induction i using Nat.strong_induction_on with
  | _ i ih =>
    obtain ⟨ty, hty⟩ := exists_get? h
    have hlt : ∀ e ∈ ty.kind.embedded, e < i := fun e he => embedded_lt_of_get? hty he
    exact .intro hty (fun e he => ih e (hlt e he) ((hlt e he).trans h)) fun s _ => hp s

theorem Holds.imp (h : t.Holds p i) (hpq : ∀ s, p s → q s) : t.Holds q i := by
  induction h with
  | intro hty _ htemplate ih => exact .intro hty ih fun s hs => hpq s (htemplate s hs)

@[grind →]
theorem Keeps.holds (h : t.Keeps t₁) (hi : t.Holds p i) : t₁.Holds p i := by
  induction hi with
  | intro hty _ htemplate ih => exact .intro (h.get? hty) ih htemplate

/-- At the place stands a type without null that is no array. -/
def IsBare (t : TypeTable) (i : TypeId) : Prop :=
  ∃ ty, t.get? i = some ty ∧ ty.nullable = false ∧ ∀ key element, ty.kind ≠ .array key element

theorem Keeps.isBare (h : t.Keeps t₁) (hi : t.IsBare i) : t₁.IsBare i := by
  obtain ⟨ty, hty, hbare⟩ := hi
  exact ⟨ty, h.get? hty, hbare⟩

/-- The name is regular, or it is that of a type that the table holds. -/
def Knows (t : TypeTable) (name : ClassName) : Prop :=
  name.Regular ∨ ∃ i args nullable, t.get? i = some ⟨.object name args, nullable⟩

theorem Keeps.knows {name : ClassName} (h : t.Keeps t₁) (hname : t.Knows name) :
    t₁.Knows name := by
  rcases hname with hname | ⟨i, args, nullable, hi⟩
  · exact .inl hname
  · exact .inr ⟨i, args, nullable, h.get? hi⟩

/-! ### Sound tables -/

/-- A class name finds no array and no type with null. -/
structure Sound (r : Regime) (t : TypeTable) : Prop where
  natives : ∀ k : NativeKind, t.get? k.id = some ⟨.native k, false⟩
  found : ∀ (k : String) (i : TypeId), t.byKey[k]? = some i → i < t.size
  fit : ∀ (i : TypeId) (ty : Ty), t.get? i = some ty → ty.kind.Fit r
  regular : ∀ (name : ClassName) (i : TypeId), name.Regular →
    t.byKey[name.foldedText]? = some i → t.IsBare i
  /-- A name that is not regular finds the type that was asked for under it. -/
  odd : ∀ (i : TypeId) (name : ClassName) (args : List UnionType) (nullable : Bool),
    t.get? i = some ⟨.object name args, nullable⟩ → ¬ name.Regular →
      ∃ j, t.byKey[name.foldedText]? = some j ∧ t.IsBare j
  remembered : ∀ (id : TypeId) (u : UnionType), t.cache.entries[id]? = some u →
    ∀ i ∈ u.members, i < t.size
  canonical : r.strict → t.Canonical

/-! ### Texts of types and names of classes -/

theorem head?_render_of_nullable (t : TypeTable) (h : ty.nullable = true) :
    (t.render ty).toList.head? = some '?' ∧ (t.identity ty).toList.head? = some '?' := by
  have hmark : ∀ s : String, (nullMark true ++ s).toList.head? = some '?' := by
    intro s
    rw [String.toList_append]
    rfl
  have hrender : (t.render ty).toList.head? = some '?' := by
    rw [render, h]
    exact hmark _
  refine ⟨hrender, ?_⟩
  rw [identity]
  split
  · rw [h]
    exact hmark _
  · exact hrender

theorem identity_of_not_object (t : TypeTable) (h : ∀ name args, ty.kind ≠ .object name args) :
    t.identity ty = t.render ty := by
  rw [identity]
  split
  · next name args hk => exact absurd hk (h name args)
  · rfl

/-- No array is written like a regular class name. -/
theorem renderArray_ne_foldedText {name : ClassName} (hname : name.Regular) (key : KeyKind)
    (element : TypeId) : t.render ⟨.array key element, false⟩ ≠ name.foldedText := by
  intro heq
  obtain ⟨cs, hcs, hchars⟩ := hname.foldedText_eq_cons
  have hhead : name.foldedText.toList.head? = some '\\' := by rw [hcs]; rfl
  rw [← heq, render, nullMark, if_neg Bool.false_ne_true, String.empty_append] at hhead hchars
  cases key with
  | int | string =>
    rw [renderKind, renderArray, String.toList_append, String.toList_append] at hhead
    cases hhead
  | mixed =>
    have hbracket : ']' ∈ (t.renderKind (.array .mixed element)).toList := by
      rw [renderKind, renderArray]
      split
      · rw [String.toList_append]
        exact List.mem_append_right _ (by decide)
      · rw [String.toList_append]
        exact List.mem_append_right _ (by decide)
    exact absurd (hchars ']' hbracket) (by decide)

/-- A type that has the text of a regular class name is without null and no array. -/
theorem bare_of_text {name : ClassName} (hname : name.Regular)
    (h : t.render ty = name.foldedText ∨ t.identity ty = name.foldedText) :
    ty.nullable = false ∧ ∀ key element, ty.kind ≠ .array key element := by
  have hhead := hname.typable.head?_foldedText
  have hnull : ty.nullable = false := by
    rw [← Bool.not_eq_true]
    intro hnull
    obtain ⟨hrender, hident⟩ := head?_render_of_nullable t hnull
    rcases h with h | h
    · rw [← h, hrender] at hhead
      cases hhead
    · rw [← h, hident] at hhead
      cases hhead
  refine ⟨hnull, fun key element hkind => ?_⟩
  rw [identity_of_not_object t (by simp [hkind]), or_self] at h
  obtain rfl : ty = ⟨.array key element, false⟩ := by rw [← hkind, ← hnull]
  exact renderArray_ne_foldedText hname key element h

/-! ### Joining -/

theorem Joins.keeps (h : t.Joins ty t₁) : t.Keeps t₁ := fun _ _ => h.entry_old

theorem Joins.get?_cases (h : t.Joins ty t₁) {other : Ty} (hi : t₁.get? i = some other) :
    t.get? i = some other ∨ (i = t.size ∧ other = ty) := by
  obtain ⟨e, he, rfl⟩ := Option.map_eq_some_iff.1 hi
  rcases h.entry_cases he with he | ⟨rfl, rfl⟩
  · exact .inl (get?_eq he)
  · exact .inr ⟨rfl, rfl⟩

theorem Joins.get?_new (h : t.Joins ty t₁) : t₁.get? t.size = some ty := get?_eq h.entry_new

theorem Joins.byKey_eq (h : t.Joins ty t₁) (k : String) :
    t₁.byKey[k]? = if t.render ty = k ∨ t.identity ty = k then some t.size else t.byKey[k]? := by
  rw [h.byKey, Std.HashMap.getElem?_insert, Std.HashMap.getElem?_insert]
  by_cases hr : t.render ty = k
  · simp [hr]
  · by_cases hi : t.identity ty = k <;> simp [hr, hi]

/-- A name that is found as the type of its class is found so after a type has joined that was not
found. -/
theorem Joins.found_bare (hnone : t.byKey[t.identity ty]? = none) (hj : t.Joins ty t₁)
    {name : ClassName} (hname : name.Typable)
    (hfound : ∃ j, t.byKey[name.foldedText]? = some j ∧ t.IsBare j) :
    ∃ j, t₁.byKey[name.foldedText]? = some j ∧ t₁.IsBare j := by
  obtain ⟨j, hjk, hbare⟩ := hfound
  rw [hj.byKey_eq]
  split
  · next htext =>
    -- the new type takes over the text of the name, so it is written otherwise than looked for
    have hident : t.identity ty ≠ name.foldedText := by
      intro heq
      rw [heq, hjk] at hnone
      cases hnone
    have hrendered := htext.resolve_right hident
    obtain ⟨other, args, hkind⟩ : ∃ other args, ty.kind = .object other args := by
      by_contra hkind
      refine hident ?_
      rw [identity_of_not_object t fun other args hk => hkind ⟨other, args, hk⟩]
      exact hrendered
    have hfalse : ty.nullable = false := by
      rw [← Bool.not_eq_true]
      intro hn
      have hhead := hname.head?_foldedText
      rw [← hrendered, (head?_render_of_nullable t hn).1] at hhead
      cases hhead
    exact ⟨t.size, rfl, ty, hj.get?_new, hfalse, by simp [hkind]⟩
  · exact ⟨j, hjk, hj.keeps.isBare hbare⟩

/-- A sound table stays sound when a type joins it that was not found. A name that is not regular
must be there before it is held with null. -/
theorem Sound.joins (h : t.Sound r) (hin : ∀ e ∈ ty.kind.embedded, e < t.size)
    (hfit : ty.kind.Fit r) (hnull : ty.nullable = true → ty.kind.acceptsNull = true)
    (hodd : ∀ name args, ty = ⟨.object name args, true⟩ → t.Knows name)
    (hnone : t.byKey[t.identity ty]? = none) (hj : t.Joins ty t₁) (hcache : t₁.cache = t.cache) :
    t₁.Sound r := by
  have hkeeps := hj.keeps
  have hnew : t.size < t₁.size := lt_size_of_get? hj.get?_new
  refine ⟨fun k => hkeeps.get? (h.natives k), ?_, ?_, ?_, ?_, ?_, ?_⟩
  case refine_1 =>
    intro k i hi
    rw [hj.byKey_eq] at hi
    split at hi
    · cases hi
      exact hnew
    · exact hkeeps.lt_size (h.found k i hi)
  case refine_2 =>
    intro i other hi
    rcases hj.get?_cases hi with hi | ⟨-, rfl⟩
    · exact h.fit i other hi
    · exact hfit
  case refine_3 =>
    intro name i hname hi
    rw [hj.byKey_eq] at hi
    split at hi
    · next htext =>
      cases hi
      exact ⟨ty, hj.get?_new, bare_of_text hname htext⟩
    · exact hkeeps.isBare (h.regular name i hname hi)
  case refine_4 =>
    intro i name args nullable hi hname
    rcases hj.get?_cases hi with hi | ⟨-, rfl⟩
    · exact hj.found_bare hnone (h.fit i _ hi).1 (h.odd i name args nullable hi hname)
    · cases nullable with
      | true =>
        obtain ⟨j, args', nullable, hheld⟩ := (hodd name args rfl).resolve_left hname
        exact hj.found_bare hnone hfit.1 (h.odd j name args' nullable hheld hname)
      | false =>
        have hargs : args = [] := by
          by_contra hne
          exact hname (hfit.2 (.inr hne))
        refine ⟨t.size, ?_, _, hj.get?_new, rfl, by simp⟩
        rw [hj.byKey_eq, if_pos]
        right
        rw [identity, hargs]
        exact String.empty_append
  case refine_5 =>
    intro id u hu
    rw [hcache] at hu
    exact fun i hi => hkeeps.lt_size (h.remembered id u hu i hi)
  case refine_6 =>
    intro hs
    exact hj.canonical (h.canonical hs) ⟨hin, hnull, hfit.wellNamed hs⟩ hnone

end TypeTable

end UnionInference
