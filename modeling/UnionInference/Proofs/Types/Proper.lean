import UnionInference.Proofs.Types.Parts
import UnionInference.Proofs.Types.Supply

/-!
Proper tables. Proper kinds have names by which they can be told apart, class names in normal form,
and every key of a shape once; a proper table is canonical and holds proper kinds only. Work delivers
a result when it ends without a violation, in a larger proper table, with a result that has a given
property there. Requests for proper kinds deliver the place where the kind is found, and from that
the rules for loops follow.
-/

namespace UnionInference

/-! ### Proper kinds -/

/-- The name is in the form in which names of classes are made. -/
def QualifiedName.Normalized (q : QualifiedName) : Prop := make q.space q.name = q

instance (q : QualifiedName) : Decidable q.Normalized := inferInstanceAs (Decidable (_ = _))

/-- Kinds that can be told apart, with class names in normal form and each key of a shape once. -/
def TypeKind.Proper : TypeKind → Prop
  | .object name _ => name.WellFormed ∧ name.Normalized
  | .shape fields => (TypeKind.shape fields).WellNamed ∧ (fields.map Prod.fst).Nodup
  | kind => kind.WellNamed

theorem TypeKind.Proper.wellNamed {kind : TypeKind} (h : kind.Proper) : kind.WellNamed := by
  cases kind with
  | object name args => exact h.1
  | shape fields => exact h.1
  | _ => exact h

theorem typeSort_proper : TypeSort TypeKind.Proper :=
  ⟨fun _ => TypeKind.Proper.wellNamed, fun _ => trivial⟩

namespace QualifiedName

variable {q : QualifiedName}

theorem mem_text_of_mem_name {c : Char} (h : c ∈ q.name.toList) : c ∈ q.text.toList := by
  rw [text]
  split
  · rw [String.toList_append]
    exact List.mem_append_right _ h
  · rw [String.toList_append]
    exact List.mem_append_right _ h

theorem mem_text_of_mem_space {c : Char} (h : c ∈ q.space.toList) : c ∈ q.text.toList := by
  rw [text]
  split
  · next hroot =>
    rw [beq_iff_eq.1 hroot] at h
    rw [String.toList_append]
    exact List.mem_append_left _ h
  · rw [String.toList_append, String.toList_append]
    exact List.mem_append_left _ (List.mem_append_left _ h)

/-- A path ends with a segment, so there is a name after the namespace. -/
theorem WellFormed.name_ne (h : q.WellFormed) : q.name.isEmpty = false := by
  obtain ⟨segments, hne, hs, htext⟩ := h
  rw [← Bool.not_eq_true, String.isEmpty_iff]
  intro hname
  have hlast : q.text.toList.getLast? = some '\\' := by
    rw [text, hname]
    split
    · rfl
    · rw [String.append_empty, String.toList_append]
      exact List.getLast?_concat
  cases segments with
  | nil => exact hne rfl
  | cons s segments =>
    have htail : s ++ rootedPath segments ≠ [] := by simp [(hs s (by simp)).1]
    rw [htext, rootedPath_cons, List.getLast?_cons_of_ne_nil htail] at hlast
    exact absurd (getLast?_tail_rootedPath hs hlast) (by decide)

/-- A well-formed name in normal form is all that a class type asks of its name. -/
theorem WellFormed.typable (h : q.WellFormed) (hq : q.Normalized) : q.Typable := by
  have hspace : q.space.toList = '\\' :: trimList isSeparator q.space.toList := by
    conv_lhs => rw [← hq]
    rw [make, normalizeNamespace, String.toList_ofList]
  have hbar : ∀ c ∈ q.text.toList, c ≠ '|' := by
    rintro c hc rfl
    exact absurd (h.isNameChar hc) (by decide)
  refine ⟨hq, ?_, ?_, h.name_ne, ?_⟩
  · rw [← Bool.not_eq_true, String.isEmpty_iff, ← String.toList_inj, hspace]
    simp
  · rw [Text.startsWith, hspace]
    rfl
  · rw [Bool.or_eq_false_iff, Text.hasChar, Text.hasChar]
    constructor
    · rw [List.contains_eq_mem, decide_eq_false_iff_not]
      exact fun hc => hbar _ (mem_text_of_mem_name hc) rfl
    · rw [List.contains_eq_mem, decide_eq_false_iff_not]
      exact fun hc => hbar _ (mem_text_of_mem_space hc) rfl

end QualifiedName

namespace TypeTable

variable {t t₁ t₂ : TypeTable} {ty : Ty} {i : TypeId}

/-- The table is canonical, and every kind in it is proper. -/
structure Proper (t : TypeTable) : Prop where
  canonical : t.Canonical
  kinds : ∀ (i : TypeId) (ty : Ty), t.get? i = some ty → ty.kind.Proper

theorem Grows.proper (ht : t.Proper) (h : t.Grows TypeKind.Proper t₁) : t₁.Proper := by
  refine ⟨h.canonical, fun i ty hty => ?_⟩
  obtain ⟨e, he, rfl⟩ := Option.map_eq_some_iff.1 hty
  rcases h.only i e he with he | hok
  · exact ht.kinds i e.type (get?_eq he)
  · exact hok

theorem Reachable.get?_ok {ok : TypeKind → Prop} (hok : TypeSort ok) (h : Reachable ok t)
    (hty : t.get? i = some ty) : ok ty.kind := by
  obtain ⟨e, he, rfl⟩ := Option.map_eq_some_iff.1 hty
  exact h.kind_ok hok he

theorem Reachable.proper (h : Reachable TypeKind.Proper t) : t.Proper :=
  ⟨h.canonical typeSort_proper, fun _ _ => h.get?_ok typeSort_proper⟩

/-- Requests for proper kinds lead from a proper table to a larger one. -/
theorem Reaches.proper (ht : t.Proper) (h : Reaches TypeKind.Proper t t₁) :
    t₁.Proper ∧ t.Extends t₁ := by
  have hgrows := h.grows typeSort_proper ht.canonical fun i e he => ht.kinds i e.type (get?_eq he)
  exact ⟨hgrows.proper ht, hgrows.keeps⟩

/-- A proper kind that is asked for is found from then on. -/
theorem Reachable.exists_finds (h : Reachable TypeKind.Proper t) {kind : TypeKind} (nullable : Bool)
    (hkind : kind.Proper) (hin : ∀ e ∈ kind.embedded, e < t.size) :
    ∃ i t₁, Reachable TypeKind.Proper t₁ ∧ t.Extends t₁ ∧ t₁.Finds (normalize kind nullable) i := by
  obtain ⟨i, t₁, hrun, hgrows, hfinds⟩ :=
    TypeM.intern_spec h.proper.canonical nullable hkind.wellNamed hkind hin
  obtain ⟨nullCasts, hreach⟩ := h
  refine ⟨i, t₁, ⟨nullCasts, .step (r := .intern kind nullable) hreach ?_ hrun⟩, hgrows.keeps, hfinds⟩
  rintro _ ⟨⟩
  exact hkind

end TypeTable

/-! ### Putting work together -/

namespace TypeM

variable {α β : Type} {t t₁ t₂ : TypeTable} {m : TypeM α} {Q Q' : TypeTable → α → Prop}
  {R : TypeTable → β → Prop} {i : TypeId}

/-- The work ends in a larger proper table, with a result that has the property there. -/
def Delivers (t : TypeTable) (m : TypeM α) (Q : TypeTable → α → Prop) : Prop :=
  ∃ a t₁, m t = .ok (a, t₁) ∧ t.Extends t₁ ∧ t₁.Proper ∧ Q t₁ a

theorem delivers_pure (ht : t.Proper) {a : α} (h : Q t a) : Delivers t (pure a) Q :=
  ⟨a, t, rfl, .refl t, ht, h⟩

theorem Delivers.bind {f : α → TypeM β} (hm : Delivers t m Q)
    (hf : ∀ a t₁, t.Extends t₁ → t₁.Proper → Q t₁ a → Delivers t₁ (f a) R) :
    Delivers t (m >>= f) R := by
  obtain ⟨a, t₁, hrun, hext, ht₁, hq⟩ := hm
  obtain ⟨b, t₂, hrun', hext', ht₂, hr⟩ := hf a t₁ hext ht₁ hq
  exact ⟨b, t₂, bind_eq_ok.2 ⟨a, t₁, hrun, hrun'⟩, hext.trans hext', ht₂, hr⟩

theorem Delivers.imp (hm : Delivers t m Q)
    (h : ∀ a t₁, t.Extends t₁ → t₁.Proper → Q t₁ a → Q' t₁ a) : Delivers t m Q' := by
  obtain ⟨a, t₁, hrun, hext, ht₁, hq⟩ := hm
  exact ⟨a, t₁, hrun, hext, ht₁, h a t₁ hext ht₁ hq⟩

theorem Delivers.map (f : α → β) (hm : Delivers t m Q)
    (h : ∀ a t₁, t.Extends t₁ → t₁.Proper → Q t₁ a → R t₁ (f a)) : Delivers t (f <$> m) R :=
  hm.bind fun a t₁ hext ht₁ hq => delivers_pure ht₁ (h a t₁ hext ht₁ hq)

/-- Asking the table leaves it as it is. -/
theorem delivers_query_bind {f : TypeTable → Checked α} {g : α → TypeM β} {a : α}
    (hf : f t = .ok a) (hg : Delivers t (g a) R) : Delivers t (query f >>= g) R := by
  obtain ⟨b, t₁, hrun, hrest⟩ := hg
  refine ⟨b, t₁, bind_eq_ok.2 ⟨a, t, ?_, hrun⟩, hrest⟩
  rw [query, hf]
  rfl

theorem delivers_fetch_bind {ty : Ty} (hty : t.get? i = some ty) {f : Ty → TypeM β}
    (hf : Delivers t (f ty) R) : Delivers t (fetch i >>= f) R := by
  obtain ⟨e, he, rfl⟩ := Option.map_eq_some_iff.1 hty
  exact delivers_query_bind (TypeTable.fetch_eq he) hf

theorem exists_fetchBelow {ty : Ty} (hty : t.get? i = some ty) :
    ∃ below, fetchBelow i t = .ok (⟨ty, below⟩, t) := by
  obtain ⟨below, hfetch⟩ := TypeTable.exists_fetchBelow hty
  refine ⟨below, ?_⟩
  rw [fetchBelow, query, hfetch]
  rfl

theorem delivers_fetchBelow_bind {ty : Ty} (hty : t.get? i = some ty)
    {f : TypeTable.TyBelow i → TypeM β}
    (hf : ∀ below : ∀ e ∈ ty.kind.embedded, e < i, Delivers t (f ⟨ty, below⟩) R) :
    Delivers t (fetchBelow i >>= f) R := by
  obtain ⟨below, hfetch⟩ := TypeTable.exists_fetchBelow hty
  exact delivers_query_bind hfetch (hf below)

/-- A request for a proper kind delivers the place where the kind is found. -/
theorem delivers_intern (ht : t.Proper) {kind : TypeKind} (nullable : Bool) (hkind : kind.Proper)
    (hin : ∀ e ∈ kind.embedded, e < t.size) :
    Delivers t (intern kind nullable) fun t₁ j =>
      t₁.Finds (TypeTable.normalize kind nullable) j := by
  obtain ⟨j, t₁, hrun, hgrows, hfinds⟩ :=
    intern_spec ht.canonical nullable hkind.wellNamed hkind hin
  exact ⟨j, t₁, hrun, hgrows.keeps, hgrows.proper ht, hfinds⟩

/-- What is delivered for each element stays true as the table grows. -/
theorem delivers_mapM {f : α → TypeM β} {P : TypeTable → α → β → Prop} {as : List α}
    (hlasts : ∀ t t₁, t.Proper → t₁.Proper → t.Extends t₁ → ∀ a b, P t a b → P t₁ a b)
    (ht : t.Proper)
    (hstep : ∀ t₁, t.Extends t₁ → t₁.Proper → ∀ a ∈ as, Delivers t₁ (f a) fun t b => P t a b) :
    Delivers t (as.mapM f) fun t bs => List.Forall₂ (P t) as bs := by
  induction as generalizing t with
  | nil => exact delivers_pure ht .nil
  | cons a as ih =>
    rw [List.mapM_cons]
    refine (hstep t (.refl t) ht a List.mem_cons_self).bind fun b t₁ hext ht₁ hb => ?_
    refine (ih ht₁ fun t₂ hext' ht₂ a ha => hstep t₂ (hext.trans hext') ht₂ a
      (List.mem_cons_of_mem _ ha)).map _ fun bs t₂ hext' ht₂ hbs => ?_
    exact .cons (hlasts t₁ t₂ ht₁ ht₂ hext' a b hb) hbs

theorem delivers_mapM_attach {as : List α} {f : { a // a ∈ as } → TypeM β}
    {P : TypeTable → α → β → Prop}
    (hlasts : ∀ t t₁, t.Proper → t₁.Proper → t.Extends t₁ → ∀ a b, P t a b → P t₁ a b)
    (ht : t.Proper)
    (hstep : ∀ t₁, t.Extends t₁ → t₁.Proper → ∀ a, Delivers t₁ (f a) fun t b => P t a.1 b) :
    Delivers t (as.attach.mapM f) fun t bs => List.Forall₂ (P t) as bs := by
  refine (delivers_mapM (P := fun t a b => P t a.1 b) (fun t t₁ ht ht₁ hext a b => hlasts t t₁ ht ht₁
    hext a.1 b) ht fun t₁ hext ht₁ a _ => hstep t₁ hext ht₁ a).imp fun bs t₁ _ _ hbs => ?_
  rw [← List.attach_map_subtype_val as, List.forall₂_map_left_iff]
  exact hbs

end TypeM

/-! ### Unions -/

namespace UnionType

open TypeM

variable {t : TypeTable} {u v w : UnionType}

/-- The members of the second union are what the relation makes of those of the first one. -/
structure Image (R : TypeId → TypeId → Prop) (u v : UnionType) : Prop where
  total : ∀ i ∈ u.members, ∃ j, R i j
  mem : ∀ j, j ∈ v.members ↔ ∃ i ∈ u.members, R i j

section

variable {R S : TypeId → TypeId → Prop}

theorem Image.sameMembers (h : Image R u v) (h' : Image R u w) : v.SameMembers w := fun j =>
  (h.mem j).trans (h'.mem j).symm

theorem Image.congr_left (h : Image R u v) (huw : u.SameMembers w) : Image R w v := by
  refine ⟨fun i hi => h.total i ((huw i).2 hi), fun j => (h.mem j).trans ?_⟩
  exact exists_congr fun i => and_congr_left' (huw i)

theorem Image.congr_right (h : Image R u v) (hvw : v.SameMembers w) : Image R u w :=
  ⟨h.total, fun j => (hvw j).symm.trans (h.mem j)⟩

/-- A larger relation that is a function makes the same of the members. -/
theorem Image.mono (h : Image R u v) (hRS : ∀ i ∈ u.members, ∀ j, R i j → S i j)
    (hS : ∀ i j k, S i j → S i k → j = k) : Image S u v := by
  refine ⟨fun i hi => ?_, fun j => (h.mem j).trans ⟨?_, ?_⟩⟩
  · obtain ⟨j, hj⟩ := h.total i hi
    exact ⟨j, hRS i hi j hj⟩
  · rintro ⟨i, hi, hij⟩
    exact ⟨i, hi, hRS i hi j hij⟩
  · rintro ⟨i, hi, hij⟩
    obtain ⟨k, hk⟩ := h.total i hi
    obtain rfl := hS i j k hij (hRS i hi k hk)
    exact ⟨i, hi, hk⟩

theorem image_of {i j : TypeId} (hij : R i j) (hR : ∀ k, R i k → k = j) :
    Image R (of i) (of j) := by
  refine ⟨fun k hk => ⟨j, mem_of.1 hk ▸ hij⟩, fun k => ?_⟩
  rw [mem_of]
  constructor
  · rintro rfl
    exact ⟨i, mem_of.2 rfl, hij⟩
  · rintro ⟨x, hx, hxk⟩
    exact hR k (mem_of.1 hx ▸ hxk)

theorem image_ofList {ids : List TypeId} (h : List.Forall₂ R u.members ids)
    (hR : ∀ i j k, R i j → R i k → j = k) : Image R u (ofList ids) := by
  refine ⟨fun i hi => ?_, fun j => ?_⟩
  · obtain ⟨j, -, hij⟩ := exists_of_forall₂ h hi
    exact ⟨j, hij⟩
  · rw [mem_ofList]
    constructor
    · intro hj
      obtain ⟨i, hi, hij⟩ := exists_of_forall₂ h.flip hj
      exact ⟨i, hi, hij⟩
    · rintro ⟨i, hi, hij⟩
      obtain ⟨k, hk, hik⟩ := exists_of_forall₂ h hi
      rwa [hR i j k hij hik]

end

/-- Work on each member delivers the image of the union. -/
theorem delivers_mapMembers {f : TypeId → TypeM TypeId} {R : TypeTable → TypeId → TypeId → Prop}
    (hlasts : ∀ t t₁, t.Proper → t₁.Proper → t.Extends t₁ → ∀ i j, R t i j → R t₁ i j)
    (hR : ∀ t i j k, R t i j → R t i k → j = k) (ht : t.Proper)
    (hstep : ∀ t₁, t.Extends t₁ → t₁.Proper → ∀ i ∈ u.members,
      Delivers t₁ (f i) fun t j => R t i j) :
    Delivers t (u.mapMembers f) fun t v => Image (R t) u v :=
  (delivers_mapM hlasts ht hstep).map _ fun _ t₁ _ _ hids => image_ofList hids (hR t₁)

/-- Work that makes a union of each member delivers the union of these unions. -/
theorem delivers_bindMembers {f : (a : TypeId) → a ∈ u.members → TypeM UnionType}
    {P : TypeTable → TypeId → UnionType → Prop}
    (hlasts : ∀ t t₁, t.Proper → t₁.Proper → t.Extends t₁ → ∀ a w, P t a w → P t₁ a w)
    (ht : t.Proper)
    (hstep : ∀ t₁, t.Extends t₁ → t₁.Proper → ∀ a ha, Delivers t₁ (f a ha) fun t w => P t a w) :
    Delivers t (u.bindMembers f) fun t v =>
      ∃ ws, List.Forall₂ (P t) u.members ws ∧ v = ws.foldl union empty := by
  have hloop : ∀ (as : List { a // a ∈ u.members }) (t₁ : TypeTable) (result : UnionType),
      t.Extends t₁ → t₁.Proper →
      Delivers t₁ (as.foldlM (fun result a => do return result.union (← f a.1 a.2)) result)
        fun t v => ∃ ws, List.Forall₂ (P t) (as.map Subtype.val) ws ∧ v = ws.foldl union result := by
    intro as
    induction as with
    | nil => exact fun t₁ result _ ht₁ => delivers_pure ht₁ ⟨[], .nil, rfl⟩
    | cons a as ih =>
      intro t₁ result hext ht₁
      rw [List.foldlM_cons]
      have hhead : Delivers t₁ (do return result.union (← f a.1 a.2)) fun t v =>
          ∃ w, P t a.1 w ∧ v = result.union w :=
        (hstep t₁ hext ht₁ a.1 a.2).bind fun w t₂ _ ht₂ hw => delivers_pure ht₂ ⟨w, hw, rfl⟩
      refine hhead.bind ?_
      rintro _ t₂ hext₂ ht₂ ⟨w, hw, rfl⟩
      refine (ih t₂ (result.union w) (hext.trans hext₂) ht₂).imp ?_
      rintro v t₃ hext₃ ht₃ ⟨ws, hws, rfl⟩
      exact ⟨w :: ws, .cons (hlasts t₂ t₃ ht₂ ht₃ hext₃ _ _ hw) hws, rfl⟩
  have hrun := hloop u.members.attach t empty (.refl t) ht
  rwa [List.attach_map_subtype_val] at hrun

theorem mem_foldl_union {a : TypeId} (ws : List UnionType) (u : UnionType) :
    a ∈ (ws.foldl union u).members ↔ a ∈ u.members ∨ ∃ w ∈ ws, a ∈ w.members := by
  induction ws generalizing u with
  | nil => simp
  | cons w ws ih => rw [List.foldl_cons, ih, mem_union, List.exists_mem_cons_iff, or_assoc]

end UnionType

end UnionInference
