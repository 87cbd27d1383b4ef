import UnionInference.Proofs.Types.Placeholders
import UnionInference.Proofs.Types.Replacing

/-!
Replacing template placeholders. In a proper table the work always ends, and it delivers what the
types turn into when each placeholder is replaced by what the map says of it.
-/

namespace UnionInference

/-! ### Maps -/

namespace TemplateMap

variable {m m₁ m₂ : TemplateMap} {s : String} {u : UnionType}

/-- Placeholders are replaced by what the map says of them. -/
def replacement (m : TemplateMap) : Replacement where
  get? kind :=
    match kind with
    | .template s => m.get? s
    | _ => none
  isMark {kind u} h := by
    cases kind with
    | template s => trivial
    | _ => cases h

@[simp] theorem replacement_template : m.replacement.get? (.template s) = m.get? s := rfl

/-- Only placeholders are replaced. -/
theorem replacement_eq_some {kind : TypeKind} (h : m.replacement.get? kind = some u) :
    ∃ s, kind = .template s ∧ m.get? s = some u := by
  cases kind with
  | template s => exact ⟨s, rfl, h⟩
  | _ => cases h

/-- No placeholder stands for nothing at all. -/
def Full (m : TemplateMap) : Prop := ∀ b ∈ m, b.2.isEmpty = false

theorem mem_of_get? (h : m.get? s = some u) : (s, u) ∈ m := by
  obtain ⟨l₁, l₂, rfl, -⟩ := List.lookup_eq_some_iff.1 h
  simp

theorem Full.replacement (h : m.Full) : m.replacement.Full := by
  intro kind b hb hnil
  obtain ⟨s, rfl, hs⟩ := replacement_eq_some hb
  exact absurd (UnionType.isEmpty_iff.2 hnil) (by simp [h _ (mem_of_get? hs)])

/-- The first map followed by the second one: what the first one says is turned by the second one,
which also says what the first one does not. -/
def andThen (m₁ m₂ : TemplateMap) : TypeM TemplateMap := do
  let turned ← m₁.mapM fun b => do return (b.1, ← b.2.substitute m₂)
  return turned ++ m₂.filter fun b => (m₁.get? b.1).isNone

/-- Placeholders that stand for themselves. -/
def identity (names : List String) : TypeM TemplateMap :=
  names.mapM fun s => do return (s, .of (← TypeM.template s))

/-- A name has one entry in related maps, or none. -/
theorem get?_of_forall₂ {R : UnionType → UnionType → Prop}
    (h : List.Forall₂ (fun b c => c.1 = b.1 ∧ R b.2 c.2) m₁ m₂) (s : String) :
    m₁.get? s = none ∧ m₂.get? s = none ∨
      ∃ u v, m₁.get? s = some u ∧ m₂.get? s = some v ∧ R u v := by
  induction h with
  | nil => exact .inl ⟨rfl, rfl⟩
  | @cons b c m₁ m₂ hbc _ ih =>
    obtain ⟨name, u⟩ := b
    obtain ⟨name', v⟩ := c
    obtain ⟨hname, huv⟩ := hbc
    obtain rfl : name' = name := hname
    simp only [TemplateMap.get?, List.lookup_cons] at ih ⊢
    cases s == name' with
    | true => exact .inr ⟨u, v, rfl, rfl, huv⟩
    | false => exact ih

theorem get?_filter {p : String → Bool} (hs : p s = true) (m : TemplateMap) :
    TemplateMap.get? (m.filter fun b => p b.1) s = m.get? s := by
  induction m with
  | nil => rfl
  | cons b m ih =>
    obtain ⟨name, u⟩ := b
    simp only [TemplateMap.get?] at ih ⊢
    rw [List.filter_cons, List.lookup_cons]
    cases hname : s == name with
    | true =>
      obtain rfl := beq_iff_eq.1 hname
      rw [if_pos hs, List.lookup_cons, hname]
    | false =>
      split
      · rw [List.lookup_cons, hname, ih]
      · exact ih

end TemplateMap

/-- A type whose placeholders stay or stand for themselves turns into itself. -/
theorem TypeTable.Canonical.turns_self_of_holds {t : TypeTable} (hc : t.Canonical) {m : TemplateMap}
    {i : TypeId} (h : t.Holds (fun s => ∀ b, m.get? s = some b →
      ∃ k, b = .of k ∧ t.Finds ⟨.template s, false⟩ k) i) : t.Turns m.replacement i (.of i) := by
  refine hc.turns_self ((holds_iff_everywhere.1 h).imp fun kind hkind b hb => ?_)
  obtain ⟨s, rfl, hs⟩ := TemplateMap.replacement_eq_some hb
  exact hkind s rfl b hs

/-- A placeholder that is asked for is held from then on. -/
theorem TypeTable.Reachable.exists_template {t : TypeTable} (h : Reachable TypeKind.Proper t)
    {s : String} (hs : (TypeKind.template s).WellNamed) :
    ∃ i t₁, Reachable TypeKind.Proper t₁ ∧ t.Extends t₁ ∧
      t₁.get? i = some ⟨.template s, false⟩ := by
  have hproper : (TypeKind.template s).Proper := hs
  have hin : ∀ t : TypeTable, ∀ e ∈ (TypeKind.template s).embedded, e < t.size := by
    simp [TypeKind.embedded]
  obtain ⟨i, t₁, h₁, hext, hi⟩ := h.exists_finds false hproper (hin t)
  exact ⟨i, t₁, h₁, hext,
    h₁.proper.canonical.get?_of_finds_mark (writable_normalize false (hin t₁) hs) trivial hi⟩

/-- A table with two placeholders and the arrays of the one, with null. -/
theorem TypeTable.exists_placeholders : ∃ t T S a, Reachable TypeKind.Proper t ∧
    t.get? T = some ⟨.template "T", false⟩ ∧ t.get? S = some ⟨.template "S", false⟩ ∧
    t.get? a = some ⟨.array .mixed T, true⟩ := by
  have hnative : ∀ k : NativeKind, "T" ≠ k.name ∧ "S" ≠ k.name := by
    intro k
    cases k <;> decide
  have hinitial : Reachable TypeKind.Proper (initial false) := ⟨false, .refl⟩
  obtain ⟨T, t₁, h₁, -, hT⟩ :=
    hinitial.exists_template ⟨⟨by decide, by rintro _ ⟨⟩; rfl⟩, fun k => (hnative k).1⟩
  obtain ⟨S, t₂, h₂, hext₂, hS⟩ :=
    h₁.exists_template ⟨⟨by decide, by rintro _ ⟨⟩; rfl⟩, fun k => (hnative k).2⟩
  have hT := hext₂.keeps.get? hT
  have hproper : (TypeKind.array .mixed T).Proper := trivial
  obtain ⟨a, t, h, hext, ha⟩ := h₂.exists_finds true hproper
    (writable_array (lt_size_of_get? hT) true).inside
  have hT := hext.keeps.get? hT
  exact ⟨t, T, S, a, h, hT, hext.keeps.get? hS,
    h.proper.canonical.get?_of_finds_array (lt_size_of_get? hT) ha⟩

/-! ### Runs -/

namespace ShapeFields

/-- Fields with different keys are stored as they come. -/
theorem ofList_eq_self {fields : List (ShapeKey × ShapeField)}
    (h : (fields.map Prod.fst).Nodup) : ofList fields = fields := by
  have hinsert : ∀ (fs : ShapeFields) (f : ShapeKey × ShapeField), f.1 ∉ fs.map Prod.fst →
      insert fs f.1 f.2 = fs ++ [f] := by
    intro fs f hf
    induction fs with
    | nil => rfl
    | cons g fs ih =>
      rw [List.map_cons, List.mem_cons, not_or] at hf
      rw [insert, if_neg (Ne.symm hf.1), ih hf.2, List.cons_append]
  have hloop : ∀ (fs acc : ShapeFields), ((acc ++ fs).map Prod.fst).Nodup →
      fs.foldl (fun fs f => insert fs f.1 f.2) acc = acc ++ fs := by
    intro fs
    induction fs with
    | nil => intro acc _; rw [List.foldl_nil, List.append_nil]
    | cons f fs ih =>
      intro acc hnodup
      rw [List.append_cons] at hnodup ⊢
      have hnew : f.1 ∉ acc.map Prod.fst := by
        rw [List.map_append, List.map_append] at hnodup
        have hacc := (List.nodup_append.1 hnodup).1
        exact fun hmem => (List.nodup_append.1 hacc).2.2 _ hmem f.1 (by simp) rfl
      rw [List.foldl_cons, hinsert acc f hnew]
      exact ih _ hnodup
  exact hloop fields [] h

end ShapeFields

namespace TypeM

open TypeTable

variable {t : TypeTable} {i : TypeId} {m : TemplateMap}

/-- A placeholder with a proper name is found. -/
theorem delivers_template (ht : t.Proper) {s : String} (hs : (TypeKind.template s).WellNamed) :
    Delivers t (template s) fun t k => t.Finds ⟨.template s, false⟩ k := by
  have hkind : (TypeKind.template s).Proper := hs
  have hne : s.isEmpty = false := by
    rw [← Bool.not_eq_true, String.isEmpty_iff]
    rintro rfl
    exact hs.1.1.1 rfl
  have hbar : Text.hasChar s '|' = false := by
    rw [Text.hasChar, List.contains_eq_mem, decide_eq_false_iff_not]
    exact fun hc => absurd (hs.1.1.2 _ hc) (by decide)
  rw [template, if_neg (by simp [hne]), if_neg (by simp [hbar])]
  exact delivers_intern ht false hkind (by simp [TypeKind.embedded])

/-! Replacing goes down the parts of a kind. There is one lemma for each way in which a type can be
made of parts, and what was put in for the parts is given. -/

/-- Replacing placeholders in a union of parts of the kind ends, with what the union becomes. -/
def ReplacesInside (t : TypeTable) (m : TemplateMap) (kind : TypeKind) : Prop :=
  ∀ u : UnionType, (∀ e ∈ u.members, e ∈ kind.embedded) → ∀ t₁, t.Extends t₁ → t₁.Proper →
    Delivers t₁ (u.bindMembers fun a _ => substitute m a) fun t v => t.Becomes m.replacement u v

section

variable {name : String} {key : KeyKind} {element : TypeId} {fields : ShapeFields}
  {c : ClassName} {args : List UnionType} {sig : CallableSignature} {nullable : Bool}
  {bound elements : UnionType}

theorem lasting_becomes {ρ : Replacement} : ∀ t t₁ : TypeTable, t.Proper → t₁.Proper →
    t.Extends t₁ → ∀ u v, t.Becomes ρ u v → t₁.Becomes ρ u v :=
  fun _ _ ht _ hext _ _ h => h.extends ht.canonical hext

/-- A type that has no parts and is no placeholder turns into itself. -/
theorem delivers_self (ht : t.Proper) {kind : TypeKind} (hty : t.get? i = some ⟨kind, nullable⟩)
    (hnone : m.replacement.get? kind = none) (hnil : kind.embedded = []) :
    Delivers t (pure (.of i)) fun t v => t.Turns m.replacement i v := by
  refine delivers_pure ht (ht.canonical.turns_self ((everywhere_iff hty).2 ⟨?_, ?_⟩))
  · simp [hnone]
  · simp [hnil]

/-- What the map says of a placeholder is put in its place, with null where the placeholder has
it. -/
theorem delivers_bound (ht : t.Proper) (hm : m.Held (fun _ => True) t)
    (hty : t.get? i = some ⟨.template name, nullable⟩) (hbound : m.get? name = some bound) :
    Delivers t (if nullable then bound.withNull else pure bound)
      fun t v => t.Turns m.replacement i v := by
  have hin : ∀ j ∈ bound.members, j < t.size := fun j hj => (hm.get? hbound j hj).lt_size
  cases nullable with
  | true =>
    refine (UnionType.delivers_mapMembers (R := fun t => t.WithNull true) ?_ ?_ ht ?_).imp
      fun v t₁ hext _ hv => .bound (hext.keeps.get? hty) hbound hv
    · exact fun _ _ ht _ hext _ _ h => h.extends ht.canonical hext
    · exact fun _ _ _ _ hj hk => hj.unique hk
    · intro t₁ hext ht₁ j hj
      obtain ⟨ty, hty⟩ := exists_get? (hext.lt_size (hin j hj))
      exact delivers_withNull ht₁ hty fun _ => rfl
  | false =>
    refine delivers_pure ht (.bound hty hbound ⟨fun j hj => ⟨j, ?_⟩, fun j => ⟨?_, ?_⟩⟩)
    · exact (ht.canonical.withNull_false (hin j hj)).2 rfl
    · exact fun hj => ⟨j, hj, (ht.canonical.withNull_false (hin j hj)).2 rfl⟩
    · rintro ⟨k, hk, hkj⟩
      rwa [(ht.canonical.withNull_false (hin k hk)).1 hkj]

/-- Arrays turn into the arrays of what their elements turn into. -/
theorem delivers_arrays (ht : t.Proper) (hty : t.get? i = some ⟨.array key element, nullable⟩)
    (helements : t.Turns m.replacement element elements) :
    Delivers t (elements.orMixed.mapMembers fun e => array key e nullable)
      fun t v => t.Turns m.replacement i v := by
  have hin := ht.canonical.orMixed_lt_size (helements.lt_size ht.canonical)
  refine (UnionType.delivers_mapMembers (R := fun t e j => e < t.size ∧
    t.Finds ⟨.array key e, nullable⟩ j) ?_ ?_ ht fun t₁ hext₁ ht₁ e he => ?_).imp ?_
  · exact fun t t₁ _ _ hext e j h =>
      ⟨hext.lt_size h.1, h.2.extends (writable_array h.1 nullable).inside hext⟩
  · exact fun _ _ _ _ hj hk => hj.2.unique hk.2
  · have hlt := hext₁.lt_size (hin e he)
    exact (delivers_array ht₁ key hlt nullable).imp fun j t₂ hext₂ _ hj => ⟨hext₂.lt_size hlt, hj⟩
  · intro v t₁ hext ht₁ hv
    refine .array (hext.keeps.get? hty) (helements.extends ht.canonical hext)
      (hv.mono (fun _ _ _ h => h.2) fun _ _ _ hj hk => hj.unique hk)

/-- A shape turns into the one shape whose fields hold what its fields become. -/
theorem delivers_shape (ht : t.Proper) (hty : t.get? i = some ⟨.shape fields, nullable⟩)
    (hinner : ReplacesInside t m (.shape fields)) :
    Delivers t (do
        let fields ← fields.attach.mapM fun f => do
          let type ← f.1.2.type.bindMembers fun a _ => substitute m a
          return (f.1.1, { f.1.2 with type })
        return UnionType.of (← intern (.shape (ShapeFields.ofList fields)) nullable))
      fun t v => t.Turns m.replacement i v := by
  refine (delivers_mapM_attach (P := fun t => ShapeField.Remade (t.Becomes m.replacement))
    (fun t t₁ ht ht₁ hext _ _ h => h.mono (lasting_becomes t t₁ ht ht₁ hext _ _)) ht
    fun t₁ hext ht₁ f => ?_).bind fun fields' t₁ hext ht₁ hfields => ?_
  · refine (hinner f.1.2.type (fun e he => List.mem_flatMap.2 ⟨f.1, f.2, he⟩) t₁ hext ht₁).bind ?_
    exact fun type t₂ _ ht₂ htype => delivers_pure ht₂ ⟨rfl, rfl, htype⟩
  · have hremade : (TypeKind.shape fields).Remade (t₁.Becomes m.replacement) (.shape fields') :=
      .shape hfields
    rw [ShapeFields.ofList_eq_self (hremade.proper (ht.kinds i _ hty)).2]
    exact (delivers_remade ht₁ (hext.keeps.get? hty) hremade).bind fun j t₂ _ ht₂ hj =>
      delivers_pure ht₂ hj

/-- A class turns into the class with what its arguments become. -/
theorem delivers_object (ht : t.Proper) (hty : t.get? i = some ⟨.object c args, nullable⟩)
    (hinner : ReplacesInside t m (.object c args)) :
    Delivers t (if args.isEmpty then pure (.of i) else do
        let args ← args.attach.mapM fun arg => arg.1.bindMembers fun a _ => substitute m a
        return .of (← make c.space c.name args nullable))
      fun t v => t.Turns m.replacement i v := by
  split
  · next hempty =>
    obtain rfl : args = [] := List.isEmpty_iff.1 hempty
    exact delivers_self ht hty rfl rfl
  · refine (delivers_mapM_attach (P := fun t => t.Becomes m.replacement) lasting_becomes ht
      fun t₁ hext ht₁ arg => hinner arg.1 (fun e he => List.mem_flatMap.2 ⟨arg.1, arg.2, he⟩)
        t₁ hext ht₁).bind fun args' t₁ hext ht₁ hargs => ?_
    have hname := ht.kinds i _ hty
    rw [make_of_typable (hname.1.typable hname.2)]
    exact (delivers_remade ht₁ (hext.keeps.get? hty) (.object hargs)).bind fun j t₂ _ ht₂ hj =>
      delivers_pure ht₂ hj

/-- A callable type turns into the one with what its parameters and its result become. -/
theorem delivers_callable (ht : t.Proper) (hty : t.get? i = some ⟨.callable sig, nullable⟩)
    (hinner : ReplacesInside t m (.callable sig)) :
    Delivers t (do
        let params ← sig.params.attach.mapM fun p => do
          let type ← p.1.type.bindMembers fun a _ => substitute m a
          return { p.1 with type }
        let result ← sig.result.bindMembers fun a _ => substitute m a
        return UnionType.of (← intern (.callable { sig with params, result }) nullable))
      fun t v => t.Turns m.replacement i v := by
  refine (delivers_mapM_attach (P := fun t => CallableParam.Remade (t.Becomes m.replacement))
    (fun t t₁ ht ht₁ hext _ _ h => h.mono (lasting_becomes t t₁ ht ht₁ hext _ _)) ht
    fun t₁ hext ht₁ p => ?_).bind fun params t₁ hext ht₁ hparams => ?_
  · refine (hinner p.1.type (fun e he => List.mem_append_left _
      (List.mem_flatMap.2 ⟨p.1, p.2, he⟩)) t₁ hext ht₁).bind ?_
    exact fun type t₂ _ ht₂ htype => delivers_pure ht₂ ⟨htype, rfl, rfl, rfl⟩
  · refine (hinner sig.result (fun e he => List.mem_append_right _ he) t₁ hext ht₁).bind
      fun result t₂ hext₂ ht₂ hresult => ?_
    have hparams := hparams.imp fun _ _ h => h.mono (lasting_becomes t₁ t₂ ht₁ ht₂ hext₂ _ _)
    exact (delivers_remade ht₂ ((hext.trans hext₂).keeps.get? hty)
      (.callable hparams hresult)).bind fun j t₃ _ ht₃ hj => delivers_pure ht₃ hj

end

/-- Replacing placeholders inside a type ends, with what the type turns into. -/
theorem delivers_substitute (ht : t.Proper) (hi : i < t.size) (hm : m.Held (fun _ => True) t) :
    Delivers t (substitute m i) fun t v => t.Turns m.replacement i v := by
  induction i using Nat.strong_induction_on generalizing t with
  | _ i ih =>
    obtain ⟨⟨kind, nullable⟩, hty⟩ := exists_get? hi
    rw [substitute]
    refine delivers_fetchBelow_bind hty fun below => ?_
    -- what is inside stands before, so the induction hypothesis speaks about it
    have hinner : ReplacesInside t m kind := by
      intro u hu t₁ hext ht₁
      refine (UnionType.delivers_bindMembers (P := fun t => t.Turns m.replacement)
        (fun _ _ ht _ hext _ _ h => h.extends ht.canonical hext) ht₁ fun t₂ hext₂ ht₂ a ha => ?_).imp ?_
      · have hlt := below a (hu a ha)
        have hext := hext.trans hext₂
        exact ih a hlt ht₂ (hext.lt_size (hlt.trans hi)) (hm.keeps hext.keeps)
      · rintro v t₂ - ht₂ ⟨ws, hws, rfl⟩
        exact ht₂.canonical.becomes_of_forall₂ hws
    cases kind with
    | template name =>
      dsimp only
      split
      · next hbound => exact delivers_bound ht hm hty hbound
      · next hnone => exact delivers_self ht hty hnone rfl
    | array key element =>
      have hlt : element < i := below element (List.mem_singleton_self element)
      exact (ih element hlt ht (hlt.trans hi) hm).bind fun elements t₁ hext ht₁ helements =>
        delivers_arrays ht₁ (hext.keeps.get? hty) helements
    | shape fields => exact delivers_shape ht hty hinner
    | object name args => exact delivers_object ht hty hinner
    | callable sig => exact delivers_callable ht hty hinner
    | native k | intLiteral n | stringLiteral s => exact delivers_self ht hty rfl rfl

/-- The work ends, and what it gives has the property however the table grows afterwards. -/
def Returns {α : Type} (t : TypeTable) (work : TypeM α) (Q : TypeTable → α → Prop) : Prop :=
  ∃ a t₁, work t = .ok (a, t₁) ∧ ∀ t₂, Reaches TypeKind.Proper t₁ t₂ → Q t₂ a

theorem Delivers.returns {α : Type} {work : TypeM α} {Q Q' : TypeTable → α → Prop}
    (h : Delivers t work Q)
    (hQ : ∀ a t₁ t₂, t₁.Proper → Q t₁ a → t₁.Extends t₂ → t₂.Proper → t.Extends t₂ → Q' t₂ a) :
    Returns t work Q' := by
  obtain ⟨a, t₁, hrun, hext, ht₁, hq⟩ := h
  refine ⟨a, t₁, hrun, fun t₂ hreach => ?_⟩
  obtain ⟨ht₂, hext₂⟩ := hreach.proper ht₁
  exact hQ a t₁ t₂ ht₁ hq hext₂ ht₂ (hext.trans hext₂)

end TypeM

namespace UnionType

open TypeM TypeTable

variable {t : TypeTable} {u v w : UnionType} {m m₁ m₂ : TemplateMap}

theorem foldl_union_of (u : UnionType) : (u.members.map of).foldl union empty = u := by
  have hloop : ∀ (ids : List TypeId) (v : UnionType), (v.members ++ ids).Nodup →
      ((ids.map of).foldl union v).members = v.members ++ ids := by
    intro ids
    induction ids with
    | nil => intro v _; simp
    | cons i ids ih =>
      intro v hnodup
      rw [List.append_cons] at hnodup ⊢
      have hnew : i ∉ v.members := fun hi =>
        (List.nodup_append.1 (List.nodup_append.1 hnodup).1).2.2 i hi i (by simp) rfl
      have hstep : (v.union (of i)).members = v.members ++ [i] := by
        rw [union, members_of, List.foldl_cons, List.foldl_nil, insert, dif_neg hnew]
      rw [List.map_cons, List.foldl_cons, ih _ (hstep ▸ hnodup), hstep]
  exact ext (hloop u.members empty u.nodup)

/-- Replacing placeholders inside the members ends, with what these turn into; if they turn into
themselves the union is left as it is. -/
theorem delivers_substitute (ht : t.Proper) (hu : ∀ i ∈ u.members, i < t.size)
    (hm : m.Held (fun _ => True) t) :
    Delivers t (u.substitute m) fun t v => t.Becomes m.replacement u v ∧
      ((∀ i ∈ u.members, t.Turns m.replacement i (of i)) → v = u) := by
  rw [UnionType.substitute]
  split
  · next hempty =>
    obtain rfl : m = [] := List.isEmpty_iff.1 hempty
    refine delivers_pure ht ⟨⟨of, fun i hi => ?_, (sameMembers_flatMap_of u).symm⟩, fun _ => rfl⟩
    exact ht.canonical.turns_self_of_holds (holds_of_lt (hu i hi) fun s b hb => by cases hb)
  · refine (delivers_bindMembers (P := fun t => t.Turns m.replacement) ?_ ht ?_).imp ?_
    · exact fun _ _ ht _ hext _ _ h => h.extends ht.canonical hext
    · exact fun t₁ hext ht₁ i hi =>
        TypeM.delivers_substitute ht₁ (hext.lt_size (hu i hi)) (hm.keeps hext.keeps)
    · rintro v t₁ - ht₁ ⟨ws, hws, rfl⟩
      refine ⟨ht₁.canonical.becomes_of_forall₂ hws, fun hself => ?_⟩
      have hall : ws = u.members.map of := by
        have hturns := ((List.forall₂_and_left _ _).2 ⟨hself, hws⟩).imp fun i w h =>
          (eq_of_sameMembers_of (h.2.unique ht₁.canonical h.1)).symm
        exact (List.forall₂_eq_eq_eq ▸ List.forall₂_map_left_iff.2 hturns).symm
      rw [hall, foldl_union_of]

end UnionType

/-! ### Replacing twice -/

namespace TemplateMap

open TypeM TypeTable

variable {t : TypeTable} {m m₁ m₂ : TemplateMap}

/-- One map followed by another is found, and is what both do one after the other. -/
theorem delivers_andThen (ht : t.Proper) (hm₁ : m₁.Held (fun _ => True) t)
    (hm₂ : m₂.Held (fun _ => True) t) :
    Delivers t (m₁.andThen m₂) fun t m => m.Held (fun _ => True) t ∧
      t.Chains m₁.replacement m₂.replacement m.replacement := by
  refine (delivers_mapM (P := fun t (b c : String × UnionType) =>
    c.1 = b.1 ∧ t.Becomes m₂.replacement b.2 c.2) ?_ ht ?_).bind ?_
  · exact fun _ _ ht _ hext _ _ h => ⟨h.1, h.2.extends ht.canonical hext⟩
  · intro t₁ hext ht₁ b hb
    have hin : ∀ i ∈ b.2.members, i < t₁.size := fun i hi => hext.lt_size (hm₁ b hb i hi).lt_size
    exact (UnionType.delivers_substitute ht₁ hin (hm₂.keeps hext.keeps)).bind
      fun v t₂ _ ht₂ hv => delivers_pure ht₂ ⟨rfl, hv.1⟩
  intro turned t₁ hext ht₁ hturned
  refine delivers_pure ht₁ ⟨fun b hb => ?_, ?_, ?_⟩
  · rcases List.mem_append.1 hb with hb | hb
    · obtain ⟨_, -, -, hbecomes⟩ := exists_of_forall₂ hturned.flip hb
      exact fun i hi => holds_of_lt (hbecomes.lt_size ht₁.canonical i hi) fun _ => trivial
    · exact (hm₂ b (List.mem_of_mem_filter hb)).keeps hext.keeps
  · intro kind b hb
    obtain ⟨s, rfl, hs⟩ := replacement_eq_some hb
    rcases get?_of_forall₂ hturned s with ⟨hnone, -⟩ | ⟨u, v, hu, hv, huv⟩
    · rw [hs] at hnone
      cases hnone
    · rw [hs] at hu
      cases hu
      refine ⟨v, ?_, huv⟩
      rw [replacement_template, get?, List.lookup_append, ← get?, hv, Option.some_or]
  · intro kind hkind
    cases kind with
    | template s =>
      rcases get?_of_forall₂ hturned s with ⟨-, hnone⟩ | ⟨u, v, hu, -⟩
      · rw [replacement_template, get?, List.lookup_append, ← get?, hnone, Option.none_or]
        exact get?_filter (p := fun s => (m₁.get? s).isNone) (by simpa using hkind) m₂
      · rw [replacement_template, hu] at hkind
        cases hkind
    | _ => rfl

/-- Maps of placeholders to themselves are found. -/
theorem delivers_identity (ht : t.Proper) {names : List String}
    (hnames : ∀ s ∈ names, (TypeKind.template s).WellNamed) :
    Delivers t (identity names) fun t m => m.Held (fun _ => True) t ∧
      ∀ s b, m.get? s = some b → ∃ k, b = .of k ∧ t.Finds ⟨.template s, false⟩ k := by
  refine (delivers_mapM (P := fun t s b => ∃ k, b = (s, .of k) ∧ t.Finds ⟨.template s, false⟩ k)
    ?_ ht ?_).imp ?_
  · rintro t t₁ - - hext s b ⟨k, rfl, hk⟩
    exact ⟨k, rfl, hk.extends (by simp [TypeKind.embedded]) hext⟩
  · exact fun t₁ _ ht₁ s hs => (delivers_template ht₁ (hnames s hs)).bind
      fun k t₂ _ ht₂ hk => delivers_pure ht₂ ⟨k, rfl, hk⟩
  · intro m t₁ _ ht₁ hm
    constructor
    · intro b hb i hi
      obtain ⟨s, -, k, rfl, hk⟩ := exists_of_forall₂ hm.flip hb
      rw [UnionType.mem_of.1 hi]
      exact holds_of_lt (ht₁.canonical.lt_size_of_finds hk) fun _ => trivial
    · intro s b hs
      obtain ⟨_, -, k, heq, hk⟩ := exists_of_forall₂ hm.flip (mem_of_get? hs)
      cases heq
      exact ⟨k, rfl, hk⟩

end TemplateMap

namespace UnionType

open TypeM TypeTable

variable {t : TypeTable} {u v w : UnionType} {m m₁ m₂ : TemplateMap}

theorem inside_of_get? {i : TypeId} {ty : Ty} (h : t.get? i = some ty) : (of i).Inside t :=
  held_of (holds_of_lt (lt_size_of_get? h) fun _ => trivial)

/-- Replacing placeholders twice is replacing them once by what the second map makes of the first one,
however many types join the table in between; and replacing placeholders by themselves changes
nothing. -/
theorem substitute_substitute (h : Reachable TypeKind.Proper t) (hu : u.Inside t)
    (hm₁ : m₁.Held (fun _ => True) t) (hm₂ : m₂.Held (fun _ => True) t) (hfull₁ : m₁.Full)
    (hfull₂ : m₂.Full) :
    (Returns t (u.substitute m₁) fun t v => Returns t (v.substitute m₂) fun t w =>
      Returns t (m₁.andThen m₂) fun t m => Returns t (u.substitute m) fun _ w' => w'.SameMembers w) ∧
    ∀ names : List String, (∀ s ∈ names, (TypeKind.template s).WellNamed) →
      Returns t (TemplateMap.identity names) fun t m => ∃ t₁, u.substitute m t = .ok (u, t₁) := by
  have ht := h.proper
  have hin : ∀ i ∈ u.members, i < t.size := fun i hi => (hu i hi).lt_size
  constructor
  · refine (delivers_substitute ht hin hm₁).returns fun v t₁ t₂ ht₁ hv hext₁ ht₂ hext₂ => ?_
    have hv := hv.1.extends ht₁.canonical hext₁
    refine (delivers_substitute ht₂ (hv.lt_size ht₂.canonical) (hm₂.keeps hext₂.keeps)).returns
      fun w t₃ t₄ ht₃ hw hext₃ ht₄ hext₄ => ?_
    have hw := hw.1.extends ht₃.canonical hext₃
    have hext := hext₂.trans hext₄
    refine (TemplateMap.delivers_andThen ht₄ (hm₁.keeps hext.keeps) (hm₂.keeps hext.keeps)).returns
      fun m t₅ t₆ ht₅ hm hext₅ ht₆ hext₆ => ?_
    refine (delivers_substitute ht₆ (fun i hi => (hext.trans hext₆).lt_size (hin i hi))
      (hm.1.keeps hext₅.keeps)).returns fun w' t₇ t₈ ht₇ hw' hext₇ ht₈ hext₈ => ?_
    -- all that was found on the way still holds in the last table
    have hlast := hext₆.trans hext₈
    have hv := hv.extends ht₂.canonical (hext₄.trans hlast)
    have hw := hw.extends ht₄.canonical hlast
    have hchains := hm.2.extends ht₅.canonical (hext₅.trans hext₈)
    have hw' := hw'.1.extends ht₇.canonical hext₇
    have honce := hv.comp ht₈.canonical hfull₁.replacement hfull₂.replacement hchains hw
    exact hw'.unique ht₈.canonical honce
  · intro names hnames
    refine (TemplateMap.delivers_identity ht hnames).returns fun m t₁ t₂ ht₁ hm hext ht₂ hext₂ => ?_
    obtain ⟨hheld, hself⟩ := hm
    obtain ⟨v, t₃, hrun, hext₃, ht₃, -, hsame⟩ := delivers_substitute ht₂
      (fun i hi => hext₂.lt_size (hin i hi)) (hheld.keeps hext.keeps)
    refine ⟨t₃, hrun.trans ?_⟩
    rw [hsame fun i hi => ?_]
    refine ht₃.canonical.turns_self_of_holds (holds_of_lt ((hext₂.trans hext₃).lt_size (hin i hi))
      fun s b hs => ?_)
    obtain ⟨k, rfl, hk⟩ := hself s b hs
    exact ⟨k, rfl, hk.extends (by simp [TypeKind.embedded]) (hext.trans hext₃)⟩

/-- An array of placeholders with null: first the placeholder is replaced by another one, then that
one by two types, which makes two arrays. -/
theorem substitute_substitute_array : ∃ t T S a, Reachable TypeKind.Proper t ∧
    t.get? T = some ⟨.template "T", false⟩ ∧ t.get? S = some ⟨.template "S", false⟩ ∧
    t.get? a = some ⟨.array .mixed T, true⟩ ∧
    Returns t ((of a).substitute [("T", of S)]) fun t v =>
      Returns t (v.substitute [("S", ofKeyKind .mixed)]) fun t w =>
        Returns t (TemplateMap.andThen [("T", of S)] [("S", ofKeyKind .mixed)]) fun t m =>
          Returns t ((of a).substitute m) fun _ w' => w'.SameMembers w := by
  obtain ⟨t, T, S, a, h, hT, hS, ha⟩ := exists_placeholders
  have hkeys : (ofKeyKind .mixed).Inside t := by
    intro i hi
    have hi : i ∈ [NativeKind.int.id, NativeKind.string.id] := mem_ofList.1 hi
    simp only [List.mem_cons, List.not_mem_nil, or_false] at hi
    rcases hi with rfl | rfl <;>
      exact holds_of_lt (lt_size_of_entry (h.proper.canonical.natives _)) fun _ => trivial
  refine ⟨t, T, S, a, h, hT, hS, ha, (substitute_substitute h (inside_of_get? ha) ?_ ?_ ?_ ?_).1⟩
  · exact List.forall_mem_singleton.2 (inside_of_get? hS)
  · exact List.forall_mem_singleton.2 hkeys
  · exact List.forall_mem_singleton.2 (by simp [isEmpty, members_of])
  · exact List.forall_mem_singleton.2 (by decide)

end UnionType

end UnionInference
