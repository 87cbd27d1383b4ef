import UnionInference.Proofs.CodeBase.Loading
import UnionInference.Proofs.Types.Interning

/-!
Expansion without memory. Work on a table and a code base is steady when it does not look at the
expansions that the table remembers, and when it can be repeated: once it has given a result, it
gives the same result wherever the table holds at least the types that it left there and the classes
declare the same, and then it adds no more types. Steadiness is kept by doing one thing after the
other, so it is shown for the single steps of expansion and then by induction for the whole.
-/

namespace UnionInference

namespace TypeTable

/-- The table with other remembered expansions. -/
def withCache (t : TypeTable) (c : ExpansionCache) : TypeTable := { t with cache := c }

variable {t t' : TypeTable} {c : ExpansionCache}

theorem Canonical.withCache (h : t.Canonical) (c : ExpansionCache) : (t.withCache c).Canonical :=
  ⟨h.keyed, h.keyFound, h.identityFound, h.onlyFound, h.normal, h.named, h.natives⟩

theorem extends_withCache (t : TypeTable) (c : ExpansionCache) : t.Extends (t.withCache c) :=
  ⟨fun _ _ => id, fun _ _ => id⟩

/-- What stands at a place stands there in every larger table. -/
theorem Extends.fetch_eq_ok (h : t.Extends t') {i : TypeId} {ty : Ty} (hf : t.fetch i = .ok ty) :
    t'.fetch i = .ok ty := by
  rcases Nat.lt_or_ge i t.size with hlt | hge
  · obtain ⟨e, he⟩ := exists_entry hlt
    rw [fetch_eq he] at hf
    rw [fetch_eq (h.entries i e he), hf]
  · rw [fetch_eq_error hge] at hf
    cases hf

theorem place_withCache (t : TypeTable) (c : ExpansionCache) (ty : Ty)
    (h : ∀ e ∈ ty.kind.embedded, e < t.size) :
    (t.withCache c).place ty h = ((t.place ty h).1, (t.place ty h).2.withCache c) := by
  have hfound : (t.withCache c).byKey[(t.withCache c).identity ty]? = t.byKey[t.identity ty]? := rfl
  delta place
  rw [hfound]
  cases t.byKey[t.identity ty]? <;> rfl

/-! ### Arrays of objects -/

theorem isArrayOfClass_eq {id : TypeId} {e : TypeEntry} (he : t.entries[id]? = some e) :
    t.isArrayOfClass id =
      match e.type.kind with
      | .array _ element => do
        if (← t.fetch element).className?.isSome then return true else t.isArrayOfClass element
      | _ => .ok false := by
  obtain ⟨hlt, rfl⟩ := Array.getElem?_eq_some_iff.1 he
  rw [isArrayOfClass, fetchBelow, dif_pos hlt]
  simp only [bind, Except.bind]
  split
  · next key element hk =>
    simp only [hk]
  · next hk =>
    split
    · next key element hk' => exact absurd hk' (hk key element)
    · rfl

theorem exists_isArrayOfClass {id : TypeId} (hid : id < t.size) :
    ∃ nested, t.isArrayOfClass id = .ok nested := by
  induction id using Nat.strong_induction_on with
  | _ id ih =>
    obtain ⟨e, he⟩ := exists_entry hid
    rw [isArrayOfClass_eq he]
    split
    · next key element hk =>
      have hlt : element < id := embedded_lt he (by simp [hk, TypeKind.embedded])
      obtain ⟨f, hf⟩ := exists_entry (hlt.trans hid)
      rw [fetch_eq hf]
      show ∃ nested, (if f.type.className?.isSome then pure true else t.isArrayOfClass element :
        Checked Bool) = .ok nested
      split
      · exact ⟨true, rfl⟩
      · exact ih element hlt (hlt.trans hid)
    · exact ⟨false, rfl⟩

theorem isArrayOfClass_eq_error {id : TypeId} (h : t.size ≤ id) :
    t.isArrayOfClass id = .error (.unknownType id) := by
  have hout : ¬ id < t.entries.size := Nat.not_lt.2 h
  rw [isArrayOfClass, fetchBelow, dif_neg hout]
  rfl

/-- The elements of an array stand before it, so the walk down into arrays is an induction. -/
theorem isArrayOfClass_congr {id : TypeId} (h : ∀ i ≤ id, t'.entries[i]? = t.entries[i]?) :
    t'.isArrayOfClass id = t.isArrayOfClass id := by
  induction id using Nat.strong_induction_on with
  | _ id ih =>
    cases he : t.entries[id]? with
    | none =>
      have hle : t.size ≤ id := Array.getElem?_eq_none_iff.1 he
      have hle' : t'.size ≤ id := Array.getElem?_eq_none_iff.1 ((h id le_rfl).trans he)
      rw [isArrayOfClass_eq_error hle, isArrayOfClass_eq_error hle']
    | some e =>
      rw [isArrayOfClass_eq he, isArrayOfClass_eq ((h id le_rfl).trans he)]
      split
      · next key element hk =>
        have hlt : element < id := embedded_lt he (by simp [hk, TypeKind.embedded])
        obtain ⟨f, hf⟩ := exists_entry (lt_trans hlt (lt_size_of_entry he))
        rw [fetch_eq hf, fetch_eq ((h element hlt.le).trans hf),
          ih element hlt fun i hi => h i (le_trans hi hlt.le)]
      · rfl
theorem Extends.isArrayOfClass_eq_ok (h : t.Extends t') {id : TypeId} {r : Bool}
    (hr : t.isArrayOfClass id = .ok r) : t'.isArrayOfClass id = .ok r := by
  have hlt : id < t.size := by
    by_contra hge
    rw [isArrayOfClass_eq_error (Nat.not_lt.1 hge)] at hr
    cases hr
  rw [← hr]
  refine isArrayOfClass_congr fun i hi => ?_
  obtain ⟨e, he⟩ := exists_entry (lt_of_le_of_lt hi hlt)
  rw [he, h.entries i e he]

end TypeTable

theorem TypeM.intern_withCache (kind : TypeKind) (nullable : Bool) (t : TypeTable)
    (c : ExpansionCache) :
    intern kind nullable (t.withCache c) =
      (intern kind nullable t).map fun r => (r.1, r.2.withCache c) := by
  unfold intern
  by_cases h : ∀ e ∈ kind.embedded, e < t.size
  · rw [dif_pos h, dif_pos (c := ∀ e ∈ kind.embedded, e < (t.withCache c).size) h]
    exact congrArg Except.ok (TypeTable.place_withCache t c _ h)
  · rw [dif_neg h, dif_neg (c := ∀ e ∈ kind.embedded, e < (t.withCache c).size) h]
    rfl

/-! ### Steady work -/

namespace ExpandM

variable {α β : Type}

/-- Work that leaves the remembered expansions alone and can be repeated. -/
structure Steady (p : ExpandM CodeBase α) : Prop where
  /-- What is remembered makes no difference. -/
  frame : ∀ (t : TypeTable) (b : CodeBase) (c : ExpansionCache), t.Canonical → b.Loadable →
    p (t.withCache c, b) = (p (t, b)).map fun r => (r.1, r.2.1.withCache c, r.2.2)
  /-- The table grows, and what the classes declare stays. -/
  grows : ∀ {t t₁ : TypeTable} {b b₁ : CodeBase} {a : α}, t.Canonical → b.Loadable →
    p (t, b) = .ok (a, t₁, b₁) → t.Grows TypeKind.WellNamed t₁ ∧ b.Loads b₁
  /-- The result comes again, and no more types are added. -/
  repeats : ∀ {t t₁ t₂ : TypeTable} {b b₁ b₂ : CodeBase} {a : α}, t.Canonical → b.Loadable →
    p (t, b) = .ok (a, t₁, b₁) → t₂.Canonical → t₁.Extends t₂ → b₂.Loadable →
    b₂.declared? = b.declared? → ∃ b₃, p (t₂, b₂) = .ok (a, t₂, b₃)

/-- The work can give the result on a canonical table. -/
def Gives (p : ExpandM CodeBase α) (a : α) : Prop :=
  ∃ (t : TypeTable) (b : CodeBase) (s : TypeTable × CodeBase), t.Canonical ∧ p (t, b) = .ok (a, s)

theorem bind_apply (p : ExpandM CodeBase α) (f : α → ExpandM CodeBase β)
    (s : TypeTable × CodeBase) : (p >>= f) s = (p s >>= fun r => f r.1 r.2) := rfl

theorem bind_eq_ok {p : ExpandM CodeBase α} {f : α → ExpandM CodeBase β}
    {s : TypeTable × CodeBase} {r : β × TypeTable × CodeBase} :
    (p >>= f) s = .ok r ↔ ∃ a s', p s = .ok (a, s') ∧ f a s' = .ok r := by
  constructor
  · intro h
    cases hp : p s with
    | error v => rw [bind_apply, hp] at h; cases h
    | ok q => exact ⟨q.1, q.2, rfl, by rwa [bind_apply, hp] at h⟩
  · rintro ⟨a, s', hp, hf⟩
    rw [bind_apply, hp]
    exact hf

theorem steady_pure (a : α) : Steady (pure a : ExpandM CodeBase α) where
  frame _ _ _ _ _ := rfl
  grows ht hb h := by
    cases h
    exact ⟨TypeTable.Grows.refl ht, CodeBase.Loads.refl hb⟩
  repeats _ _ h _ _ _ _ := by
    cases h
    exact ⟨_, rfl⟩

theorem steady_throw (e : Violation) : Steady (throw e : ExpandM CodeBase α) where
  frame _ _ _ _ _ := rfl
  grows _ _ h := by cases h
  repeats _ _ h := by cases h

/-- Steady work after steady work. The second part may rely on what the first part can give. -/
theorem Steady.bind {p : ExpandM CodeBase α} {f : α → ExpandM CodeBase β} (hp : Steady p)
    (hf : ∀ a, Gives p a → Steady (f a)) : Steady (p >>= f) where
  frame t b c ht hb := by
    rw [bind_apply, bind_apply, hp.frame t b c ht hb]
    cases hr : p (t, b) with
    | error e => rfl
    | ok r =>
      obtain ⟨a, t₁, b₁⟩ := r
      obtain ⟨hg, hl⟩ := hp.grows ht hb hr
      exact (hf a ⟨t, b, _, ht, hr⟩).frame t₁ b₁ c hg.canonical hl.loadable
  grows ht hb h := by
    obtain ⟨a, ⟨t₁, b₁⟩, hr, h⟩ := bind_eq_ok.1 h
    obtain ⟨hg, hl⟩ := hp.grows ht hb hr
    obtain ⟨hg', hl'⟩ := (hf a ⟨_, _, _, ht, hr⟩).grows hg.canonical hl.loadable h
    exact ⟨hg.trans hg', hl.trans hl'⟩
  repeats {t t₁ t₂ b b₁ b₂ a} ht hb h ht₂ hext hb₂ hd := by
    obtain ⟨a', ⟨t', b'⟩, hr, h⟩ := bind_eq_ok.1 h
    obtain ⟨hg, hl⟩ := hp.grows ht hb hr
    have hs := hf a' ⟨_, _, _, ht, hr⟩
    have hkeeps := (hs.grows hg.canonical hl.loadable h).1.keeps
    -- the first part comes again on the large table, and the second part after it
    obtain ⟨b₃, hr₂⟩ := hp.repeats ht hb hr ht₂ (hkeeps.trans hext) hb₂ hd
    obtain ⟨-, hl₂⟩ := hp.grows ht₂ hb₂ hr₂
    obtain ⟨b₄, h₂⟩ := hs.repeats hg.canonical hl.loadable h ht₂ hext hl₂.loadable
      (hl₂.declared.trans (hd.trans hl.declared.symm))
    exact ⟨b₄, bind_eq_ok.2 ⟨a', (t₂, b₃), hr₂, h₂⟩⟩

theorem types_apply (w : TypeM α) (t : TypeTable) (b : CodeBase) :
    (types w : ExpandM CodeBase α) (t, b) = (w t).map fun r => (r.1, r.2, b) := by
  show (w t >>= fun r => _) = _
  cases w t <;> rfl

theorem types_bind (w : TypeM α) (f : α → TypeM β) :
    (types (w >>= f) : ExpandM CodeBase β) = types w >>= fun a => types (f a) := by
  funext s
  show (types (w >>= f) : ExpandM CodeBase β) (s.1, s.2) = _
  rw [types_apply, TypeM.bind_apply, bind_apply]
  show _ = ((types w : ExpandM CodeBase α) (s.1, s.2) >>= fun r => types (f r.1) r.2)
  rw [types_apply]
  cases w s.1 with
  | error e => rfl
  | ok r => exact (types_apply (f r.1) r.2 s.2).symm

theorem types_eq_ok {w : TypeM α} {t t₁ : TypeTable} {b b₁ : CodeBase} {a : α} :
    (types w : ExpandM CodeBase α) (t, b) = .ok (a, t₁, b₁) ↔ w t = .ok (a, t₁) ∧ b₁ = b := by
  rw [types_apply]
  cases hw : w t with
  | error e => constructor <;> intro h <;> simp [Except.map] at h
  | ok r => simp [Except.map, Prod.ext_iff, eq_comm, and_assoc]

/-- A question to the table whose answer no new type can change. -/
theorem steady_query {f : TypeTable → Checked α}
    (hframe : ∀ (t : TypeTable) (c : ExpansionCache), f (t.withCache c) = f t)
    (hstays : ∀ {t t' : TypeTable} {a : α}, t.Extends t' → f t = .ok a → f t' = .ok a) :
    Steady (query f : ExpandM CodeBase α) := by
  have hok : ∀ {t t₁ : TypeTable} {b b₁ : CodeBase} {a : α},
      (query f : ExpandM CodeBase α) (t, b) = .ok (a, t₁, b₁) ↔ f t = .ok a ∧ t₁ = t ∧ b₁ = b := by
    intro t t₁ b b₁ a
    rw [query, types_eq_ok, TypeM.query]
    cases f t <;> simp [Except.map, eq_comm, and_assoc]
  constructor
  · intro t b c _ _
    rw [query, types_apply, types_apply, TypeM.query, TypeM.query, hframe]
    cases f t <;> rfl
  · intro t t₁ b b₁ a ht hb h
    obtain ⟨-, rfl, rfl⟩ := hok.1 h
    exact ⟨TypeTable.Grows.refl ht, CodeBase.Loads.refl hb⟩
  · intro t t₁ t₂ b b₁ b₂ a _ _ h _ hext _ _
    obtain ⟨hf, rfl, rfl⟩ := hok.1 h
    exact ⟨b₂, hok.2 ⟨hstays hext hf, rfl, rfl⟩⟩

/-- A request for a type whose names can be told apart. -/
theorem steady_intern {kind : TypeKind} (hk : kind.WellNamed) (nullable : Bool) :
    Steady (types (TypeM.intern kind nullable) : ExpandM CodeBase TypeId) := by
  constructor
  · intro t b c _ _
    rw [types_apply, types_apply, TypeM.intern_withCache]
    cases TypeM.intern kind nullable t <;> rfl
  · intro t t₁ b b₁ a ht hb h
    obtain ⟨hw, rfl⟩ := types_eq_ok.1 h
    exact ⟨TypeM.grows_of_intern ht hk hk hw, CodeBase.Loads.refl hb⟩
  · intro t t₁ t₂ b b₁ b₂ a ht _ h _ hext _ _
    obtain ⟨hw, rfl⟩ := types_eq_ok.1 h
    have hin := TypeM.inside_of_intern hw
    obtain ⟨id, t', hrun, hgrows, hfinds⟩ := TypeM.intern_spec ht nullable hk hk hin
    rw [hrun] at hw
    cases hw
    have hin₁ : ∀ e ∈ kind.embedded, e < t₁.size := fun e he => hgrows.keeps.lt_size (hin e he)
    refine ⟨b₂, types_eq_ok.2 ⟨TypeM.intern_of_finds ?_ (hfinds.extends hin₁ hext), rfl⟩⟩
    exact fun e he => hext.lt_size (hin₁ e he)

theorem steady_declaredType (name : ClassName) :
    Steady (declaredType name : ExpandM CodeBase (Option UnionType)) := by
  have happly : ∀ (t : TypeTable) (b : CodeBase),
      (declaredType name : ExpandM CodeBase (Option UnionType)) (t, b) =
        .ok ((CodeBase.declaredType name b).1, t, (CodeBase.declaredType name b).2) :=
    fun _ _ => rfl
  constructor
  · intro t b c _ _
    rw [happly, happly]
    rfl
  · intro t t₁ b b₁ a ht hb h
    rw [happly] at h
    cases h
    exact ⟨TypeTable.Grows.refl ht, (hb.declaredType name).2⟩
  · intro t t₁ t₂ b b₁ b₂ a _ hb h _ _ hb₂ hd
    rw [happly] at h
    cases h
    refine ⟨(CodeBase.declaredType name b₂).2, ?_⟩
    rw [happly, (hb.declaredType name).1, (hb₂.declaredType name).1, hd]

/-! ### The steps of expansion -/

theorem fetch_apply {t : TypeTable} {id : TypeId} {e : TypeEntry} (he : t.entries[id]? = some e)
    (b : CodeBase) :
    (query (fun t => t.fetch id) : ExpandM CodeBase Ty) (t, b) = .ok (e.type, t, b) := by
  rw [query, types_apply, TypeM.query, TypeTable.fetch_eq he]
  rfl

theorem steady_fetch (id : TypeId) :
    Steady (query (fun t => t.fetch id) : ExpandM CodeBase Ty) :=
  steady_query (fun _ _ => rfl) fun hext hf => hext.fetch_eq_ok hf

theorem steady_isArrayOfClass (id : TypeId) :
    Steady (query (fun t => t.isArrayOfClass id) : ExpandM CodeBase Bool) :=
  steady_query (fun _ _ => TypeTable.isArrayOfClass_congr fun _ _ => rfl)
    fun hext hf => hext.isArrayOfClass_eq_ok hf

theorem steady_typeKey (id : TypeId) :
    Steady (query (fun t => t.typeKey id) : ExpandM CodeBase String) := by
  refine steady_query (fun _ _ => rfl) fun {t t' a} hext hf => ?_
  by_cases hlt : id < t.size
  · rw [hext.typeKey_eq hlt, hf]
  · rw [TypeTable.typeKey, if_neg hlt] at hf
    cases hf

/-- The types of a canonical table have names that can be told apart. -/
theorem Gives.wellNamed {id : TypeId} {ty : Ty}
    (h : Gives (query (fun t => t.fetch id) : ExpandM CodeBase Ty) ty) : ty.kind.WellNamed := by
  obtain ⟨t, b, s, ht, h⟩ := h
  rw [query, types_eq_ok] at h
  obtain ⟨-, e, he, rfl⟩ := TypeM.fetch_eq_ok.1 h.1
  exact ht.named id e he

theorem steady_withNull (id : TypeId) (nullable : Bool) :
    Steady (types (TypeM.withNull id nullable) : ExpandM CodeBase TypeId) := by
  rw [TypeM.withNull, types_bind]
  refine (steady_fetch id).bind fun ty hty => ?_
  split
  · exact steady_pure id
  · exact steady_intern hty.wellNamed nullable

theorem steady_mapM {f : TypeId → TypeM TypeId}
    (hf : ∀ id, Steady (types (f id) : ExpandM CodeBase TypeId)) (ids : List TypeId) :
    Steady (types (ids.mapM f) : ExpandM CodeBase (List TypeId)) := by
  induction ids with
  | nil => exact steady_pure []
  | cons id ids ih =>
    rw [List.mapM_cons, types_bind]
    refine (hf id).bind fun a _ => ?_
    rw [types_bind]
    exact ih.bind fun as _ => steady_pure (a :: as)

theorem steady_mapMembers {f : TypeId → TypeM TypeId}
    (hf : ∀ id, Steady (types (f id) : ExpandM CodeBase TypeId)) (u : UnionType) :
    Steady (types (u.mapMembers f) : ExpandM CodeBase UnionType) := by
  rw [UnionType.mapMembers, types_bind]
  exact (steady_mapM hf u.members).bind fun ids _ => steady_pure (UnionType.ofList ids)

theorem Steady.foldlM {f : β → α → ExpandM CodeBase β} (hf : ∀ b a, Steady (f b a))
    (as : List α) (init : β) : Steady (as.foldlM f init) := by
  induction as generalizing init with
  | nil => exact steady_pure init
  | cons a as ih =>
    rw [List.foldlM_cons]
    exact (hf init a).bind fun b _ => ih b

/-- What one ancestor adds to the expansion of a class. -/
def addAncestor (n : Nat) (id : TypeId) (name : ClassName) (result : UnionType) (member : TypeId) :
    ExpandM CodeBase UnionType := do
  if member = id then return result
  else
    match (← query fun t => t.fetch member).className? with
    | some other =>
      if other.sameClass name then return result.insert member
      else return result.union (← expandWithin n member)
    | none => return result.union (← expandWithin n member)

/-- What one declared type adds to the expansion of a class, with null if the class admits it. -/
def addDeclared (n : Nat) (id : TypeId) (name : ClassName) (nullable : Bool) (result : UnionType)
    (member : TypeId) : ExpandM CodeBase UnionType := do
  let member ← if nullable then types (TypeM.withNull member true) else pure member
  addAncestor n id name result member

/-- The expansion of a class: its own type and what its declared types add. -/
theorem expandWithin_object {t : TypeTable} {id : TypeId} {e : TypeEntry} {name : ClassName}
    {args : List UnionType} (he : t.entries[id]? = some e) (hk : e.type.kind = .object name args)
    (n : Nat) (b : CodeBase) :
    expandWithin (n + 1) id (t, b) =
      match (CodeBase.declaredType name b).1 with
      | none => .ok (.of id, t, (CodeBase.declaredType name b).2)
      | some declared =>
        declared.members.foldlM (addDeclared n id name e.type.nullable) (.of id)
          (t, (CodeBase.declaredType name b).2) := by
  rw [expandWithin, bind_apply, fetch_apply he]
  dsimp only [bind, Except.bind]
  rw [hk]
  show (match (CodeBase.declaredType name b).1 with | none => _ | some declared => _ :
    ExpandM CodeBase UnionType) (t, (CodeBase.declaredType name b).2) = _
  cases (CodeBase.declaredType name b).1 with
  | none => rfl
  | some declared => rfl

/-- The expansion of an array of objects: arrays of what its element expands to. -/
theorem expandWithin_array {t : TypeTable} {id element : TypeId} {e f : TypeEntry} {key : KeyKind}
    {name : ClassName} {args : List UnionType} (he : t.entries[id]? = some e)
    (hk : e.type.kind = .array key element) (hf : t.entries[element]? = some f)
    (hobject : f.type.kind = .object name args) (n : Nat) (b : CodeBase) :
    expandWithin (n + 1) id (t, b) =
      (do
        let expanded ← expandWithin n element
        types (expanded.mapMembers fun i => TypeM.array key i e.type.nullable) :
        ExpandM CodeBase UnionType) (t, b) := by
  rw [expandWithin, bind_apply, fetch_apply he]
  dsimp only [bind, Except.bind]
  rw [hk]
  show (query (fun t => t.fetch element) >>= _ : ExpandM CodeBase UnionType) (t, b) = _
  rw [bind_apply, fetch_apply hf]
  have hnested : (query (fun t => t.isArrayOfClass element) : ExpandM CodeBase Bool) (t, b) =
      .ok (false, t, b) := by
    rw [query, types_apply, TypeM.query, TypeTable.isArrayOfClass_eq hf, hobject]
    rfl
  have hclass : f.type.className? = some name := by rw [Ty.className?, hobject]
  show ((query (fun t => t.isArrayOfClass element) : ExpandM CodeBase Bool) (t, b) >>= fun r =>
    (if f.type.className?.isNone && !r.1 then _ else _ : ExpandM CodeBase UnionType) r.2) = _
  rw [hnested, hclass]
  rfl

/-- Whether one of some types is of the class. -/
def someOfClass (ids : List TypeId) (owner : ClassName) : ExpandM CodeBase Bool :=
  ids.anyM fun i => do
    match (← query fun t => t.fetch i).className? with
    | some name => return name.sameClass owner
    | none => return false

theorem hasAncestor_eq (u : UnionType) (owner : ClassName) :
    (u.hasAncestor owner : ExpandM CodeBase Bool) =
      u.expand >>= fun expanded => someOfClass expanded.members owner := rfl

/-- Work of this kind stays of this kind when it is put together. -/
structure Composes (P : (α : Type) → ExpandM CodeBase α → Prop) : Prop where
  pure : ∀ {α : Type} (a : α), P α (pure a)
  throw : ∀ {α : Type} (v : Violation), P α (throw v)
  types : ∀ {α : Type} (w : TypeM α), P α (types w)
  declaredType : ∀ name : ClassName, P (Option UnionType) (declaredType name)
  bind : ∀ {α β : Type} {p : ExpandM CodeBase α} {f : α → ExpandM CodeBase β}, P α p →
    (∀ a, P β (f a)) → P β (p >>= f)

namespace Composes

variable {P : (α : Type) → ExpandM CodeBase α → Prop} {α β : Type}

theorem foldlM (h : Composes P) {f : β → α → ExpandM CodeBase β} (hf : ∀ b a, P β (f b a))
    (as : List α) (init : β) : P β (as.foldlM f init) := by
  induction as generalizing init with
  | nil => exact h.pure init
  | cons a as ih =>
    rw [List.foldlM_cons]
    exact h.bind (hf init a) ih

theorem anyM (h : Composes P) {f : α → ExpandM CodeBase Bool} (hf : ∀ a, P Bool (f a))
    (as : List α) : P Bool (as.anyM f) := by
  induction as with
  | nil => exact h.pure false
  | cons a as ih =>
    refine h.bind (hf a) fun found => ?_
    cases found with
    | true => exact h.pure true
    | false => exact ih

theorem someOfClass (h : Composes P) (ids : List TypeId) (owner : ClassName) :
    P Bool (someOfClass ids owner) := by
  refine h.anyM (fun i => h.bind (h.types _) fun ty => ?_) ids
  split
  · exact h.pure _
  · exact h.pure _

theorem addAncestor (h : Composes P) {n : Nat} (ih : ∀ id, P UnionType (expandWithin n id))
    (id : TypeId) (name : ClassName) (result : UnionType) (member : TypeId) :
    P UnionType (addAncestor n id name result member) := by
  unfold ExpandM.addAncestor
  split
  · exact h.pure result
  · refine h.bind (h.types _) fun ty => ?_
    split
    · split
      · exact h.pure _
      · exact h.bind (ih member) fun _ => h.pure _
    · exact h.bind (ih member) fun _ => h.pure _

theorem addDeclared (h : Composes P) {n : Nat} (ih : ∀ id, P UnionType (expandWithin n id))
    (id : TypeId) (name : ClassName) (nullable : Bool) (result : UnionType) (member : TypeId) :
    P UnionType (addDeclared n id name nullable result member) := by
  have hnext := h.addAncestor ih id name result
  unfold ExpandM.addDeclared
  dsimp only
  split
  · exact h.bind (h.types _) hnext
  · exact h.bind (h.pure member) hnext

/-- Expansion is put together of questions for types and for what classes declare, with any number
of levels left. -/
theorem expandWithin (h : Composes P) (n : Nat) : ∀ id, P UnionType (expandWithin n id) := by
  induction n with
  | zero => exact fun id => h.bind (h.types _) fun _ => h.throw _
  | succ n ih =>
    intro id
    rw [UnionInference.expandWithin]
    refine h.bind (h.types _) fun ty => ?_
    split
    · next name _ _ =>
      -- a class: the types it declares, one after the other
      refine h.bind (h.declaredType name) fun declared => ?_
      split
      · exact h.pure _
      · exact h.foldlM (h.addDeclared ih id name ty.nullable) _ _
    · -- an array: the expansion of its element
      refine h.bind (h.types _) fun elementType => h.bind (h.types _) fun nested => ?_
      split
      · exact h.pure _
      · exact h.bind (ih _) fun expanded => h.types _
    · exact h.pure _

/-- The question for an ancestor is put together of expansions. -/
theorem hasAncestor (h : Composes P) (hexpand : ∀ id, P UnionType (expandType id)) (u : UnionType)
    (owner : ClassName) : P Bool (u.hasAncestor owner) := by
  rw [hasAncestor_eq]
  exact h.bind (h.foldlM (fun _ id => h.bind (hexpand id) fun _ => h.pure _) _ _) fun expanded =>
    h.someOfClass expanded.members owner

end Composes

theorem steady_addAncestor {n : Nat}
    (ih : ∀ id : TypeId, Steady (expandWithin n id : ExpandM CodeBase UnionType)) (id : TypeId)
    (name : ClassName) (result : UnionType) (member : TypeId) :
    Steady (addAncestor n id name result member) := by
  unfold addAncestor
  split
  · exact steady_pure result
  · refine (steady_fetch member).bind fun ty _ => ?_
    split
    · split
      · exact steady_pure _
      · exact (ih member).bind fun _ _ => steady_pure _
    · exact (ih member).bind fun _ _ => steady_pure _

theorem steady_addDeclared {n : Nat}
    (ih : ∀ id : TypeId, Steady (expandWithin n id : ExpandM CodeBase UnionType)) (id : TypeId)
    (name : ClassName) (nullable : Bool) (result : UnionType) (member : TypeId) :
    Steady (addDeclared n id name nullable result member) := by
  have hnext := steady_addAncestor ih id name result
  unfold addDeclared
  dsimp only
  split
  · exact (steady_withNull member true).bind fun member' _ => hnext member'
  · exact (steady_pure member).bind fun member' _ => hnext member'

/-- Expansion is steady, with any number of levels left. -/
theorem steady_expandWithin (n : Nat) :
    ∀ id : TypeId, Steady (expandWithin n id : ExpandM CodeBase UnionType) := by
  induction n with
  | zero => exact fun id => (steady_typeKey id).bind fun _ _ => steady_throw _
  | succ n ih =>
    intro id
    rw [expandWithin]
    refine (steady_fetch id).bind fun ty _ => ?_
    split
    · next name _ _ =>
      -- a class: the types it declares, one after the other
      refine (steady_declaredType name).bind fun declared _ => ?_
      split
      · exact steady_pure _
      · exact Steady.foldlM (steady_addDeclared ih id name ty.nullable) _ _
    · next key element _ =>
      -- an array: the expansion of its element
      refine (steady_fetch element).bind fun elementType _ => ?_
      refine (steady_isArrayOfClass element).bind fun nested _ => ?_
      split
      · exact steady_pure _
      · refine (ih element).bind fun expanded _ => steady_mapMembers (fun e => ?_) expanded
        have hk : (TypeKind.array key e).WellNamed := trivial
        exact steady_intern hk ty.nullable
    · exact steady_pure _

end ExpandM

end UnionInference
