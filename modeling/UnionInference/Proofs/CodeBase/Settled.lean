import UnionInference.Proofs.CodeBase.Session
import UnionInference.Proofs.Types.Replacing

/-!
Expansion on settled tables. Once a table holds all types that an expansion asks for, the expansion
adds none, and what it gives is told by the type alone: a class gives itself and what its declared
types add one after the other, an array the arrays of what its element gives. More levels than are
needed make no difference.
-/

namespace UnionInference

/-- Adding one type is inserting it. -/
theorem UnionType.union_of (u : UnionType) (i : TypeId) : u.union (.of i) = u.insert i := by
  rw [union, members_of]
  rfl

variable {t t' : TypeTable} {b b' : CodeBase}

/-- Wherever classes declare the same, the work gives the result and adds no types to the table. -/
def Settles {α : Type} (t : TypeTable) (b : CodeBase) (p : ExpandM CodeBase α) (a : α) : Prop :=
  ∀ b₁ : CodeBase, b₁.Loadable → b₁.declared? = b.declared? → ∃ b₂, p (t, b₁) = .ok (a, t, b₂)

namespace ExpandM

variable {α β : Type} {p : ExpandM CodeBase α} {f : α → ExpandM CodeBase β} {a a' : α} {c : β}

theorem Settles.unique (hb : b.Loadable) (h : Settles t b p a) (h' : Settles t b p a') : a = a' := by
  obtain ⟨b₁, hrun⟩ := h b hb rfl
  obtain ⟨b₂, hrun'⟩ := h' b hb rfl
  rw [hrun] at hrun'
  cases hrun'
  rfl

/-- Steady work settles where it was done. -/
theorem Steady.settles (hp : Steady p) (ht : t.Canonical) (hb : b.Loadable)
    (h : p (t, b) = .ok (a, t', b')) : Settles t' b' p a := by
  obtain ⟨hgrows, hloads⟩ := hp.grows ht hb h
  exact fun b₁ hb₁ hd => hp.repeats ht hb h hgrows.canonical (TypeTable.Extends.refl t') hb₁
    (hd.trans hloads.declared)

/-- Settled work stays settled when the table grows. -/
theorem Settles.mono (hp : Steady p) (ht : t.Canonical) (hb : b.Loadable) (h : Settles t b p a)
    (ht' : t'.Canonical) (hext : t.Extends t') (hd : b'.declared? = b.declared?) :
    Settles t' b' p a := by
  obtain ⟨b₁, hrun⟩ := h b hb rfl
  exact fun b₂ hb₂ hd₂ => hp.repeats ht hb hrun ht' hext hb₂ (hd₂.trans hd)

/-- Work that does the same on the table settles alike. -/
theorem settles_congr {q : ExpandM CodeBase α} (h : ∀ b₁ : CodeBase, p (t, b₁) = q (t, b₁)) :
    Settles t b p a ↔ Settles t b q a :=
  forall_congr' fun b₁ => by rw [h b₁]

/-! ### Steps -/

theorem settles_pure_iff (hb : b.Loadable) : Settles t b (pure a) a' ↔ a' = a := by
  constructor
  · intro h
    obtain ⟨b₁, hrun⟩ := h b hb rfl
    cases hrun
    rfl
  · rintro rfl b₁ - -
    exact ⟨b₁, rfl⟩

theorem settles_types_iff (hb : b.Loadable) {w : TypeM α} :
    Settles t b (types w) a ↔ w t = .ok (a, t) := by
  constructor
  · intro h
    obtain ⟨b₁, hrun⟩ := h b hb rfl
    exact (types_eq_ok.1 hrun).1
  · exact fun h b₁ _ _ => ⟨b₁, types_eq_ok.2 ⟨h, rfl⟩⟩

theorem settles_query_iff (hb : b.Loadable) {f : TypeTable → Checked α} :
    Settles t b (query f) a ↔ f t = .ok a := by
  rw [query, settles_types_iff hb, TypeM.query]
  cases f t <;> simp [Except.map]

theorem settles_fetch_iff (hb : b.Loadable) {i : TypeId} {ty : Ty} :
    Settles t b (query fun t => t.fetch i) ty ↔ t.get? i = some ty := by
  rw [settles_query_iff hb]
  constructor
  · intro h
    have hrun : TypeM.fetch i t = .ok (ty, t) := by rw [TypeM.fetch, TypeM.query, h]; rfl
    obtain ⟨-, e, he, rfl⟩ := TypeM.fetch_eq_ok.1 hrun
    exact TypeTable.get?_eq he
  · intro h
    obtain ⟨e, he, rfl⟩ := Option.map_eq_some_iff.1 h
    exact TypeTable.fetch_eq he

theorem settles_declaredType_iff (hb : b.Loadable) {name : ClassName} {declared : Option UnionType} :
    Settles t b (declaredType name) declared ↔ declared = b.declared? name := by
  have happly : ∀ b₁ : CodeBase, (declaredType name : ExpandM CodeBase (Option UnionType)) (t, b₁) =
      .ok ((CodeBase.declaredType name b₁).1, t, (CodeBase.declaredType name b₁).2) := fun _ => rfl
  constructor
  · intro h
    obtain ⟨b₁, hrun⟩ := h b hb rfl
    rw [happly, (hb.declaredType name).1] at hrun
    cases hrun
    rfl
  · rintro rfl b₁ hb₁ hd
    refine ⟨(CodeBase.declaredType name b₁).2, ?_⟩
    rw [happly, (hb₁.declaredType name).1, hd]

/-- One thing after the other settles when both do. -/
theorem settles_bind_iff (ht : t.Canonical) (hb : b.Loadable) (hp : Steady p)
    (hf : ∀ a, Gives p a → Steady (f a)) :
    Settles t b (p >>= f) c ↔ ∃ a, Settles t b p a ∧ Settles t b (f a) c := by
  constructor
  · intro h
    obtain ⟨b₁, hrun⟩ := h b hb rfl
    obtain ⟨a, ⟨t', b'⟩, hfirst, hnext⟩ := bind_eq_ok.1 hrun
    obtain ⟨hgrows, hloads⟩ := hp.grows ht hb hfirst
    have hs := hf a ⟨_, _, _, ht, hfirst⟩
    have hback := (hs.grows hgrows.canonical hloads.loadable hnext).1.keeps
    exact ⟨a, fun b₂ hb₂ hd => hp.repeats ht hb hfirst ht hback hb₂ hd, fun b₂ hb₂ hd =>
      hs.repeats hgrows.canonical hloads.loadable hnext ht (TypeTable.Extends.refl t) hb₂
        (hd.trans hloads.declared.symm)⟩
  · rintro ⟨a, hfirst, hnext⟩ b₁ hb₁ hd
    obtain ⟨b₂, hrun⟩ := hfirst b₁ hb₁ hd
    obtain ⟨-, hloads⟩ := hp.grows ht hb₁ hrun
    obtain ⟨b₃, hrun'⟩ := hnext b₂ hloads.loadable (hloads.declared.trans hd)
    exact ⟨b₃, bind_eq_ok.2 ⟨a, (t, b₂), hrun, hrun'⟩⟩

/-- Unions are collected one after the other. -/
theorem settles_foldlM_iff (ht : t.Canonical) (hb : b.Loadable)
    {g : UnionType → α → ExpandM CodeBase UnionType}
    (hg : ∀ u a, Steady (g u a)) {R : α → UnionType → Prop}
    (hR : ∀ u a w, Settles t b (g u a) w ↔ ∃ v, R a v ∧ w = u.union v) (as : List α)
    (u w : UnionType) :
    Settles t b (as.foldlM g u) w ↔
      ∃ vs, List.Forall₂ R as vs ∧ w = vs.foldl UnionType.union u := by
  induction as generalizing u with
  | nil =>
    rw [List.foldlM_nil, settles_pure_iff hb]
    simp
  | cons a as ih =>
    rw [List.foldlM_cons, settles_bind_iff ht hb (hg u a) fun v _ => Steady.foldlM hg as v]
    constructor
    · rintro ⟨v, hfirst, hrest⟩
      obtain ⟨v', hv', rfl⟩ := (hR u a v).1 hfirst
      obtain ⟨vs, hvs, rfl⟩ := (ih _).1 hrest
      exact ⟨v' :: vs, .cons hv' hvs, rfl⟩
    · rintro ⟨vs, hvs, rfl⟩
      obtain ⟨v, rest, hv, hrest, rfl⟩ := List.forall₂_cons_left_iff.1 hvs
      exact ⟨_, (hR u a _).2 ⟨v, hv, rfl⟩, (ih _).2 ⟨rest, hrest, rfl⟩⟩

end ExpandM

/-! ### What classes and arrays give -/

/-- Whether objects of the type are of the class. -/
def Ty.isOf (ty : Ty) (name : ClassName) : Bool := ty.className?.any fun other => other.sameClass name

namespace ExpandM

/-- The second type is the first one, with null if that is asked for. -/
def Marked (t : TypeTable) (nullable : Bool) (m m' : TypeId) : Prop :=
  if nullable then TypeM.withNull m true t = .ok (m', t) else m' = m

/-- What a declared type adds to what the type of a class gives: nothing if it is that type, itself
if it is of the class, and else all that it gives in turn. -/
inductive Adds (t : TypeTable) (b : CodeBase) (n : Nat) (id : TypeId) (name : ClassName)
    (nullable : Bool) (m : TypeId) : UnionType → Prop
  | start (h : Marked t nullable m id) : Adds t b n id name nullable m .empty
  | same {m' : TypeId} {ty : Ty} (h : Marked t nullable m m') (hne : m' ≠ id)
      (hty : t.get? m' = some ty) (hof : ty.isOf name = true) :
      Adds t b n id name nullable m (.of m')
  | other {m' : TypeId} {ty : Ty} {u : UnionType} (h : Marked t nullable m m') (hne : m' ≠ id)
      (hty : t.get? m' = some ty) (hof : ty.isOf name = false)
      (hu : Settles t b (expandWithin n m') u) : Adds t b n id name nullable m u

variable {n : Nat} {id m : TypeId} {name : ClassName} {u v w : UnionType} {nullable : Bool}

theorem addAncestor_eq (n : Nat) (id : TypeId) (name : ClassName) (u : UnionType) (m : TypeId) :
    addAncestor n id name u m =
      if m = id then pure u else do
        let ty ← query fun t => t.fetch m
        if ty.isOf name then return u.insert m else return u.union (← expandWithin n m) := by
  unfold addAncestor
  split
  · rfl
  · congr 1
    funext ty
    rw [Ty.isOf]
    cases ty.className? with
    | none => rfl
    | some other =>
      dsimp only [Option.any_some]

theorem settles_addAncestor_iff (ht : t.Canonical) (hb : b.Loadable) :
    Settles t b (addAncestor n id name u m) w ↔
      (m = id ∧ w = u) ∨ m ≠ id ∧ ∃ ty, t.get? m = some ty ∧
        (ty.isOf name = true ∧ w = u.union (.of m) ∨
          ty.isOf name = false ∧ ∃ v, Settles t b (expandWithin n m) v ∧ w = u.union v) := by
  rw [addAncestor_eq]
  by_cases hm : m = id
  · rw [if_pos hm, settles_pure_iff hb]
    simp [hm]
  rw [if_neg hm, settles_bind_iff ht hb (steady_fetch m) fun ty _ => ?_]
  · simp only [hm, false_and, false_or, ne_eq, not_false_eq_true, true_and, settles_fetch_iff hb]
    refine exists_congr fun ty => and_congr_right fun _ => ?_
    cases ty.isOf name with
    | true =>
      rw [if_pos rfl, settles_pure_iff hb, UnionType.union_of]
      simp
    | false =>
      rw [if_neg Bool.false_ne_true,
        settles_bind_iff ht hb (steady_expandWithin n m) fun v _ => steady_pure _]
      simp [settles_pure_iff hb]
  · split
    · exact steady_pure _
    · exact (steady_expandWithin n m).bind fun _ _ => steady_pure _

theorem steady_addStep (n : Nat) (id : TypeId) (name : ClassName) (nullable : Bool) (u : UnionType)
    (m : TypeId) : Steady (addDeclared n id name nullable u m) :=
  steady_addDeclared (steady_expandWithin n) id name nullable u m

theorem settles_addDeclared_iff (ht : t.Canonical) (hb : b.Loadable) :
    Settles t b (addDeclared n id name nullable u m) w ↔
      ∃ v, Adds t b n id name nullable m v ∧ w = u.union v := by
  have hnext : Settles t b (addDeclared n id name nullable u m) w ↔
      ∃ m', Marked t nullable m m' ∧ Settles t b (addAncestor n id name u m') w := by
    unfold addDeclared Marked
    cases nullable with
    | true =>
      rw [if_pos rfl, settles_bind_iff ht hb (steady_withNull m true) fun m' _ =>
        steady_addAncestor (steady_expandWithin n) id name u m']
      simp only [settles_types_iff hb, if_true]
    | false =>
      rw [if_neg Bool.false_ne_true, settles_bind_iff ht hb (steady_pure m) fun m' _ =>
        steady_addAncestor (steady_expandWithin n) id name u m']
      simp [settles_pure_iff hb]
  rw [hnext]
  simp only [settles_addAncestor_iff ht hb]
  constructor
  · rintro ⟨m', hm, ⟨rfl, rfl⟩ | ⟨hne, ty, hty, ⟨hof, rfl⟩ | ⟨hof, v, hv, rfl⟩⟩⟩
    · exact ⟨.empty, .start hm, rfl⟩
    · exact ⟨.of m', .same hm hne hty hof, rfl⟩
    · exact ⟨v, .other hm hne hty hof hv, rfl⟩
  · rintro ⟨v, hadds, rfl⟩
    cases hadds with
    | start hm => exact ⟨id, hm, .inl ⟨rfl, rfl⟩⟩
    | same hm hne hty hof => exact ⟨_, hm, .inr ⟨hne, _, hty, .inl ⟨hof, rfl⟩⟩⟩
    | other hm hne hty hof hv => exact ⟨_, hm, .inr ⟨hne, _, hty, .inr ⟨hof, _, hv, rfl⟩⟩⟩

/-- What a class that declares the types expands to. -/
def expandDeclared (n : Nat) (id : TypeId) (name : ClassName) (nullable : Bool) :
    Option UnionType → ExpandM CodeBase UnionType
  | none => pure (.of id)
  | some declared => declared.members.foldlM (addDeclared n id name nullable) (.of id)

theorem settles_object_iff (ht : t.Canonical) (hb : b.Loadable) {args : List UnionType}
    (hty : t.get? id = some ⟨.object name args, nullable⟩) :
    Settles t b (expandWithin (n + 1) id) w ↔
      b.declared? name = none ∧ w = .of id ∨ ∃ declared vs, b.declared? name = some declared ∧
        List.Forall₂ (Adds t b n id name nullable) declared.members vs ∧
        w = vs.foldl UnionType.union (.of id) := by
  obtain ⟨e, he, hkind⟩ := Option.map_eq_some_iff.1 hty
  have hstep : ∀ b₁ : CodeBase, expandWithin (n + 1) id (t, b₁) =
      (declaredType name >>= expandDeclared n id name nullable) (t, b₁) := by
    intro b₁
    rw [expandWithin_object he (by rw [hkind])]
    rw [hkind]
    show _ = expandDeclared n id name nullable (CodeBase.declaredType name b₁).1
      (t, (CodeBase.declaredType name b₁).2)
    cases (CodeBase.declaredType name b₁).1 <;> rfl
  have hsteady : ∀ declared : UnionType, Steady (declared.members.foldlM
      (addDeclared n id name nullable) (.of id)) :=
    fun declared => Steady.foldlM (steady_addStep n id name nullable) _ _
  rw [settles_congr hstep, settles_bind_iff ht hb (steady_declaredType name) fun declared _ => ?_]
  · simp only [settles_declaredType_iff hb, exists_eq_left]
    cases b.declared? name with
    | none => simp [expandDeclared, settles_pure_iff hb]
    | some declared =>
      simp [expandDeclared, settles_foldlM_iff ht hb (steady_addStep n id name nullable) fun u m w =>
        settles_addDeclared_iff ht hb]
  · cases declared with
    | none => exact steady_pure _
    | some declared => exact hsteady declared

/-- Whether the elements are objects, or arrays that hold objects. -/
def HoldsObjects (t : TypeTable) (element : TypeId) (holds : Bool) : Prop :=
  ∃ ty nested, t.get? element = some ty ∧ t.isArrayOfClass element = .ok nested ∧
    (ty.className?.isSome || nested) = holds

theorem steady_array (key : KeyKind) (e : TypeId) (nullable : Bool) :
    Steady (types (TypeM.array key e nullable) : ExpandM CodeBase TypeId) :=
  steady_intern (show (TypeKind.array key e).WellNamed from trivial) nullable

theorem settles_mapM_iff (ht : t.Canonical) (hb : b.Loadable) {f : TypeId → TypeM TypeId}
    (hf : ∀ i, Steady (types (f i) : ExpandM CodeBase TypeId)) (is js : List TypeId) :
    Settles t b (types (is.mapM f) : ExpandM CodeBase (List TypeId)) js ↔
      List.Forall₂ (fun i j => f i t = .ok (j, t)) is js := by
  induction is generalizing js with
  | nil => exact (settles_pure_iff hb).trans List.forall₂_nil_left_iff.symm
  | cons i is ih =>
    have hrest : ∀ j : TypeId, (types (is.mapM f >>= fun js => pure (j :: js)) :
        ExpandM CodeBase (List TypeId)) = types (is.mapM f) >>= fun js => pure (j :: js) :=
      fun j => types_bind _ _
    rw [List.mapM_cons, types_bind, List.forall₂_cons_left_iff]
    simp only [hrest]
    have hafter : ∀ j : TypeId, Settles t b (types (is.mapM f) >>= fun js => pure (j :: js) :
        ExpandM CodeBase (List TypeId)) js ↔ ∃ js', Settles t b (types (is.mapM f)) js' ∧
          Settles t b (pure (j :: js') : ExpandM CodeBase (List TypeId)) js :=
      fun j => settles_bind_iff ht hb (steady_mapM hf is) fun _ _ => steady_pure _
    rw [settles_bind_iff ht hb (hf i) fun j _ => (steady_mapM hf is).bind fun _ _ => steady_pure _]
    constructor
    · rintro ⟨j, hj, hs⟩
      obtain ⟨js', hjs, heq⟩ := (hafter j).1 hs
      exact ⟨j, js', (settles_types_iff hb).1 hj, (ih js').1 hjs, (settles_pure_iff hb).1 heq⟩
    · rintro ⟨j, js', hj, hjs, rfl⟩
      exact ⟨j, (settles_types_iff hb).2 hj,
        (hafter j).2 ⟨js', (ih js').2 hjs, (settles_pure_iff hb).2 rfl⟩⟩

theorem settles_arrays_iff (ht : t.Canonical) (hb : b.Loadable) {key : KeyKind} :
    Settles t b (types (v.mapMembers fun e => TypeM.array key e nullable)) w ↔
      ∃ ids, List.Forall₂ (fun e j => TypeM.array key e nullable t = .ok (j, t)) v.members ids ∧
        w = .ofList ids := by
  have hone := fun e => steady_array key e nullable
  have hsplit : (types (v.mapMembers fun e => TypeM.array key e nullable) :
      ExpandM CodeBase UnionType) = types (v.members.mapM fun e => TypeM.array key e nullable) >>=
        fun ids => pure (.ofList ids) := types_bind _ _
  rw [hsplit, settles_bind_iff ht hb (steady_mapM hone v.members) fun ids _ => steady_pure _]
  exact exists_congr fun ids => and_congr (settles_mapM_iff ht hb hone _ _) (settles_pure_iff hb)

/-- What an array gives once it is known whether it holds objects: itself, or the arrays of what its
element gives. -/
def expandArray (n : Nat) (id : TypeId) (key : KeyKind) (element : TypeId) (nullable holds : Bool) :
    ExpandM CodeBase UnionType :=
  if holds then do
    let expanded ← expandWithin n element
    types (expanded.mapMembers fun e => TypeM.array key e nullable)
  else pure (.of id)

theorem steady_expandArray (n : Nat) (id : TypeId) (key : KeyKind) (element : TypeId)
    (nullable holds : Bool) : Steady (expandArray n id key element nullable holds) := by
  unfold expandArray
  split
  · exact (steady_expandWithin n element).bind fun v _ =>
      steady_mapMembers (fun e => steady_array key e nullable) v
  · exact steady_pure _

theorem settles_expandArray_iff (ht : t.Canonical) (hb : b.Loadable) {key : KeyKind}
    {element : TypeId} {holds : Bool} :
    Settles t b (expandArray n id key element nullable holds) w ↔
      holds = false ∧ w = .of id ∨ holds = true ∧ ∃ v ids, Settles t b (expandWithin n element) v ∧
        List.Forall₂ (fun e j => TypeM.array key e nullable t = .ok (j, t)) v.members ids ∧
        w = .ofList ids := by
  unfold expandArray
  cases holds with
  | false =>
    rw [if_neg Bool.false_ne_true, settles_pure_iff hb]
    simp
  | true =>
    rw [if_pos rfl, settles_bind_iff ht hb (steady_expandWithin n element) fun v _ =>
      steady_mapMembers (fun e => steady_array key e nullable) v]
    simp [settles_arrays_iff ht hb]

theorem settles_array_iff (ht : t.Canonical) (hb : b.Loadable) {key : KeyKind} {element : TypeId}
    (hty : t.get? id = some ⟨.array key element, nullable⟩) :
    Settles t b (expandWithin (n + 1) id) w ↔ ∃ holds, HoldsObjects t element holds ∧
      (holds = false ∧ w = .of id ∨ holds = true ∧ ∃ v ids, Settles t b (expandWithin n element) v ∧
        List.Forall₂ (fun e j => TypeM.array key e nullable t = .ok (j, t)) v.members ids ∧
        w = .ofList ids) := by
  obtain ⟨e, he, hkind⟩ := Option.map_eq_some_iff.1 hty
  have hstep : ∀ b₁ : CodeBase, expandWithin (n + 1) id (t, b₁) = (do
      let ty ← query fun t => t.fetch element
      let nested ← query fun t => t.isArrayOfClass element
      expandArray n id key element nullable (ty.className?.isSome || nested) :
        ExpandM CodeBase UnionType) (t, b₁) := by
    intro b₁
    rw [expandWithin, bind_apply, fetch_apply he]
    dsimp only [bind, Except.bind]
    rw [hkind]
    dsimp only [expandArray]
    congr 1
    funext ty
    congr 1
    funext nested
    cases ty.className? <;> cases nested <;> rfl
  have hsteady : ∀ ty : Ty, Steady (do
      let nested ← query fun t => t.isArrayOfClass element
      expandArray n id key element nullable (ty.className?.isSome || nested) :
        ExpandM CodeBase UnionType) :=
    fun ty => (steady_isArrayOfClass element).bind fun nested _ => steady_expandArray ..
  simp only [settles_congr hstep, settles_bind_iff ht hb (steady_fetch element) fun ty _ => hsteady ty,
    settles_bind_iff ht hb (steady_isArrayOfClass element) fun nested _ => steady_expandArray ..,
    settles_fetch_iff hb, settles_query_iff hb, settles_expandArray_iff ht hb]
  constructor
  · rintro ⟨ty, hty, nested, hnested, hs⟩
    exact ⟨_, ⟨ty, nested, hty, hnested, rfl⟩, hs⟩
  · rintro ⟨_, ⟨ty, nested, hty, hnested, rfl⟩, hs⟩
    exact ⟨ty, hty, nested, hnested, hs⟩

theorem settles_other_iff (hb : b.Loadable) {ty : Ty} (hty : t.get? id = some ty)
    (hobject : ∀ name args, ty.kind ≠ .object name args) (harray : ∀ key e, ty.kind ≠ .array key e) :
    Settles t b (expandWithin (n + 1) id) w ↔ w = .of id := by
  obtain ⟨e, he, rfl⟩ := Option.map_eq_some_iff.1 hty
  have hstep : ∀ b₁ : CodeBase, expandWithin (n + 1) id (t, b₁) =
      (pure (.of id) : ExpandM CodeBase UnionType) (t, b₁) := by
    intro b₁
    rw [expandWithin, bind_apply, fetch_apply he]
    dsimp only [bind, Except.bind]
    cases hk : e.type.kind with
    | object name args => exact absurd hk (hobject _ _)
    | array key element => exact absurd hk (harray _ _)
    | _ => rfl
  rw [settles_congr hstep, settles_pure_iff hb]

theorem not_settles_zero (hb : b.Loadable) : ¬ Settles t b (expandWithin 0 id) w := by
  intro h
  obtain ⟨b₁, hrun⟩ := h b hb rfl
  obtain ⟨k, s, -, hthrow⟩ := bind_eq_ok.1 hrun
  cases hthrow

end ExpandM

end UnionInference
