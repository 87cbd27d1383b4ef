import UnionInference.Proofs.CodeBase.Settled
import UnionInference.Proofs.CodeBase.Inheritance

/-!
Expanding unions is a closure operator: a union is part of its expansion, a part of a union expands
to a part of what the union expands to, and expanding once more adds nothing. For the last part each
type in an expansion is shown to expand to a part of it. A class that declares its own type with null
is excepted: without null it expands to that type, but not to what that type expands to.
-/

namespace UnionInference

open ExpandM

variable {t t' : TypeTable} {b b' : CodeBase} {n : Nat} {id i x : TypeId} {u v w : UnionType}

/-- Classes declare types of the table, and none that are the own type with null. -/
def DeclaresPlainSelf (t : TypeTable) (b : CodeBase) : Prop :=
  ∀ (c : ClassName) (declared : UnionType), b.declared? c = some declared → ∀ m ∈ declared.members,
    m < t.size ∧ ∀ (name : ClassName) (args : List UnionType) (nullable : Bool),
      t.get? m = some ⟨.object name args, nullable⟩ → name.fold = c.fold → nullable = false

theorem CodeBase.declared?_congr (b : CodeBase) {c d : ClassName} (h : c.fold = d.fold) :
    b.declared? c = b.declared? d := by
  rw [declared?, declared?, b.class?_congr h, h]

theorem get?_of_settles (hb : b.Loadable) (h : Settles t b (expandWithin n id) u) :
    ∃ ty, t.get? id = some ty := by
  cases n with
  | zero => exact absurd h (not_settles_zero hb)
  | succ n =>
    obtain ⟨b₁, hrun⟩ := h b hb rfl
    obtain ⟨ty, s, hfetch, -⟩ := bind_eq_ok.1 hrun
    obtain ⟨-, e, he, rfl⟩ := TypeM.fetch_eq_ok.1 (types_eq_ok.1 hfetch).1
    exact ⟨e.type, TypeTable.get?_eq he⟩

/-- More levels make no difference. -/
theorem settles_succ (ht : t.Canonical) (hb : b.Loadable) (h : Settles t b (expandWithin n id) u) :
    Settles t b (expandWithin (n + 1) id) u := by
  induction n generalizing id u with
  | zero => exact absurd h (not_settles_zero hb)
  | succ n ih =>
    obtain ⟨⟨kind, nullable⟩, hty⟩ := get?_of_settles hb h
    cases kind with
    | object name args =>
      rw [settles_object_iff ht hb hty] at h ⊢
      refine h.imp_right ?_
      rintro ⟨declared, vs, hdeclared, hvs, hu⟩
      refine ⟨declared, vs, hdeclared, hvs.imp fun m v hadds => ?_, hu⟩
      cases hadds with
      | start hm => exact .start hm
      | same hm hne hm' hof => exact .same hm hne hm' hof
      | other hm hne hm' hof hv => exact .other hm hne hm' hof (ih hv)
    | array key element =>
      rw [settles_array_iff ht hb hty] at h ⊢
      obtain ⟨holds, hholds, h⟩ := h
      refine ⟨holds, hholds, h.imp_right (And.imp_right ?_)⟩
      rintro ⟨v, ids, hv, hids, hu⟩
      exact ⟨v, ids, ih hv, hids, hu⟩
    | _ =>
      rw [settles_other_iff hb hty nofun nofun] at h ⊢
      exact h

/-- Asking for an array of the table finds it. -/
theorem array_of_get? (ht : t.Canonical) {key : KeyKind} {element : TypeId} {nullable : Bool}
    (hty : t.get? id = some ⟨.array key element, nullable⟩) :
    TypeM.array key element nullable t = .ok (id, t) := by
  have hin := (ht.writable_get? hty).inside
  refine TypeM.intern_of_finds hin ?_
  rw [TypeTable.normalize_of_acceptsNull rfl]
  exact ht.finds_get? hty

/-- What an array request finds is the array. -/
theorem get?_of_array (ht : t.Canonical) {key : KeyKind} {element : TypeId} {nullable : Bool}
    (h : TypeM.array key element nullable t = .ok (id, t)) :
    t.get? id = some ⟨.array key element, nullable⟩ := by
  have hin := TypeM.inside_of_intern h
  have hnamed : (TypeKind.array key element).WellNamed := trivial
  obtain ⟨j, t', hrun, -, hfinds⟩ := TypeM.intern_spec ht nullable hnamed hnamed hin
  rw [TypeM.array, hrun] at h
  cases h
  rw [TypeTable.normalize_of_acceptsNull rfl] at hfinds
  exact ht.get?_of_finds_array (hin element (List.mem_singleton_self _)) hfinds

/-- A type is among those that it expands to. -/
theorem mem_of_settles (ht : t.Canonical) (hb : b.Loadable)
    (h : Settles t b (expandWithin n id) u) : id ∈ u.members := by
  induction n generalizing id u with
  | zero => exact absurd h (not_settles_zero hb)
  | succ n ih =>
    obtain ⟨⟨kind, nullable⟩, hty⟩ := get?_of_settles hb h
    cases kind with
    | object name args =>
      rcases (settles_object_iff ht hb hty).1 h with ⟨-, rfl⟩ | ⟨declared, vs, -, -, rfl⟩
      · exact UnionType.mem_of.2 rfl
      · exact (UnionType.mem_foldl_union vs _).2 (.inl (UnionType.mem_of.2 rfl))
    | array key element =>
      obtain ⟨holds, -, ⟨-, rfl⟩ | ⟨-, v, ids, hv, hids, rfl⟩⟩ := (settles_array_iff ht hb hty).1 h
      · exact UnionType.mem_of.2 rfl
      · obtain ⟨j, hj, hrun⟩ := exists_of_forall₂ hids (ih hv)
        rw [array_of_get? ht hty] at hrun
        cases hrun
        exact UnionType.mem_ofList.2 hj
    | _ =>
      rw [(settles_other_iff hb hty nofun nofun).1 h]
      exact UnionType.mem_of.2 rfl

theorem exists_forall₂ {α β : Type} {R : α → β → Prop} {P : β → Prop} {as : List α}
    (h : ∀ a ∈ as, ∃ b, R a b ∧ P b) : ∃ bs, List.Forall₂ R as bs ∧ ∀ b ∈ bs, P b := by
  induction as with
  | nil => exact ⟨[], .nil, nofun⟩
  | cons a as ih =>
    obtain ⟨⟨b, hab, hb⟩, hrest⟩ := List.forall_mem_cons.1 h
    obtain ⟨bs, hbs, hall⟩ := ih hrest
    exact ⟨b :: bs, .cons hab hbs, List.forall_mem_cons.2 ⟨hb, hall⟩⟩

theorem exists_holdsObjects {key : KeyKind} {element : TypeId} {nullable : Bool}
    (hid : t.get? id = some ⟨.array key element, nullable⟩) :
    ∃ holds, HoldsObjects t element holds := by
  have hlt := (TypeTable.embedded_lt_of_get? hid (List.mem_singleton_self element)).trans
    (TypeTable.lt_size_of_get? hid)
  obtain ⟨ty, hty⟩ := TypeTable.exists_get? hlt
  obtain ⟨nested, hnested⟩ := TypeTable.exists_isArrayOfClass hlt
  exact ⟨_, ty, nested, hty, hnested, rfl⟩

/-- A declared type that is an object of the class admits null if the type of the class does. -/
theorem DeclaresPlainSelf.nullable_eq (h : DeclaresPlainSelf t b) (ht : t.Canonical)
    {name other : ClassName} {args : List UnionType} {nullable nullable' : Bool} {m m' : TypeId}
    {declared : UnionType} (hdeclared : b.declared? name = some declared) (hm : m ∈ declared.members)
    (hmark : Marked t nullable m m') (hm' : t.get? m' = some ⟨.object other args, nullable'⟩)
    (hsame : other.fold = name.fold) : nullable' = nullable := by
  cases nullable with
  | false =>
    obtain rfl : m' = m := hmark
    exact (h name declared hdeclared m' hm).2 other args nullable' hm' hsame
  | true =>
    obtain ⟨ty, t₁, hfetch, hrun⟩ := TypeM.bind_eq_ok.1 hmark
    obtain ⟨rfl, ⟨⟨kind, n⟩, key⟩, he, rfl⟩ := TypeM.fetch_eq_ok.1 hfetch
    have hget := TypeTable.get?_eq he
    split at hrun
    · next hcond =>
      cases hrun
      cases hget.symm.trans hm'
      simpa [TypeKind.acceptsNull] using hcond
    · have hw := ht.writable_get? hget
      obtain ⟨j, t', hrun', -, hfinds⟩ := TypeM.intern_spec ht true hw.named hw.named hw.inside
      rw [hrun'] at hrun
      cases hrun
      obtain ⟨found, hfound, ⟨hnull, hkind⟩, -⟩ := ht.alike_of_finds
        (TypeTable.writable_normalize true hw.inside hw.named) hfinds
      cases hm'.symm.trans hfound
      exact hnull.trans hkind.acceptsNull.symm

/-- What a class gives holds all that its other types in it give. -/
theorem settles_same (ht : t.Canonical) (hb : b.Loadable) {name other : ClassName}
    {args args' : List UnionType} {nullable : Bool} {m' : TypeId} {declared : UnionType}
    {vs : List UnionType} (hid : t.get? id = some ⟨.object name args, nullable⟩)
    (hm' : t.get? m' = some ⟨.object other args', nullable⟩) (hsame : other.fold = name.fold)
    (hne : m' ≠ id) (hdeclared : b.declared? name = some declared)
    (hvs : List.Forall₂ (Adds t b n id name nullable) declared.members vs)
    (hmem : m' ∈ (vs.foldl UnionType.union (.of id)).members) :
    ∃ w, Settles t b (expandWithin (n + 1) m') w ∧
      w.members ⊆ (vs.foldl UnionType.union (.of id)).members := by
  have hof : ∀ ty : Ty, ty.isOf other = ty.isOf name := by
    intro ty
    rw [Ty.isOf, Ty.isOf]
    simp only [QualifiedName.sameClass, hsame]
  have hstep : ∀ m v, Adds t b n id name nullable m v →
      v.members ⊆ (vs.foldl UnionType.union (.of id)).members →
      ∃ v', Adds t b n m' other nullable m v' ∧
        v'.members ⊆ (vs.foldl UnionType.union (.of id)).members := by
    intro m v hadds hv
    cases hadds with
    | start hm =>
      refine ⟨.of id, .same hm (Ne.symm hne) hid ?_, fun x hx => ?_⟩
      · simp [Ty.isOf, Ty.className?, QualifiedName.sameClass, hsame]
      · exact (UnionType.mem_foldl_union vs _).2 (.inl hx)
    | @same k ty hm hk hty hk' =>
      by_cases hkm : k = m'
      · exact ⟨.empty, .start (hkm ▸ hm), by simp⟩
      · exact ⟨.of k, .same hm hkm hty ((hof ty).trans hk'), hv⟩
    | @other k ty v hm hk hty hk' hsettles =>
      refine ⟨v, .other hm ?_ hty ((hof ty).trans hk') hsettles, hv⟩
      rintro rfl
      cases hty.symm.trans hm'
      simp [Ty.isOf, Ty.className?, QualifiedName.sameClass, hsame] at hk'
  obtain ⟨vs', hvs', hsub⟩ := exists_forall₂ fun m hm => by
    obtain ⟨v, hv, hadds⟩ := exists_of_forall₂ hvs hm
    exact hstep m v hadds fun x hx => (UnionType.mem_foldl_union vs _).2 (.inr ⟨v, hv, hx⟩)
  refine ⟨vs'.foldl UnionType.union (.of m'), (settles_object_iff ht hb hm').2 (.inr ⟨declared, vs',
    (b.declared?_congr hsame).trans hdeclared, hvs', rfl⟩), fun x hx => ?_⟩
  rcases (UnionType.mem_foldl_union vs' _).1 hx with hx | ⟨v, hv, hx⟩
  · exact UnionType.mem_of.1 hx ▸ hmem
  · exact hsub v hv hx

/-- What holds of the expansion of an element holds of the arrays over it. -/
theorem settles_of_mem_array (ht : t.Canonical) (hb : b.Loadable) {key : KeyKind} {nullable : Bool}
    {v : UnionType} {ids : List TypeId}
    (hids : List.Forall₂ (fun e j => TypeM.array key e nullable t = .ok (j, t)) v.members ids)
    (hparts : ∀ e ∈ v.members, ∃ w, Settles t b (expandWithin n e) w ∧ w.members ⊆ v.members)
    (hx : x ∈ (UnionType.ofList ids).members) :
    ∃ w, Settles t b (expandWithin (n + 1) x) w ∧ w.members ⊆ (UnionType.ofList ids).members := by
  obtain ⟨e, he, hrun⟩ := exists_of_forall₂ hids.flip (UnionType.mem_ofList.1 hx)
  have hx' := get?_of_array ht hrun
  obtain ⟨w, hw, hwv⟩ := hparts e he
  obtain ⟨holds, hholds⟩ := exists_holdsObjects hx'
  cases holds with
  | false =>
    refine ⟨.of x, (settles_array_iff ht hb hx').2 ⟨false, hholds, .inl ⟨rfl, rfl⟩⟩, fun y hy => ?_⟩
    exact UnionType.mem_of.1 hy ▸ hx
  | true =>
    obtain ⟨js, hjs, hsub⟩ := exists_forall₂ fun y hy => by
      obtain ⟨j, hj, hrun⟩ := exists_of_forall₂ hids (hwv hy)
      exact ⟨j, hrun, hj⟩
    refine ⟨.ofList js, (settles_array_iff ht hb hx').2 ⟨true, hholds,
      .inr ⟨rfl, w, js, hw, hjs, rfl⟩⟩, fun y hy => ?_⟩
    exact UnionType.mem_ofList.2 (hsub y (UnionType.mem_ofList.1 hy))

/-- Each type in an expansion expands to a part of it. -/
theorem settles_of_mem (ht : t.Canonical) (hb : b.Loadable) (hself : DeclaresPlainSelf t b)
    (h : Settles t b (expandWithin n id) u) (hx : x ∈ u.members) :
    ∃ w, Settles t b (expandWithin n x) w ∧ w.members ⊆ u.members := by
  induction n generalizing id x u with
  | zero => exact absurd h (not_settles_zero hb)
  | succ n ih =>
    obtain ⟨⟨kind, nullable⟩, hty⟩ := get?_of_settles hb h
    have hstart : x = id → ∃ w, Settles t b (expandWithin (n + 1) x) w ∧ w.members ⊆ u.members := by
      rintro rfl
      exact ⟨u, h, List.Subset.refl _⟩
    cases kind with
    | object name args =>
      rcases (settles_object_iff ht hb hty).1 h with ⟨-, rfl⟩ | ⟨declared, vs, hdeclared, hvs, rfl⟩
      · exact hstart (UnionType.mem_of.1 hx)
      rcases (UnionType.mem_foldl_union vs _).1 hx with hx' | ⟨v, hv, hx'⟩
      · exact hstart (UnionType.mem_of.1 hx')
      obtain ⟨m, hm, hadds⟩ := exists_of_forall₂ hvs.flip hv
      have hsub : v.members ⊆ (vs.foldl UnionType.union (.of id)).members :=
        fun y hy => (UnionType.mem_foldl_union vs _).2 (.inr ⟨v, hv, hy⟩)
      cases hadds with
      | start => cases hx'
      | @same m' ty hmark hne hm' hof =>
        obtain rfl := UnionType.mem_of.1 hx'
        obtain ⟨kind, nullable'⟩ := ty
        cases kind with
        | object other args' =>
          have hsame : other.fold = name.fold := by
            simpa [Ty.isOf, Ty.className?, QualifiedName.sameClass] using hof
          obtain rfl := hself.nullable_eq ht hdeclared hm hmark hm' hsame
          exact settles_same ht hb hty hm' hsame hne hdeclared hvs hx
        | callable sig =>
          refine ⟨.of x, (settles_other_iff hb hm' (by rintro _ _ ⟨⟩) (by rintro _ _ ⟨⟩)).2 rfl,
            fun y hy => ?_⟩
          exact UnionType.mem_of.1 hy ▸ hx
        | _ => simp [Ty.isOf, Ty.className?] at hof
      | other hmark hne hm' hof hsettles =>
        obtain ⟨w, hw, hwv⟩ := ih hsettles hx'
        exact ⟨w, settles_succ ht hb hw, List.Subset.trans hwv hsub⟩
    | array key element =>
      obtain ⟨holds, -, ⟨-, rfl⟩ | ⟨-, v, ids, hv, hids, rfl⟩⟩ := (settles_array_iff ht hb hty).1 h
      · exact hstart (UnionType.mem_of.1 hx)
      exact settles_of_mem_array ht hb hids (fun e he => ih hv he) hx
    | _ =>
      rw [(settles_other_iff hb hty (by rintro _ _ ⟨⟩) (by rintro _ _ ⟨⟩)).1 h] at hx
      exact hstart (UnionType.mem_of.1 hx)

/-! ### Unions -/

/-- The second state comes after the first one: the table may have grown, and classes declare the
same. -/
structure Evolves (s s' : TypeTable × CodeBase) : Prop where
  fresh : CacheFresh s'
  grows : s.1.Extends s'.1
  declared : s'.2.declared? = s.2.declared?

variable {s s' s₁ : TypeTable × CodeBase} {e : UnionType}

theorem Evolves.refl (h : CacheFresh s) : Evolves s s := ⟨h, TypeTable.Extends.refl _, rfl⟩

theorem Evolves.trans (h : Evolves s s₁) (h' : Evolves s₁ s') : Evolves s s' :=
  ⟨h'.fresh, h.grows.trans h'.grows, h'.declared.trans h.declared⟩

/-- The type is known to expand to the union, and no types have to be added for that. -/
def Unfolds (s : TypeTable × CodeBase) (i : TypeId) (v : UnionType) : Prop :=
  Settles s.1 s.2 (expandWithin maxExpansionDepth i) v

theorem Unfolds.evolves (hs : CacheFresh s) (h : Unfolds s i v) (hc : Evolves s s') :
    Unfolds s' i v :=
  Settles.mono (steady_expandWithin _ i) hs.canonical hs.loadable h hc.fresh.canonical hc.grows
    hc.declared

/-- What an expansion gives is known afterwards. -/
theorem unfolds_of_expandType (h : CacheFresh s) (hrun : expandType i s = .ok (v, s')) :
    Evolves s s' ∧ Unfolds s' i v := by
  obtain ⟨t, b⟩ := s
  obtain ⟨t', b'⟩ := s'
  have hfresh := (h.expandType i).2 v _ hrun
  obtain ⟨hsync, hgen⟩ := h.sync
  rw [expandType_apply] at hrun
  cases hhit : (t.cache.sync b.generation).entries[i]? with
  | some u =>
    rw [hhit] at hrun
    cases hrun
    exact ⟨⟨hfresh, t.extends_withCache _, rfl⟩, fun b₁ hb₁ hd => hsync.expands hgen i v hhit _ b₁
      hsync.canonical (TypeTable.Extends.refl _) hb₁ hd⟩
  | none =>
    rw [hhit] at hrun
    cases hwithin : expandWithin maxExpansionDepth i (t.syncCache b.generation, b) with
    | error v => rw [hwithin] at hrun; cases hrun
    | ok r =>
      obtain ⟨u, t₁, b₁⟩ := r
      rw [hwithin] at hrun
      cases hrun
      have hsteady := steady_expandWithin maxExpansionDepth i
      obtain ⟨hgrows, hloads⟩ := hsteady.grows hsync.canonical hsync.loadable hwithin
      have hext : t₁.Extends ((t₁.syncCache b₁.generation).remember i u) :=
        ⟨fun _ _ => id, fun _ _ => id⟩
      refine ⟨⟨hfresh, ?_, hloads.declared⟩, ?_⟩
      · exact ((t.extends_withCache _).trans hgrows.keeps).trans hext
      · exact Settles.mono hsteady hgrows.canonical hloads.loadable
          (hsteady.settles hsync.canonical hsync.loadable hwithin) hfresh.canonical hext rfl

/-- What is known to be given is given. -/
theorem exists_expandType (h : CacheFresh s) (hv : Unfolds s i v) :
    ∃ s', expandType i s = .ok (v, s') := by
  obtain ⟨t, b⟩ := s
  obtain ⟨b₁, hrun⟩ := hv b h.loadable rfl
  have hsame := (h.expandType i).1
  rw [hrun] at hsame
  cases hexpand : expandType i (t, b) with
  | error v => rw [hexpand] at hsame; cases hsame
  | ok r =>
    rw [hexpand] at hsame
    obtain rfl : r.1 = v := Except.ok.inj hsame
    exact ⟨r.2, rfl⟩

/-- The members are known to expand to unions that are, together, the second union. -/
def Expansion (s : TypeTable × CodeBase) (u e : UnionType) : Prop :=
  ∃ vs, List.Forall₂ (Unfolds s) u.members vs ∧ e = vs.foldl UnionType.union .empty

theorem Expansion.mem_iff (hs : CacheFresh s) (h : Expansion s u e) :
    x ∈ e.members ↔ ∃ i ∈ u.members, ∃ v, Unfolds s i v ∧ x ∈ v.members := by
  obtain ⟨vs, hvs, rfl⟩ := h
  rw [UnionType.mem_foldl_union]
  simp only [UnionType.members_empty, List.not_mem_nil, false_or]
  constructor
  · rintro ⟨v, hv, hx⟩
    obtain ⟨i, hi, hunfolds⟩ := exists_of_forall₂ hvs.flip hv
    exact ⟨i, hi, v, hunfolds, hx⟩
  · rintro ⟨i, hi, v, hunfolds, hx⟩
    obtain ⟨v', hv', hunfolds'⟩ := exists_of_forall₂ hvs hi
    obtain rfl := Settles.unique hs.loadable hunfolds hunfolds'
    exact ⟨v, hv', hx⟩

/-- What the expansion of a union gives is known afterwards. -/
theorem expansion_of_expand (h : CacheFresh s) (hrun : u.expand s = .ok (e, s')) :
    Evolves s s' ∧ Expansion s' u e := by
  have hloop : ∀ (is : List TypeId) (r : UnionType) (s : TypeTable × CodeBase), CacheFresh s →
      (is.foldlM (fun result i => do return result.union (← expandType i)) r :
        ExpandM CodeBase UnionType) s = .ok (e, s') →
      Evolves s s' ∧ ∃ vs, List.Forall₂ (Unfolds s') is vs ∧ e = vs.foldl UnionType.union r := by
    intro is
    induction is with
    | nil =>
      rintro r s hs hrun
      cases hrun
      exact ⟨.refl hs, [], .nil, rfl⟩
    | cons i is ih =>
      intro r s hs hrun
      rw [List.foldlM_cons] at hrun
      obtain ⟨r', s₁, hfirst, hrest⟩ := bind_eq_ok.1 hrun
      obtain ⟨v, s₂, hexpand, hpure⟩ := bind_eq_ok.1 hfirst
      cases hpure
      obtain ⟨hc, hunfolds⟩ := unfolds_of_expandType hs hexpand
      obtain ⟨hc', vs, hvs, rfl⟩ := ih _ _ hc.fresh hrest
      exact ⟨hc.trans hc', v :: vs, .cons (hunfolds.evolves hc.fresh hc') hvs, rfl⟩
  exact hloop u.members .empty s h hrun

/-- A union whose members are known to expand is expanded. -/
theorem exists_expand (h : CacheFresh s) (hu : ∀ i ∈ u.members, ∃ v, Unfolds s i v) :
    ∃ e s', u.expand s = .ok (e, s') := by
  have hloop : ∀ (is : List TypeId) (r : UnionType) (s : TypeTable × CodeBase), CacheFresh s →
      (∀ i ∈ is, ∃ v, Unfolds s i v) →
      ∃ e s', (is.foldlM (fun result i => do return result.union (← expandType i)) r :
        ExpandM CodeBase UnionType) s = .ok (e, s') := by
    intro is
    induction is with
    | nil => exact fun r s _ _ => ⟨r, s, rfl⟩
    | cons i is ih =>
      intro r s hs his
      obtain ⟨⟨v, hv⟩, hrest⟩ := List.forall_mem_cons.1 his
      obtain ⟨s₁, hfirst⟩ := exists_expandType hs hv
      obtain ⟨hc, -⟩ := unfolds_of_expandType hs hfirst
      obtain ⟨e, s', hrun⟩ := ih (r.union v) s₁ hc.fresh fun j hj => by
        obtain ⟨w, hw⟩ := hrest j hj
        exact ⟨w, hw.evolves hs hc⟩
      refine ⟨e, s', ?_⟩
      rw [List.foldlM_cons]
      exact bind_eq_ok.2 ⟨_, _, bind_eq_ok.2 ⟨_, _, hfirst, rfl⟩, hrun⟩
  exact hloop u.members .empty s h hu

theorem DeclaresPlainSelf.evolves (h : DeclaresPlainSelf s.1 s.2) (hc : Evolves s s') :
    DeclaresPlainSelf s'.1 s'.2 := by
  intro c declared hdeclared m hm
  rw [hc.declared] at hdeclared
  obtain ⟨hlt, hplain⟩ := h c declared hdeclared m hm
  refine ⟨hc.grows.lt_size hlt, fun name args nullable hget => hplain name args nullable ?_⟩
  obtain ⟨e, he⟩ := TypeTable.exists_entry hlt
  rw [TypeTable.get?_eq (hc.grows.entries m e he)] at hget
  rw [TypeTable.get?_eq he, hget]

/-- Expanding unions is extensive, monotone and idempotent. -/
theorem expand_closure {nullCasts hydrateLazily : Bool} {requests : List Request}
    (hhonest : ∀ r ∈ requests, r.Honest) (hnamed : ∀ r ∈ requests, r.WellNamed)
    (hrun : requests.forM Request.run (.initial nullCasts, .create hydrateLazily) = .ok ((), s))
    (hself : DeclaresPlainSelf s.1 s.2) (hexpand : u.expand s = .ok (e, s₁)) :
    u.members ⊆ e.members ∧ Evolves s s₁ ∧ ∀ s₂, Evolves s₁ s₂ →
      (∀ (v e' : UnionType) (s₃ : TypeTable × CodeBase), v.expand s₂ = .ok (e', s₃) →
        Evolves s₂ s₃ ∧
        (u.members ⊆ v.members → e.members ⊆ e'.members) ∧
        (v.members ⊆ u.members → e'.members ⊆ e.members)) ∧
      ∃ e' s₃, e.expand s₂ = .ok (e', s₃) ∧ e'.SameMembers e := by
  have hs := keepsFresh_session (fun r hr => ⟨hhonest r hr, hnamed r hr⟩) _ s ()
    (cacheFresh_start nullCasts hydrateLazily) hrun
  obtain ⟨hc, he⟩ := expansion_of_expand hs hexpand
  have hb := hc.fresh.loadable
  have hgives : ∀ i ∈ u.members, ∃ v, Unfolds s₁ i v ∧ v.members ⊆ e.members := by
    obtain ⟨vs, hvs, rfl⟩ := id he
    intro i hi
    obtain ⟨v, hv, hunfolds⟩ := exists_of_forall₂ hvs hi
    exact ⟨v, hunfolds, fun x hx => (UnionType.mem_foldl_union vs _).2 (.inr ⟨v, hv, hx⟩)⟩
  refine ⟨fun i hi => ?_, hc, fun s₂ hc₂ => ⟨fun v e' s₃ hrun' => ?_, ?_⟩⟩
  · obtain ⟨v, hunfolds, hsub⟩ := hgives i hi
    exact hsub (mem_of_settles hc.fresh.canonical hb hunfolds)
  · obtain ⟨hc₃, he'⟩ := expansion_of_expand hc₂.fresh hrun'
    have hlater : ∀ {i w}, Unfolds s₁ i w → Unfolds s₃ i w :=
      fun h => h.evolves hc.fresh (hc₂.trans hc₃)
    refine ⟨hc₃, fun huv x hx => ?_, fun hvu x hx => ?_⟩
    · obtain ⟨i, hi, w, hw, hxw⟩ := (he.mem_iff hc.fresh).1 hx
      exact (he'.mem_iff hc₃.fresh).2 ⟨i, huv hi, w, hlater hw, hxw⟩
    · obtain ⟨i, hi, w, hw, hxw⟩ := (he'.mem_iff hc₃.fresh).1 hx
      obtain ⟨w', hw', hsub⟩ := hgives i (hvu hi)
      obtain rfl := Settles.unique hc₃.fresh.loadable hw (hlater hw')
      exact hsub hxw
  · -- every type in the expansion expands to a part of it
    have hpart : ∀ x ∈ e.members, ∃ w, Unfolds s₁ x w ∧ w.members ⊆ e.members := by
      intro x hx
      obtain ⟨i, hi, v, hv, hxv⟩ := (he.mem_iff hc.fresh).1 hx
      obtain ⟨w, hw, hwv⟩ := settles_of_mem hc.fresh.canonical hb (hself.evolves hc) hv hxv
      exact ⟨w, hw, fun y hy => (he.mem_iff hc.fresh).2 ⟨i, hi, v, hv, hwv hy⟩⟩
    obtain ⟨e', s₃, hrun'⟩ := exists_expand hc₂.fresh fun x hx => by
      obtain ⟨w, hw, -⟩ := hpart x hx
      exact ⟨w, hw.evolves hc.fresh hc₂⟩
    obtain ⟨hc₃, he'⟩ := expansion_of_expand hc₂.fresh hrun'
    refine ⟨e', s₃, hrun', fun y => ?_⟩
    rw [he'.mem_iff hc₃.fresh]
    constructor
    · rintro ⟨x, hx, w, hw, hy⟩
      obtain ⟨w', hw', hsub⟩ := hpart x hx
      obtain rfl := Settles.unique hc₃.fresh.loadable hw (hw'.evolves hc.fresh (hc₂.trans hc₃))
      exact hsub hy
    · intro hy
      obtain ⟨w, hw, -⟩ := hpart y hy
      have hw := hw.evolves hc.fresh (hc₂.trans hc₃)
      exact ⟨y, hy, w, hw, mem_of_settles hc₃.fresh.canonical hc₃.fresh.loadable hw⟩

/-! ### A class and its parent, with and without null -/

/-- A class with a parent. The type of the class stands at place 31 and that of its parent at place
32; with null they stand at places 33 and 34. -/
def heiress (type : UnionType) : ClassDecl where
  name := .make "\\" "A"
  parent := some (.make "\\" "P")
  type

/-- The types are asked for, and the class is registered. -/
def familyRequests (type : UnionType) : List Request :=
  [.type (.intern (.object (.make "\\" "A") []) false),
    .type (.intern (.object (.make "\\" "P") []) false),
    .type (.intern (.object (.make "\\" "A") []) true),
    .type (.intern (.object (.make "\\" "P") []) true),
    .register (.classDecl (heiress type))]

/-- The code base with the class. -/
def familyBase (type : UnionType) : CodeBase := .registered true [.classDecl (heiress type)]

/-- The types that are asked for, from place 31 on. -/
def familyRows : List TypeEntry :=
  [⟨⟨.object (.make "\\" "A") [], false⟩, "\\A"⟩, ⟨⟨.object (.make "\\" "P") [], false⟩, "\\P"⟩,
    ⟨⟨.object (.make "\\" "A") [], true⟩, "?\\A"⟩, ⟨⟨.object (.make "\\" "P") [], true⟩, "?\\P"⟩]

/-- Where they are found. -/
def familyNames : List (String × TypeId) :=
  [("?\\P", 34), ("?\\p", 34), ("?\\A", 33), ("?\\a", 33), ("\\P", 32), ("\\p", 32), ("\\A", 31),
    ("\\a", 31)]

theorem run_familyRequests (type : UnionType) :
    ∃ t, (familyRequests type).forM Request.run (.initial false, .create true) =
      .ok ((), t, familyBase type) ∧ t.Lists familyRows familyNames := by
  have hl := TypeTable.lists_initial false
  generalize TypeTable.initial false = t₀ at hl ⊢
  obtain ⟨t₁, h₁, l₁, -⟩ := hl.intern_new (TypeTable.writes_object _ (.make "\\" "A") false)
    (by decide) rfl
  obtain ⟨t₂, h₂, l₂, -⟩ := l₁.intern_new (TypeTable.writes_object _ (.make "\\" "P") false)
    (by decide) rfl
  obtain ⟨t₃, h₃, l₃, -⟩ := l₂.intern_new (TypeTable.writes_object _ (.make "\\" "A") true)
    (by decide) rfl
  obtain ⟨t₄, h₄, l₄, -⟩ := l₃.intern_new (TypeTable.writes_object _ (.make "\\" "P") true)
    (by decide) rfl
  refine ⟨t₄, ?_, l₄⟩
  refine ExpandM.bind_eq_ok.2 ⟨(), (t₁, .create true), Request.run_type h₁, ?_⟩
  refine ExpandM.bind_eq_ok.2 ⟨(), (t₂, .create true), Request.run_type h₂, ?_⟩
  refine ExpandM.bind_eq_ok.2 ⟨(), (t₃, .create true), Request.run_type h₃, ?_⟩
  exact ExpandM.bind_eq_ok.2 ⟨(), (t₄, .create true), Request.run_type h₄, rfl⟩

theorem honest_familyRequests (type : UnionType) : ∀ r ∈ familyRequests type, r.Honest := by
  simp [familyRequests, Request.Honest]

theorem wellNamed_familyRequests (type : UnionType) : ∀ r ∈ familyRequests type, r.WellNamed := by
  have ha : (QualifiedName.make "\\" "A").WellFormed :=
    ⟨["A".toList], by decide, by decide, by decide⟩
  have hp : (QualifiedName.make "\\" "P").WellFormed :=
    ⟨["P".toList], by decide, by decide, by decide⟩
  simp [familyRequests, Request.WellNamed, TypeRequest.kind?, TypeKind.WellNamed, ha, hp]

section

variable {type : UnionType}

theorem declared?_familyBase (c : ClassName) :
    (familyBase type).declared? c =
      if (QualifiedName.make "\\" "A").fold = c.fold then some type else none := by
  have hb : (familyBase type).SelfContained := (CodeBase.fresh_registered true _).selfContained
  have hclass : (familyBase type).class? c =
      if (heiress type).name.fold = c.fold then some (heiress type) else none := by
    rw [← CodeBase.class?_create true c]
    exact CodeBase.class?_addClass OrderedTable.valid_empty _ c
  rw [hb.declared?_eq, hclass, apply_ite (Option.map ClassDecl.type)]
  rfl

theorem loadable_familyBase : (familyBase type).Loadable :=
  (CodeBase.fresh_registered true _).loadable

theorem get?_family (h : t.Lists familyRows familyNames) :
    t.get? 31 = some ⟨.object (.make "\\" "A") [], false⟩ ∧
      t.get? 32 = some ⟨.object (.make "\\" "P") [], false⟩ ∧
      t.get? 33 = some ⟨.object (.make "\\" "A") [], true⟩ ∧
      t.get? 34 = some ⟨.object (.make "\\" "P") [], true⟩ :=
  ⟨TypeTable.get?_eq (h.entry (i := 31) (e := familyRows[0]) rfl),
    TypeTable.get?_eq (h.entry (i := 32) (e := familyRows[1]) rfl),
    TypeTable.get?_eq (h.entry (i := 33) (e := familyRows[2]) rfl),
    TypeTable.get?_eq (h.entry (i := 34) (e := familyRows[3]) rfl)⟩

theorem cacheFresh_family
    (hrun : (familyRequests type).forM Request.run (.initial false, .create true) =
      .ok ((), t, familyBase type)) : CacheFresh (t, familyBase type) :=
  keepsFresh_session
    (fun r hr => ⟨honest_familyRequests type r hr, wellNamed_familyRequests type r hr⟩) _ _ ()
    (cacheFresh_start false true) hrun

/-- The parent is not known, so its types expand to themselves. -/
theorem settles_parent (ht : t.Canonical) {nullable : Bool}
    (hty : t.get? id = some ⟨.object (.make "\\" "P") [], nullable⟩) :
    Settles t (familyBase type) (expandWithin (n + 1) id) (.of id) := by
  refine (settles_object_iff ht loadable_familyBase hty).2 (.inl ⟨?_, rfl⟩)
  rw [declared?_familyBase, if_neg (by decide)]

/-- With null the class gives itself and the parent with null, whether it declares itself with null
or not. -/
theorem unfolds_nullable (ht : t.Canonical) (h : t.Lists familyRows familyNames)
    (htype : type.members = [31, 32] ∨ type.members = [31, 32, 33]) :
    Unfolds (t, familyBase type) 33 ((UnionType.of 33).insert 34) := by
  obtain ⟨-, -, h33, h34⟩ := get?_family h
  have hclass : Marked t true 31 33 :=
    TypeM.bind_eq_ok.2 ⟨_, t, TypeM.fetch_eq_ok.2 ⟨rfl, _, h.entry (i := 31) rfl, rfl⟩,
      h.intern_found (TypeTable.writes_object t (.make "\\" "A") true) (by decide) rfl⟩
  have hparent : Marked t true 32 34 :=
    TypeM.bind_eq_ok.2 ⟨_, t, TypeM.fetch_eq_ok.2 ⟨rfl, _, h.entry (i := 32) rfl, rfl⟩,
      h.intern_found (TypeTable.writes_object t (.make "\\" "P") true) (by decide) rfl⟩
  have hsame : Marked t true 33 33 :=
    TypeM.bind_eq_ok.2 ⟨_, t, TypeM.fetch_eq_ok.2 ⟨rfl, _, h.entry (i := 33) rfl, rfl⟩, rfl⟩
  have hadds : Adds t (familyBase type) 19 33 (.make "\\" "A") true 32 (.of 34) :=
    .other hparent (by decide) h34 (by decide) (settles_parent ht h34)
  refine (settles_object_iff ht loadable_familyBase h33).2 (.inr ?_)
  rw [declared?_familyBase, if_pos rfl]
  rcases htype with htype | htype
  · refine ⟨type, [.empty, .of 34], rfl, ?_, rfl⟩
    rw [htype]
    exact .cons (.start hclass) (.cons hadds .nil)
  · refine ⟨type, [.empty, .of 34, .empty], rfl, ?_, rfl⟩
    rw [htype]
    exact .cons (.start hclass) (.cons hadds (.cons (.start hsame) .nil))

end

/-- With null the class expands to itself and its parent, and these expand to no more. -/
theorem expand_closure_family :
    ∃ (s s₁ s₂ : TypeTable × CodeBase) (e e' : UnionType),
      (familyRequests (.ofList [31, 32])).forM Request.run (.initial false, .create true) =
        .ok ((), s) ∧
      (UnionType.of 33).expand s = .ok (e, s₁) ∧ 33 ∈ e.members ∧ 34 ∈ e.members ∧
      e.expand s₁ = .ok (e', s₂) ∧ e'.SameMembers e := by
  obtain ⟨t, hrun, hlists⟩ := run_familyRequests (.ofList [31, 32])
  obtain ⟨h31, h32, -⟩ := get?_family hlists
  have hs := cacheFresh_family hrun
  have hunfolds : Unfolds (t, familyBase (.ofList [31, 32])) 33 _ :=
    unfolds_nullable hs.canonical hlists (.inl rfl)
  obtain ⟨e, s₁, hexpand⟩ := exists_expand (u := .of 33) hs fun i hi => by
    rw [UnionType.mem_of.1 hi]
    exact ⟨_, hunfolds⟩
  have hself : DeclaresPlainSelf t (familyBase (.ofList [31, 32])) := by
    intro c declared hdeclared m hm
    rw [declared?_familyBase] at hdeclared
    split at hdeclared
    · cases hdeclared
      have hm' : m = 31 ∨ m = 32 := by simpa using hm
      rcases hm' with rfl | rfl
      · refine ⟨TypeTable.lt_size_of_get? h31, fun name args nullable hget _ => ?_⟩
        cases h31.symm.trans hget
        rfl
      · refine ⟨TypeTable.lt_size_of_get? h32, fun name args nullable hget _ => ?_⟩
        cases h32.symm.trans hget
        rfl
    · cases hdeclared
  obtain ⟨hextends, hc, hlater⟩ := expand_closure (honest_familyRequests _)
    (wellNamed_familyRequests _) hrun hself hexpand
  obtain ⟨-, e', s₂, hagain, hsame⟩ := hlater s₁ (.refl hc.fresh)
  obtain ⟨-, he⟩ := expansion_of_expand hs hexpand
  have h34 : 34 ∈ e.members := (he.mem_iff hc.fresh).2
    ⟨33, by decide, _, hunfolds.evolves hs hc, by decide⟩
  exact ⟨_, s₁, s₂, e, e', hrun, hexpand, hextends (by decide), h34, hagain, hsame⟩

/-- A class that declares itself with null, too, expands to that type, but not to the parent with
null. -/
theorem unfolds_selfish {t : TypeTable} (ht : t.Canonical) (h : t.Lists familyRows familyNames) :
    Unfolds (t, familyBase (.ofList [31, 32, 33])) 31 (((UnionType.of 31).insert 32).insert 33) := by
  obtain ⟨h31, h32, h33, -⟩ := get?_family h
  refine (settles_object_iff ht loadable_familyBase h31).2 (.inr ?_)
  refine ⟨_, [.empty, .of 32, .of 33], (declared?_familyBase _).trans (if_pos rfl), ?_, rfl⟩
  show List.Forall₂ _ [31, 32, 33] _
  exact .cons (.start rfl) (.cons
    (.other rfl (by decide) h32 (by decide) (settles_parent ht h32))
    (.cons (.same rfl (by decide) h33 (by decide)) .nil))

/-- After the requests the union expands, and its expansion expands to something else. -/
def ExpandsFurther (requests : List Request) (u : UnionType) : Prop :=
  ∃ (s s₁ s₂ : TypeTable × CodeBase) (e e' : UnionType),
    requests.forM Request.run (.initial false, .create true) = .ok ((), s) ∧
      u.expand s = .ok (e, s₁) ∧ e.expand s₁ = .ok (e', s₂) ∧ ¬ e'.SameMembers e

theorem expandsFurther_selfish :
    ExpandsFurther (familyRequests (.ofList [31, 32, 33])) (.of 31) := by
  obtain ⟨t, hrun, hlists⟩ := run_familyRequests (.ofList [31, 32, 33])
  obtain ⟨-, h32, -⟩ := get?_family hlists
  have hs := cacheFresh_family hrun
  have hunfolds := unfolds_selfish hs.canonical hlists
  obtain ⟨e, s₁, hexpand⟩ := exists_expand (u := .of 31) hs fun i hi => by
    rw [UnionType.mem_of.1 hi]
    exact ⟨_, hunfolds⟩
  obtain ⟨hc, he⟩ := expansion_of_expand hs hexpand
  have hmem : ∀ x, x ∈ e.members ↔ x = 31 ∨ x = 32 ∨ x = 33 := by
    intro x
    rw [he.mem_iff hc.fresh]
    constructor
    · rintro ⟨i, hi, v, hv, hx⟩
      rw [UnionType.mem_of.1 hi] at hv
      obtain rfl := Settles.unique hc.fresh.loadable hv (hunfolds.evolves hs hc)
      simpa [or_assoc] using hx
    · intro hx
      exact ⟨31, by decide, _, hunfolds.evolves hs hc, by simpa [or_assoc] using hx⟩
  have hnullable : Unfolds (t, familyBase (.ofList [31, 32, 33])) 33 _ :=
    unfolds_nullable hs.canonical hlists (.inr rfl)
  obtain ⟨e', s₂, hagain⟩ := exists_expand (u := e) hc.fresh fun i hi => by
    rcases (hmem i).1 hi with rfl | rfl | rfl
    · exact ⟨_, hunfolds.evolves hs hc⟩
    · exact ⟨_, Unfolds.evolves hs (settles_parent hs.canonical h32) hc⟩
    · exact ⟨_, hnullable.evolves hs hc⟩
  obtain ⟨hc', he'⟩ := expansion_of_expand hc.fresh hagain
  have h34 : 34 ∈ e'.members := (he'.mem_iff hc'.fresh).2
    ⟨33, (hmem 33).2 (by decide), _, (hnullable.evolves hs hc).evolves hc.fresh hc', by decide⟩
  refine ⟨_, s₁, s₂, e, e', hrun, hexpand, hagain, fun hsame => ?_⟩
  exact absurd ((hmem 34).1 ((hsame 34).1 h34)) (by decide)

/-! ### A class that is found for an array

A class named `\P[]` is found where the arrays of its namesake `\P` are asked for. So arrays expand to
it, when `\P` is the parent of their class, but not to its own parent. -/

section

open CodeBase

/-- A class and its parent that is not known expand to no more. -/
theorem expandWithin_child (hb : b.SelfContained) {name other : ClassName} {key key' : String}
    (hne : i ≠ id) (hid : t.entries[id]? = some ⟨⟨.object name [], false⟩, key⟩)
    (hi : t.entries[i]? = some ⟨⟨.object other [], false⟩, key'⟩) (hfold : other.fold ≠ name.fold)
    (hclass : ∃ decl, b.class? name = some decl ∧ decl.type.members = [id, i])
    (hnone : b.class? other = none) (n : Nat) :
    expandWithin (n + 2) id (t, b) = .ok ((UnionType.of id).union (.of i), t, b) := by
  obtain ⟨decl, hclass, hdecl⟩ := hclass
  rw [ExpandM.expandWithin_object hid rfl, hb.declaredType, hclass]
  show (decl.type.members.foldlM _ _ : ExpandM CodeBase UnionType) _ = _
  rw [hdecl]
  refine bind_eq_ok.2 ⟨.of id, (t, b), ?_, ?_⟩
  · refine bind_eq_ok.2 ⟨id, (t, b), rfl, ?_⟩
    show addAncestor _ _ _ _ _ _ = _
    rw [addAncestor_eq, if_pos rfl]
    rfl
  refine bind_eq_ok.2 ⟨_, (t, b), bind_eq_ok.2 ⟨i, (t, b), rfl, ?_⟩, rfl⟩
  show addAncestor _ _ _ _ _ _ = _
  rw [addAncestor_eq, if_neg hne]
  refine bind_eq_ok.2 ⟨_, _, fetch_apply hi b, ?_⟩
  have hof : (⟨.object other [], false⟩ : Ty).isOf name = false := by
    simpa [Ty.isOf, Ty.className?, QualifiedName.sameClass] using hfold
  rw [hof]
  refine bind_eq_ok.2 ⟨.of i, (t, b), ?_, rfl⟩
  rw [ExpandM.expandWithin_object hi rfl, hb.declaredType, hnone]
  rfl

variable {rows : List TypeEntry} {names : List (String × TypeId)} {f : TypeId → UnionType}

/-- Where types expand to what is given for them, whatever else is remembered, so do unions. -/
theorem expand_listed
    (hf : ∀ i ∈ u.members, ∀ t : TypeTable, t.Lists rows names →
      expandWithin maxExpansionDepth i (t, b) = .ok (f i, t, b))
    (h : t.Lists rows names)
    (hcache : ∀ i v, (t.cache.sync b.generation).entries[i]? = some v → v = f i) :
    ∃ t', u.expand (t, b) = .ok (u.members.foldl (fun e i => e.union (f i)) .empty, t', b) ∧
      t'.Lists rows names ∧
      ∀ i v, (t'.cache.sync b.generation).entries[i]? = some v → v = f i := by
  have hstep : ∀ i ∈ u.members, ∀ t : TypeTable, t.Lists rows names →
      (∀ i v, (t.cache.sync b.generation).entries[i]? = some v → v = f i) →
      ∃ t', expandType i (t, b) = .ok (f i, t', b) ∧ t'.Lists rows names ∧
        ∀ i v, (t'.cache.sync b.generation).entries[i]? = some v → v = f i := by
    intro i hi t h hcache
    have hgen := t.cache.generation_sync b.generation
    have hsync : (t.syncCache b.generation).Lists rows names := ⟨h.entries, h.byKey⟩
    cases hhit : (t.cache.sync b.generation).entries[i]? with
    | some v =>
      obtain rfl := hcache i v hhit
      refine ⟨t.syncCache b.generation, by rw [expandType_apply, hhit], hsync, fun j w hj => ?_⟩
      rw [show (t.syncCache b.generation).cache = t.cache.sync b.generation from rfl,
        ExpansionCache.sync_of_generation hgen] at hj
      exact hcache j w hj
    | none =>
      refine ⟨_, expandType_of_none hhit (hf i hi _ hsync), ⟨h.entries, h.byKey⟩, fun j w hj => ?_⟩
      have hcache' : (((t.syncCache b.generation).syncCache b.generation).remember i (f i)).cache =
          ⟨b.generation, (t.cache.sync b.generation).entries.insert i (f i)⟩ := by
        show ExpansionCache.mk ((t.cache.sync b.generation).sync b.generation).generation
          (((t.cache.sync b.generation).sync b.generation).entries.insert i (f i)) = _
        rw [ExpansionCache.sync_of_generation hgen, hgen]
      rw [hcache', ExpansionCache.sync_of_generation rfl, Std.HashMap.getElem?_insert] at hj
      split at hj
      · next heq =>
        cases hj
        rw [eq_of_beq heq]
      · exact hcache j w hj
  suffices hloop : ∀ (is : List TypeId) (e : UnionType) (t : TypeTable), is ⊆ u.members →
      t.Lists rows names → (∀ i v, (t.cache.sync b.generation).entries[i]? = some v → v = f i) →
      ∃ t', (is.foldlM (fun e i => do return e.union (← expandType i)) e :
          ExpandM CodeBase UnionType) (t, b) =
            .ok (is.foldl (fun e i => e.union (f i)) e, t', b) ∧ t'.Lists rows names ∧
        ∀ i v, (t'.cache.sync b.generation).entries[i]? = some v → v = f i from
    hloop u.members .empty t (List.Subset.refl _) h hcache
  intro is
  induction is with
  | nil => exact fun e t _ h hcache => ⟨t, rfl, h, hcache⟩
  | cons i is ih =>
    intro e t his h hcache
    obtain ⟨hi, his⟩ := List.cons_subset.1 his
    obtain ⟨t₁, hfirst, h₁, hcache₁⟩ := hstep i hi t h hcache
    obtain ⟨t₂, hrest, h₂, hcache₂⟩ := ih (e.union (f i)) t₁ his h₁ hcache₁
    refine ⟨t₂, ?_, h₂, hcache₂⟩
    rw [List.foldlM_cons]
    exact bind_eq_ok.2 ⟨_, _, bind_eq_ok.2 ⟨_, _, hfirst, rfl⟩, hrest⟩

/-- A class that is written like an array, and its parent. -/
def impostor : ClassDecl where
  name := .make "\\" "P[]"
  parent := some (.make "\\" "Q")
  type := .ofList [31, 32]

/-- The class that is written like an array is asked for first. -/
def impostorRequests : List Request :=
  [.type (.intern (.object (.make "\\" "P[]") []) false),
    .type (.intern (.object (.make "\\" "Q") []) false),
    .type (.intern (.object (.make "\\" "A") []) false),
    .type (.intern (.object (.make "\\" "P") []) false),
    .type (.intern (.array .mixed 33) false),
    .register (.classDecl impostor),
    .register (.classDecl (heiress (.ofList [33, 34])))]

/-- The code base with both classes. -/
def impostorBase : CodeBase :=
  .registered true [.classDecl impostor, .classDecl (heiress (.ofList [33, 34]))]

/-- The types that are asked for, from place 31 on. -/
def impostorRows : List TypeEntry :=
  [⟨⟨.object (.make "\\" "P[]") [], false⟩, "\\P[]"⟩,
    ⟨⟨.object (.make "\\" "Q") [], false⟩, "\\Q"⟩, ⟨⟨.object (.make "\\" "A") [], false⟩, "\\A"⟩,
    ⟨⟨.object (.make "\\" "P") [], false⟩, "\\P"⟩, ⟨⟨.array .mixed 33, false⟩, "\\A[]"⟩]

/-- Where they are found. -/
def impostorNames : List (String × TypeId) :=
  [("\\A[]", 35), ("\\A[]", 35), ("\\P", 34), ("\\p", 34), ("\\A", 33), ("\\a", 33), ("\\Q", 32),
    ("\\q", 32), ("\\P[]", 31), ("\\p[]", 31)]

theorem run_impostorRequests :
    ∃ t, impostorRequests.forM Request.run (.initial false, .create true) =
        .ok ((), t, impostorBase) ∧ t.Lists impostorRows impostorNames ∧ t.cache = {} := by
  have hl := TypeTable.lists_initial false
  have hc := TypeTable.cache_initial false
  generalize TypeTable.initial false = t₀ at hl hc ⊢
  obtain ⟨t₁, h₁, l₁, c₁⟩ := hl.intern_new (TypeTable.writes_object _ (.make "\\" "P[]") false)
    (by decide) rfl
  obtain ⟨t₂, h₂, l₂, c₂⟩ := l₁.intern_new (TypeTable.writes_object _ (.make "\\" "Q") false)
    (by decide) rfl
  obtain ⟨t₃, h₃, l₃, c₃⟩ := l₂.intern_new (TypeTable.writes_object _ (.make "\\" "A") false)
    (by decide) rfl
  obtain ⟨t₄, h₄, l₄, c₄⟩ := l₃.intern_new (TypeTable.writes_object _ (.make "\\" "P") false)
    (by decide) rfl
  obtain ⟨t₅, h₅, l₅, c₅⟩ := l₄.intern_new (l₄.writes_array 33 rfl false) (by decide) rfl
  refine ⟨t₅, ?_, l₅, by rw [c₅, c₄, c₃, c₂, c₁, hc]⟩
  refine ExpandM.bind_eq_ok.2 ⟨(), (t₁, .create true), Request.run_type h₁, ?_⟩
  refine ExpandM.bind_eq_ok.2 ⟨(), (t₂, .create true), Request.run_type h₂, ?_⟩
  refine ExpandM.bind_eq_ok.2 ⟨(), (t₃, .create true), Request.run_type h₃, ?_⟩
  refine ExpandM.bind_eq_ok.2 ⟨(), (t₄, .create true), Request.run_type h₄, ?_⟩
  exact ExpandM.bind_eq_ok.2 ⟨(), (t₅, .create true), Request.run_type h₅, rfl⟩

theorem class?_impostorBase (c : ClassName) :
    impostorBase.class? c =
      if (QualifiedName.make "\\" "A").fold = c.fold then some (heiress (.ofList [33, 34]))
      else if impostor.name.fold = c.fold then some impostor else none := by
  have hfirst : (CodeBase.registered true [.classDecl impostor]).class? c =
      if impostor.name.fold = c.fold then some impostor else none := by
    rw [← CodeBase.class?_create true c]
    exact CodeBase.class?_addClass OrderedTable.valid_empty _ c
  rw [← hfirst]
  exact CodeBase.class?_addClass
    (CodeBase.fresh_registered true [.classDecl impostor]).classes (heiress (.ofList [33, 34])) c

theorem selfContained_impostorBase : impostorBase.SelfContained :=
  (CodeBase.fresh_registered true _).selfContained

theorem expandWithin_impostor (h : t.Lists impostorRows impostorNames) (n : Nat) :
    expandWithin (n + 2) 31 (t, impostorBase) =
      .ok ((UnionType.of 31).union (.of 32), t, impostorBase) := by
  refine expandWithin_child selfContained_impostorBase (by decide)
    (h.entry (i := 31) (e := impostorRows[0]) rfl) (h.entry (i := 32) (e := impostorRows[1]) rfl)
    (by decide) ⟨impostor, ?_, rfl⟩ ?_ n
  · rw [class?_impostorBase, if_neg (by decide), if_pos (by decide)]
  · rw [class?_impostorBase, if_neg (by decide), if_neg (by decide)]

/-- The arrays of the class expand to the class that passes for the arrays of its parent. -/
theorem expandWithin_heiresses (h : t.Lists impostorRows impostorNames) (n : Nat) :
    expandWithin (n + 3) 35 (t, impostorBase) = .ok (.ofList [35, 31], t, impostorBase) := by
  have helement := h.entry (i := 33) (e := impostorRows[2]) rfl
  have hparent := h.entry (i := 34) (e := impostorRows[3]) rfl
  rw [ExpandM.expandWithin_array (h.entry (i := 35) (e := impostorRows[4]) rfl) rfl helement rfl]
  have hfirst : expandWithin (n + 2) 33 (t, impostorBase) =
      .ok ((UnionType.of 33).union (.of 34), t, impostorBase) := by
    refine expandWithin_child selfContained_impostorBase (by decide) helement hparent (by decide)
      ⟨heiress (.ofList [33, 34]), ?_, rfl⟩ ?_ n
    · exact (class?_impostorBase _).trans (if_pos (by decide))
    · rw [class?_impostorBase, if_neg (by decide), if_neg (by decide)]
  have hown : TypeM.intern (.array .mixed 33) false t = .ok (35, t) :=
    h.intern_found (h.writes_array 33 rfl false) (by decide) rfl
  have hother : TypeM.intern (.array .mixed 34) false t = .ok (31, t) :=
    h.intern_found (h.writes_array 34 rfl false) (by decide) rfl
  refine bind_eq_ok.2 ⟨_, _, hfirst, types_eq_ok.2 ⟨TypeM.bind_eq_ok.2 ⟨[35, 31], t, ?_, rfl⟩, rfl⟩⟩
  exact TypeM.bind_eq_ok.2 ⟨35, t, hown, TypeM.bind_eq_ok.2 ⟨31, t, hother, rfl⟩⟩

theorem expandsFurther_impostor : ExpandsFurther impostorRequests (.of 35) := by
  obtain ⟨t, hrun, hlists, hcache⟩ := run_impostorRequests
  have hf : ∀ i ∈ [35, 31], ∀ t : TypeTable, t.Lists impostorRows impostorNames →
      expandWithin maxExpansionDepth i (t, impostorBase) =
        .ok (if i = 35 then .ofList [35, 31] else (UnionType.of 31).union (.of 32), t,
          impostorBase) := by
    intro i hi t h
    rcases List.mem_pair.1 hi with rfl | rfl
    · exact expandWithin_heiresses h 17
    · exact expandWithin_impostor h 18
  obtain ⟨t₁, hexpand, h₁, hcache₁⟩ := expand_listed (u := .of 35) (fun i hi => hf i (by
    rw [UnionType.mem_of.1 hi]
    decide)) hlists fun i v hv => by
      have hnone : (t.cache.sync impostorBase.generation).entries[i]? = none := by
        rw [hcache]
        exact Std.HashMap.getElem?_empty
      rw [hnone] at hv
      cases hv
  obtain ⟨t₂, hagain, -⟩ := expand_listed (u := .ofList [35, 31]) hf h₁ hcache₁
  refine ⟨_, _, _, _, _, hrun, hexpand, hagain, fun hsame => ?_⟩
  exact absurd ((hsame 32).1 (by decide)) (by decide)

end

/-- A class may declare itself with null and be given what its parent gives with null only when it
is expanded again, and where names do not tell types apart, arrays of a class may expand to a class
that passes for the arrays of its parent, and has a parent of its own. -/
theorem not_expand_closure :
    ExpandsFurther (familyRequests (.ofList [31, 32, 33])) (.of 31) ∧
      ExpandsFurther impostorRequests (.of 35) :=
  ⟨expandsFurther_selfish, expandsFurther_impostor⟩

end UnionInference
