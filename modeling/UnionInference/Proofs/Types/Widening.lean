import UnionInference.Proofs.Types.NullCasts

/-!
Widening literals. The built-in type of a literal stands wherever the literal does, on both sides of
a cast: what the literal casts to, its built-in type casts to, and what casts to the literal casts to
its built-in type. So no cast is lost when the literals of a union are replaced by built-in types.
-/

namespace UnionInference

/-! ### Kinds -/

namespace TypeKind

variable {R : TypeId → TypeId → Prop} {k a b : TypeKind}

/-- The built-in kind of a literal; any other kind stays as it is. -/
def widened : TypeKind → TypeKind
  | .intLiteral _ => .native .int
  | .stringLiteral _ => .native .string
  | kind => kind

/-- A literal and its built-in kind cast to each other. -/
theorem IsLiteral.casts_widened (h : k.IsLiteral) :
    k.Casts R k.widened ∧ k.widened.Casts R k := by
  cases k <;> first | exact ⟨rfl, rfl⟩ | cases h

/-- The built-in kind of a literal casts to whatever the literal casts to. -/
theorem Casts.widened_left (h : a.Casts R b) : a.widened.Casts R b := by
  cases a with
  | intLiteral n | stringLiteral s =>
    cases b with
    | native k => cases k <;> first | rfl | cases h
    | template s => rfl
    | _ => cases h
  | _ => exact h

/-- Whatever casts to a literal casts to its built-in kind. -/
theorem Casts.widened_right (h : a.Casts R b) : a.Casts R b.widened := by
  cases b with
  | intLiteral n | stringLiteral s =>
    cases a with
    | native k => cases k <;> first | rfl | cases h
    | template s => rfl
    | _ => cases h
  | _ => exact h

end TypeKind

/-! ### Types -/

/-- The type with the built-in kind in place of a literal. -/
def Ty.widened (ty : Ty) : Ty := ⟨ty.kind.widened, ty.nullable⟩

theorem Ty.isNative_widened {ty : Ty} {n : NativeKind} (hn : n = .null ∨ n = .mixed) :
    ty.widened.isNative n = ty.isNative n := by
  obtain ⟨kind, nullable⟩ := ty
  rcases hn with rfl | rfl <;> cases kind <;> rfl

theorem Ty.admitsNull_widened (ty : Ty) : ty.widened.admitsNull = ty.admitsNull := by
  rw [admitsNull, admitsNull, isNative_widened (.inl rfl)]
  rfl

namespace TypeTable

variable {t : TypeTable} {s d : Ty} {i i' j j' : TypeId}

theorem Permits.widened_left (h : t.Permits s d) : t.Permits s.widened d := by
  rw [Permits, Ty.isNative_widened (.inr rfl), Ty.isNative_widened (.inl rfl),
    Ty.admitsNull_widened]
  exact h.imp_right (Or.imp_right (And.imp_right (Or.imp_right .widened_left)))

theorem Permits.widened_right (h : t.Permits s d) : t.Permits s d.widened := by
  rw [Permits, Ty.isNative_widened (.inr rfl), Ty.admitsNull_widened]
  exact h.imp_right (Or.imp_right (And.imp_right (Or.imp_right .widened_right)))

/-- The second type is the built-in one of the first if that is a literal, and else the first. -/
def Widens (t : TypeTable) (i i' : TypeId) : Prop :=
  ∃ s, t.get? i = some s ∧ t.get? i' = some s.widened ∧ (¬ s.kind.IsLiteral → i' = i)

theorem Widens.lt_size (h : t.Widens i i') : i' < t.size := by
  obtain ⟨s, -, hs', -⟩ := h
  exact lt_size_of_get? hs'

theorem Rooted.exists_widens (ht : t.Rooted) (hi : i < t.size) :
    ∃ i', TypeM.widenLiteral i t = .ok (i', t) ∧ t.Widens i i' := by
  obtain ⟨⟨kind, nullable⟩, hs⟩ := exists_get? hi
  have hfetch : ∀ {i'}, (match kind with
      | .intLiteral _ => TypeM.native .int nullable
      | .stringLiteral _ => TypeM.native .string nullable
      | _ => return i : TypeM TypeId) t = .ok (i', t) → TypeM.widenLiteral i t = .ok (i', t) := by
    intro i' h
    obtain ⟨entry, he, hentry⟩ := Option.map_eq_some_iff.1 hs
    exact TypeM.bind_eq_ok.2 ⟨_, t, TypeM.fetch_eq_ok.2 ⟨rfl, entry, he, hentry⟩, h⟩
  cases kind with
  | intLiteral n =>
    obtain ⟨i', hrun, hi'⟩ := ht.native (k := .int) rfl nullable
    exact ⟨i', hfetch hrun, _, hs, hi', fun h => absurd trivial h⟩
  | stringLiteral n =>
    obtain ⟨i', hrun, hi'⟩ := ht.native (k := .string) rfl nullable
    exact ⟨i', hfetch hrun, _, hs, hi', fun h => absurd trivial h⟩
  | _ => exact ⟨i, hfetch rfl, _, hs, hs, fun _ => rfl⟩

/-- What a type casts to, its widened type casts to. -/
theorem Rooted.casts_widens_left (ht : t.Rooted) (hi : t.Widens i i') (hj : j < t.size)
    (h : t.Casts i j) : t.Casts i' j := by
  obtain ⟨s, hs, hs', hother⟩ := hi
  by_cases hliteral : s.kind.IsLiteral
  · obtain ⟨d, hd⟩ := exists_get? hj
    rw [ht.casts_iff hs' hd]
    rcases (ht.casts_iff hs hd).1 h with rfl | h
    · obtain rfl : s = d := Option.some.inj (hs.symm.trans hd)
      refine .inr (.inr (.inr ⟨fun hn => .inl ?_, .inr hliteral.casts_widened.2⟩))
      exact s.admitsNull_widened ▸ hn
    · exact .inr h.widened_left
  · rwa [hother hliteral]

/-- What casts to a type casts to its widened type. -/
theorem Rooted.casts_widens_right (ht : t.Rooted) (hi : i < t.size) (hj : t.Widens j j')
    (h : t.Casts i j) : t.Casts i j' := by
  obtain ⟨d, hd, hd', hother⟩ := hj
  by_cases hliteral : d.kind.IsLiteral
  · obtain ⟨s, hs⟩ := exists_get? hi
    rw [ht.casts_iff hs hd']
    rcases (ht.casts_iff hs hd).1 h with rfl | h
    · obtain rfl : s = d := Option.some.inj (hs.symm.trans hd)
      refine .inr (.inr (.inr ⟨fun hn => .inl ?_, .inr hliteral.casts_widened.1⟩))
      exact s.admitsNull_widened ▸ hn
    · exact .inr h.widened_right
  · rwa [hother hliteral]

end TypeTable

/-! ### Unions -/

/-- Work that leaves the table as it is does so for all elements one after the other. -/
theorem TypeM.mapM_of_forall {α β : Type} {f : α → TypeM β} {P : α → β → Prop} {t : TypeTable}
    {as : List α} (h : ∀ a ∈ as, ∃ b, f a t = .ok (b, t) ∧ P a b) :
    ∃ bs, as.mapM f t = .ok (bs, t) ∧ List.Forall₂ P as bs := by
  induction as with
  | nil => exact ⟨[], rfl, .nil⟩
  | cons a as ih =>
    obtain ⟨b, hb, hP⟩ := h a List.mem_cons_self
    obtain ⟨bs, hbs, hPs⟩ := ih fun a ha => h a (List.mem_cons_of_mem _ ha)
    refine ⟨b :: bs, ?_, .cons hP hPs⟩
    rw [List.mapM_cons]
    exact bind_eq_ok.2 ⟨b, t, hb, bind_eq_ok.2 ⟨bs, t, hbs, rfl⟩⟩

namespace UnionType

open TypeTable

variable {ok : TypeKind → Prop} {t : TypeTable} {R S : TypeId → TypeId → Prop}
  {u u' v v' : UnionType}

/-- The members of the second union are those of the first one, widened. -/
structure Widens (t : TypeTable) (u u' : UnionType) : Prop where
  lt_size : ∀ a ∈ u'.members, a < t.size
  exists_mem : ∀ a ∈ u.members, ∃ a' ∈ u'.members, t.Widens a a'
  nil : u.members = [] → u'.members = []

theorem exists_widens (ht : t.Rooted) (hu : ∀ a ∈ u.members, a < t.size) :
    ∃ u', u.widenLiterals t = .ok (u', t) ∧ Widens t u u' := by
  obtain ⟨ids, hrun, hids⟩ := TypeM.mapM_of_forall fun a ha => ht.exists_widens (hu a ha)
  refine ⟨ofList ids, TypeM.bind_eq_ok.2 ⟨ids, t, hrun, rfl⟩, fun a ha => ?_, fun a ha => ?_, ?_⟩
  · obtain ⟨b, -, hb⟩ := exists_of_forall₂ hids.flip (mem_ofList.1 ha)
    exact TypeTable.Widens.lt_size hb
  · obtain ⟨b, hb, hab⟩ := exists_of_forall₂ hids ha
    exact ⟨b, mem_ofList.2 hb, hab⟩
  · intro hnil
    rw [hnil, List.forall₂_nil_left_iff] at hids
    rw [hids]
    rfl

/-- Widening literals loses no cast, be it done in both unions, in the source or in the target. -/
theorem canCast_widenLiterals (h : Reachable ok t) (mode : Bool) (hu : ∀ a ∈ u.members, a < t.size)
    (hv : ∀ b ∈ v.members, b < t.size) :
    ∃ u' v', u.widenLiterals (t.inMode mode) = .ok (u', t.inMode mode) ∧
      v.widenLiterals (t.inMode mode) = .ok (v', t.inMode mode) ∧
      (u.canCast v (t.inMode mode) = .ok true →
        u'.canCast v' (t.inMode mode) = .ok true ∧ u'.canCast v (t.inMode mode) = .ok true ∧
          u.canCast v' (t.inMode mode) = .ok true) := by
  have ht := h.rooted.inMode mode
  obtain ⟨u', hrunu, hwu⟩ := exists_widens (t := t.inMode mode) ht hu
  obtain ⟨v', hrunv, hwv⟩ := exists_widens (t := t.inMode mode) ht hv
  refine ⟨u', v', hrunu, hrunv, fun hcast => ?_⟩
  rw [(decides_canCast ht hu hv).iff] at hcast
  rw [(decides_canCast ht hwu.lt_size hwv.lt_size).iff, (decides_canCast ht hwu.lt_size hv).iff,
    (decides_canCast ht hu hwv.lt_size).iff]
  rcases hcast with hnil | hnil | ⟨a, ha, b, hb, hab⟩
  · exact ⟨.inl (hwu.nil hnil), .inl (hwu.nil hnil), .inl hnil⟩
  · exact ⟨.inr (.inl (hwv.nil hnil)), .inr (.inl hnil), .inr (.inl (hwv.nil hnil))⟩
  · obtain ⟨a', ha', haa'⟩ := hwu.exists_mem a ha
    obtain ⟨b', hb', hbb'⟩ := hwv.exists_mem b hb
    have hleft : (t.inMode mode).Casts a' b := ht.casts_widens_left haa' (hv b hb) hab
    have hright : (t.inMode mode).Casts a b' := ht.casts_widens_right (hu a ha) hbb' hab
    have hboth := ht.casts_widens_right haa'.lt_size hbb' hleft
    exact ⟨.inr (.inr ⟨a', ha', b', hb', hboth⟩), .inr (.inr ⟨a', ha', b, hb, hleft⟩),
      .inr (.inr ⟨a, ha, b', hb', hright⟩)⟩

/-- The literal one is accepted where a floating point number is expected, and so are the integers,
which it is widened to. -/
theorem canCast_widenLiterals_one : ∃ t i u, Reachable TypeKind.Standard t ∧
    t.get? i = some ⟨.intLiteral 1, false⟩ ∧ (of i).widenLiterals t = .ok (u, t) ∧
    (of i).canCast (native .float) t = .ok true ∧ u.canCast (native .float) t = .ok true := by
  obtain ⟨t, i, h, hi⟩ := exists_intLiteral 1
  have ht := h.rooted.inMode false
  have hu : ∀ a ∈ (of i).members, a < t.size := by
    simpa using lt_size_of_get? hi
  have hv : ∀ b ∈ (native .float).members, b < t.size := by
    simpa [members_native] using h.rooted.native_lt_size .float
  have hcast : (t.inMode false).Casts i NativeKind.float.id :=
    (ht.casts_iff hi (ht.get?_native .float)).2 (.inr (.inr (.inr ⟨nofun, .inr rfl⟩)))
  have hunion : (of i).canCast (native .float) (t.inMode false) = .ok true :=
    (decides_canCast ht hu hv).iff.2
      (.inr (.inr ⟨i, mem_of.2 rfl, NativeKind.float.id, by decide, hcast⟩))
  obtain ⟨u, v, hrun, -, hkeeps⟩ := canCast_widenLiterals h false hu hv
  exact ⟨t.inMode false, i, u, h.inMode false, hi, hrun, hunion, (hkeeps hunion).2.1⟩

end UnionType

end UnionInference
