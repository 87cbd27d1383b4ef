import UnionInference.Proofs.Types.Descent
import UnionInference.Proofs.Types.Learning
import UnionInference.Proofs.Types.Tallying
import UnionInference.Proofs.Types.TemplateNames

/-!
Placeholders on two tables. Where maps say the same of every placeholder, putting types in the places
of placeholders comes to results that correspond, and so does learning what placeholders stand for.
What is learned from one type adds to what is known and does not depend on it, so the order in which
the members of a union are met makes no difference.
-/

namespace UnionInference

open TypeM

open TypeTable (Siblings)

/-! ### What placeholders stand for -/

/-- Of each placeholder both maps say the same, each for its own table. -/
def TypeTable.SameMap (T T' : TypeTable) (m m' : TemplateMap) : Prop :=
  ∀ s, Option.Rel (T.SameTypes T') (m.get? s) (m'.get? s)

namespace TemplateMap

/-- The map speaks of the placeholder; or it says that the type is among those it stands for. -/
def Says (m : TemplateMap) (s : String) : Option TypeId → Prop
  | none => ∃ b, m.get? s = some b
  | some j => ∃ b, m.get? s = some b ∧ j ∈ b.members

variable {T T' : TypeTable} {m m' m₁ m₂ : TemplateMap} {s : String} {u v : UnionType}
  {o : Option TypeId}

theorem not_says_nil : ¬ Says [] s o := by
  cases o <;> simp [Says, get?]

theorem says_add : (m.add s u).Says s' o ↔ m.Says s' o ∨ s' = s ∧ ∀ j ∈ o, j ∈ u.members := by
  cases o with
  | none =>
    rw [Says, get?_add]
    split
    · next h => simp [h]
    · next h => simp [h, Says]
  | some j =>
    rw [Says, get?_add]
    split
    · next h =>
      subst h
      cases hm : m.get? s' <;> simp [Says, hm]
    · next h => simp [h, Says]

theorem sameMap_iff : T.SameMap T' m m' ↔ ∀ s,
    (∀ o, m.Says s o → ∃ o', m'.Says s o' ∧ Option.Rel (T.Corresponds T') o o') ∧
      ∀ o', m'.Says s o' → ∃ o, m.Says s o ∧ Option.Rel (T.Corresponds T') o o' := by
  constructor
  · intro h s
    have hs := h s
    generalize hu : m.get? s = u? at hs
    generalize hv : m'.get? s = v? at hs
    constructor
    · rintro (_ | i)
      · rintro ⟨u, hu'⟩
        obtain rfl := hu.symm.trans hu'
        obtain ⟨-⟩ := hs
        exact ⟨none, ⟨_, hv⟩, .none⟩
      · rintro ⟨u, hu', hi⟩
        obtain rfl := hu.symm.trans hu'
        obtain ⟨huv⟩ := hs
        obtain ⟨j, hj, hij⟩ := huv.forth i hi
        exact ⟨some j, ⟨_, hv, hj⟩, .some hij⟩
    · rintro (_ | j)
      · rintro ⟨v, hv'⟩
        obtain rfl := hv.symm.trans hv'
        obtain ⟨-⟩ := hs
        exact ⟨none, ⟨_, hu⟩, .none⟩
      · rintro ⟨v, hv', hj⟩
        obtain rfl := hv.symm.trans hv'
        obtain ⟨huv⟩ := hs
        obtain ⟨i, hi, hij⟩ := huv.back j hj
        exact ⟨some i, ⟨_, hu, hi⟩, .some hij⟩
  · intro h s
    obtain ⟨hforth, hback⟩ := h s
    cases hu : m.get? s with
    | none =>
      cases hv : m'.get? s with
      | none => exact .none
      | some v =>
        obtain ⟨o, ho, ⟨⟩⟩ := hback none ⟨v, hv⟩
        obtain ⟨u, hu'⟩ := ho
        cases hu.symm.trans hu'
    | some u =>
      obtain ⟨o', ho', ⟨⟩⟩ := hforth none ⟨u, hu⟩
      obtain ⟨v, hv⟩ := ho'
      rw [hv]
      refine .some ⟨fun i hi => ?_, fun j hj => ?_⟩
      · obtain ⟨o', ho', hrel⟩ := hforth (some i) ⟨u, hu, hi⟩
        obtain ⟨hij⟩ := hrel
        obtain ⟨w, hw, hj⟩ := ho'
        cases hv.symm.trans hw
        exact ⟨_, hj, hij⟩
      · obtain ⟨o, ho, hrel⟩ := hback (some j) ⟨v, hv, hj⟩
        obtain ⟨hij⟩ := hrel
        obtain ⟨w, hw, hi⟩ := ho
        cases hu.symm.trans hw
        exact ⟨_, hi, hij⟩

theorem sameMap_nil : T.SameMap T' [] [] := fun _ => .none

theorem isEmpty_iff : m.isEmpty = true ↔ ∀ s, m.get? s = none := by
  cases m with
  | nil => simp [get?]
  | cons b m =>
    simp only [List.isEmpty_cons, Bool.false_eq_true, false_iff, not_forall]
    exact ⟨b.1, by simp [get?]⟩

theorem isEmpty_eq (h : T.SameMap T' m m') : m.isEmpty = m'.isEmpty := by
  rw [Bool.eq_iff_iff, isEmpty_iff, isEmpty_iff]
  refine forall_congr' fun s => ?_
  have hs := h s
  generalize m.get? s = u? at hs
  generalize m'.get? s = v? at hs
  cases hs <;> simp

theorem sameMap_add (h : T.SameMap T' m m') (huv : T.SameTypes T' u v) (s : String) :
    T.SameMap T' (m.add s u) (m'.add s v) := by
  intro s'
  rw [get?_add, get?_add]
  split
  · have hs := h s
    generalize m.get? s = u? at hs
    generalize m'.get? s = v? at hs
    cases hs with
    | none => exact .some (UnionType.Matches.union .empty huv)
    | some h => exact .some (UnionType.Matches.union h huv)
  · exact h s'

end TemplateMap

/-! ### Unions of parts -/

namespace UnionType

variable {T T' : TypeTable} {u v : UnionType} {f g : TypeId → TypeM UnionType}

theorem tallies_bindMembers (huv : T.SameTypes T' u v) (hf : ∀ i, Recurs (f i))
    (hg : ∀ j, Recurs (g j)) (hfg : ∀ i ∈ u.members, ∀ j ∈ v.members, T.Corresponds T' i j →
      Tallies T T' (T.SameTypes T') (f i) (g j)) :
    Tallies T T' (T.SameTypes T') (u.bindMembers fun a _ => f a) (v.bindMembers fun a _ => g a) := by
  rw [bindMembers_eq, bindMembers_eq]
  exact tallies_foldlM_union huv hf hg hfg

end UnionType

/-! ### Putting types in the places of placeholders -/

namespace ShapeFields

variable {R : ShapeKey × ShapeField → ShapeKey × ShapeField → Prop}
  (hkey : ∀ f g, R f g → f.1 = g.1)
include hkey

theorem forall₂_insert {as bs : ShapeFields} {f g : ShapeKey × ShapeField}
    (h : List.Forall₂ R as bs) (hfg : R f g) :
    List.Forall₂ R (insert as f.1 f.2) (insert bs g.1 g.2) := by
  obtain ⟨k, f⟩ := f
  obtain ⟨k', g⟩ := g
  obtain rfl : k = k' := hkey _ _ hfg
  induction h with
  | nil => exact .cons hfg .nil
  | @cons a b as bs hab hrest ih =>
    obtain ⟨j, a⟩ := a
    obtain ⟨j', b⟩ := b
    obtain rfl : j = j' := hkey _ _ hab
    rw [insert, insert]
    split
    · exact .cons hfg hrest
    · exact .cons hab ih

theorem forall₂_ofList {fs gs : List (ShapeKey × ShapeField)} (h : List.Forall₂ R fs gs) :
    List.Forall₂ R (ofList fs) (ofList gs) := by
  have hfold : ∀ {as bs : ShapeFields}, List.Forall₂ R as bs →
      List.Forall₂ R (fs.foldl (fun fs f => insert fs f.1 f.2) as)
        (gs.foldl (fun fs f => insert fs f.1 f.2) bs) := by
    induction h with
    | nil => exact id
    | cons hfg _ ih => exact fun hall => ih (forall₂_insert hkey hall hfg)
  exact hfold .nil

end ShapeFields

namespace TypeM

variable {T T' : TypeTable} {r : Regime} {t₀ : TypeTable} (h : Siblings r t₀ T T')
include h

/-- Shapes are found in places that correspond if their fields match; the keys must be regular. -/
theorem tallies_shape {i : TypeId} {fs gs : ShapeFields} {n : Bool}
    (hi : T.get? i = some ⟨.shape fs, n⟩)
    (hfields : List.Forall₂ (ShapeField.Matches (T.Corresponds T')) fs gs)
    {f g : ShapeKey × ShapeField → TypeM UnionType}
    (hf : ∀ a, Recurs (f a)) (hg : ∀ a, Recurs (g a))
    (hfg : ∀ a ∈ fs, ∀ b ∈ gs, ShapeField.Matches (T.Corresponds T') a b →
      Tallies T T' (T.SameTypes T') (f a) (g b)) (nullable : Bool) :
    Tallies T T' (T.Corresponds T')
      (do
        let fields ← fs.mapM fun a => do
          let type ← f a
          return (a.1, { a.2 with type })
        intern (.shape (ShapeFields.ofList fields)) nullable)
      (do
        let fields ← gs.mapM fun a => do
          let type ← g a
          return (a.1, { a.2 with type })
        intern (.shape (ShapeFields.ofList fields)) nullable) := by
  let Keyed (a b : ShapeKey × ShapeField) : Prop := ShapeField.Matches (T.Corresponds T') a b ∧
    (∀ n, a.1 = .int n → Text.isInteger n = true)
  refine (Tallies.mapM_forall₂ (A := Keyed) hfields (fun a => (hf a).bind fun _ => .pure _)
    (fun a => (hg a).bind fun _ => .pure _) fun a ha b hb hab => ?_).bind (by grind)
      fun as bs hall => ?_
  · refine (hfg a ha b hb hab).bind (by grind) fun u v huv => .pure ⟨⟨hab.1, hab.2.1, huv⟩, ?_⟩
    exact wellNamed_of_get? h hi a ha
  · have hmatch := ShapeFields.forall₂_ofList (R := Keyed) (fun a b hab => hab.1.1) hall
    refine tallies_intern h (a := .shape _) (b := .shape _) (fun a ha => ?_) (fun b hb n hn => ?_)
      (hmatch.imp fun _ _ => And.left) nullable
    · obtain ⟨b, -, hab⟩ := (Matched.of_forall₂ hmatch).forth a ha
      exact hab.2
    · obtain ⟨a, -, hab⟩ := (Matched.of_forall₂ hmatch).back b hb
      exact hab.2 n (hab.1.1.trans hn)

omit h in
theorem yields_substitute_mixed (hT : T.Canonical) (m : TemplateMap) :
    Yields T (substitute m NativeKind.mixed.id) .mixed := by
  rw [← (substituteLevel_eq fun _ _ => rfl : substituteLevel m (substitute m) _ = _)]
  exact ⟨hT, fun t ht _ => by
    show (TypeTable.fetch t _).map _ >>= _ = _
    rw [TypeTable.fetch_of_get? (ht.get?_native .mixed)]
    rfl⟩

/-- The names of classes in types that correspond denote one class. -/
theorem sameRegular_of_get? {i j : TypeId} {x y : ClassName} {as bs : List UnionType} {n n' : Bool}
    (hi : T.get? i = some ⟨.object x as, n⟩) (hj : T'.get? j = some ⟨.object y bs, n'⟩)
    (hxy : x.fold = y.fold) : SameRegular x y :=
  ⟨hxy, (h.sound.fit i _ hi).2 (.inl h.strict), (h.sound'.fit j _ hj).2 (.inl h.strict)⟩

omit h in
theorem Yields.orMixed_eq {m : TemplateMap} {u a : UnionType}
    (ha : Yields T (u.bindMembers fun x _ => substitute m x) a)
    (hu : ∀ x ∈ u.members, x = NativeKind.mixed.id) : a.orMixed = .mixed := by
  rw [UnionType.bindMembers_eq, foldlM_eq_mapM] at ha
  obtain ⟨ws, hws, ha⟩ := ha.bind_inv (.mapM (recurs_substitute m) _) fun _ => .pure _
  have hall : ∀ w ∈ ws, w = .mixed := by
    intro w hw
    obtain ⟨x, hx, hw⟩ := (Matched.of_forall₂ (hws.mapM_inv (recurs_substitute m))).back w hw
    exact (hu x hx ▸ hw).unique (yields_substitute_mixed ha.canonical m)
  have hmem : ∀ y ∈ a.members, y = NativeKind.mixed.id := by
    intro y hy
    rw [ha.pure_eq] at hy
    rcases (UnionType.mem_foldl_union ws .empty).1 hy with hy | ⟨w, hw, hy⟩
    · cases hy
    · rw [hall w hw] at hy
      exact UnionType.mem_of.1 hy
  rw [UnionType.orMixed]
  split
  · rfl
  · next hne =>
    refine UnionType.eq_of_sameMembers_of fun y => ⟨fun hy => UnionType.mem_of.2 (hmem y hy), ?_⟩
    intro hy
    obtain rfl := UnionType.mem_of.1 hy
    obtain ⟨z, hz⟩ := List.exists_mem_of_ne_nil a.members fun hnil => hne (by
      rw [UnionType.isEmpty, hnil]; rfl)
    exact hmem z hz ▸ hz

/-- Parameters that take nothing take all values, before placeholders are replaced and after. -/
theorem tallies_bindMembers_orMixed {m m' : TemplateMap} {u v : UnionType}
    (huv : T.SameTypes T' u.orMixed v.orMixed)
    (hfg : ∀ i ∈ u.members, ∀ j ∈ v.members, T.Corresponds T' i j →
      Tallies T T' (T.SameTypes T') (substitute m i) (substitute m' j)) :
    Tallies T T' (fun a b => T.SameTypes T' a.orMixed b.orMixed)
      (u.bindMembers fun a _ => substitute m a) (v.bindMembers fun a _ => substitute m' a) := by
  by_cases hu : ∀ x ∈ u.members, x = NativeKind.mixed.id
  · have hv : ∀ y ∈ v.members, y = NativeKind.mixed.id := by
      intro y hy
      rw [UnionType.orMixed_of_members_ne_nil (List.ne_nil_of_mem hy)] at huv
      obtain ⟨x, hx, hxy⟩ := huv.back y hy
      have hxmixed : x = NativeKind.mixed.id := by
        rw [UnionType.orMixed] at hx
        split at hx
        · exact UnionType.mem_of.1 hx
        · exact hu x hx
      exact (h.eq_native_iff hxy .mixed).1 hxmixed
    refine ⟨u.recurs_bindMembers fun x _ => recurs_substitute m x,
      v.recurs_bindMembers fun x _ => recurs_substitute m' x, fun a b ha hb => ?_⟩
    rw [ha.orMixed_eq hu, hb.orMixed_eq hv]
    exact h.sameTypes_native .mixed
  · obtain ⟨x, hx, hxne⟩ : ∃ x ∈ u.members, x ≠ NativeKind.mixed.id := by simpa using hu
    rw [UnionType.orMixed_of_members_ne_nil (List.ne_nil_of_mem hx)] at huv
    have hvne : v.members ≠ [] := by
      obtain ⟨y, hy, hxy⟩ := huv.forth x hx
      rw [UnionType.orMixed] at hy
      split at hy
      · exact absurd ((h.eq_native_iff hxy .mixed).2 (UnionType.mem_of.1 hy)) hxne
      · exact List.ne_nil_of_mem hy
    rw [UnionType.orMixed_of_members_ne_nil hvne] at huv
    exact (UnionType.tallies_bindMembers huv (recurs_substitute m) (recurs_substitute m') hfg).imp
      fun _ _ => h.orMixed

theorem tallies_substitute {m m' : TemplateMap} (hm : T.SameMap T' m m') {i j : TypeId}
    (hij : T.Corresponds T' i j) :
    Tallies T T' (T.SameTypes T') (substitute m i) (substitute m' j) := by
  induction i using Nat.strong_induction_on generalizing j with
  | _ i ih =>
    have hleft := recurs_substitute m i
    have hright := recurs_substitute m' j
    rw [← (substituteLevel_eq fun _ _ => rfl : substituteLevel m (substitute m) _ = _)] at hleft ⊢
    rw [← (substituteLevel_eq fun _ _ => rfl : substituteLevel m' (substitute m') _ = _)] at hright ⊢
    refine .fetch_bind hij hleft hright
      fun ⟨kind, nullable⟩ ⟨kind', nullable'⟩ hty hty' ⟨hnull, hkind⟩ => ?_
    obtain rfl : nullable = nullable' := hnull
    have hparts : ∀ u v : UnionType, T.SameTypes T' u v → (∀ x ∈ u.members, x ∈ kind.embedded) →
        Tallies T T' (T.SameTypes T') (u.bindMembers fun a _ => substitute m a)
          (v.bindMembers fun a _ => substitute m' a) := fun u v huv hu =>
      UnionType.tallies_bindMembers huv (recurs_substitute m) (recurs_substitute m')
        fun x hx y _ hxy => ih x (TypeTable.embedded_lt_of_get? hty (hu x hx)) hxy
    cases kind with
    | template s =>
      cases kind' with
      | template s' =>
        obtain rfl : s = s' := hkind
        have hs := hm s
        dsimp only
        generalize m.get? s = u? at hs
        generalize m'.get? s = v? at hs
        cases hs with
        | none => exact .pure (.of hij)
        | some huv =>
          cases nullable with
          | true => exact UnionType.tallies_withNull h huv
          | false => exact .pure huv
      | _ => exact hkind.elim
    | array key element =>
      cases kind' with
      | array key' element' =>
        obtain ⟨rfl, helement⟩ := hkind
        have hlt := TypeTable.embedded_lt_of_get? hty (List.mem_singleton.2 rfl)
        refine (ih element hlt helement).bind
          ⟨fun _ => UnionType.recurs_mapMembers _ fun _ => recurs_array _ _ _,
            fun _ => UnionType.recurs_mapMembers _ fun _ => recurs_array _ _ _⟩ fun u v huv => ?_
        exact UnionType.tallies_mapMembers (h.orMixed huv) (fun _ => recurs_array _ _ _)
          (fun _ => recurs_array _ _ _) fun _ _ _ _ hxy => tallies_array h hxy key nullable
      | _ => exact hkind.elim
    | shape fs =>
      cases kind' with
      | shape gs =>
        have hshape := tallies_shape h hty hkind
          (f := fun a => a.2.type.bindMembers fun x _ => substitute m x)
          (g := fun b => b.2.type.bindMembers fun x _ => substitute m' x)
          (fun a => a.2.type.recurs_bindMembers fun x _ => recurs_substitute m x)
          (fun b => b.2.type.recurs_bindMembers fun x _ => recurs_substitute m' x)
          (fun a ha b _ hab => hparts _ _ hab.2.2 fun x hx => List.mem_flatMap.2 ⟨a, ha, hx⟩)
          nullable
        simpa only [map_bind, bind_pure_comp] using hshape.map fun _ _ => UnionType.Matches.of
      | _ => exact hkind.elim
    | object name args =>
      cases kind' with
      | object name' args' =>
        obtain ⟨hname, hargs⟩ := hkind
        dsimp only
        rw [(Matched.of_forall₂ hargs).isEmpty_eq]
        split
        · exact .pure (.of hij)
        · refine (Tallies.mapM_forall₂ (A := T.SameTypes T') hargs (fun a => ?_) (fun a => ?_)
            fun u hu v _ huv => ?_).bind (by grind) fun as bs hall => ?_
          · exact a.recurs_bindMembers fun x _ => recurs_substitute m x
          · exact a.recurs_bindMembers fun x _ => recurs_substitute m' x
          · exact hparts u v huv fun x hx => List.mem_flatMap.2 ⟨u, hu, hx⟩
          · exact (tallies_make h (sameRegular_of_get? h hty hty' hname) hall nullable).map
              fun _ _ => .of
      | _ => exact hkind.elim
    | callable sig =>
      cases kind' with
      | callable sig' =>
        obtain ⟨hclosure, hparams, hresult⟩ := hkind
        refine (Tallies.mapM_forall₂ (A := CallableParam.Matches (T.Corresponds T')) hparams
          (fun a => ?_) (fun a => ?_) fun a ha b hb hab => ?_).bind
          ⟨fun _ => ?_, fun _ => ?_⟩ fun as bs hall => ?_
        · exact (a.type.recurs_bindMembers fun x _ => recurs_substitute m x).bind fun _ => .pure _
        · exact (a.type.recurs_bindMembers fun x _ => recurs_substitute m' x).bind fun _ => .pure _
        · refine (tallies_bindMembers_orMixed h hab.1 fun x hx y _ hxy => ?_).bind (by grind)
            fun u v huv => .pure ⟨huv, hab.2⟩
          exact ih x (TypeTable.embedded_lt_of_get? hty (List.mem_append_left _
            (List.mem_flatMap.2 ⟨a, ha, hx⟩))) hxy
        · exact (sig.result.recurs_bindMembers fun x _ => recurs_substitute m x).bind fun _ =>
            (Recurs.intern _ _).bind fun _ => .pure _
        · exact (sig'.result.recurs_bindMembers fun x _ => recurs_substitute m' x).bind fun _ =>
            (Recurs.intern _ _).bind fun _ => .pure _
        · refine (hparts _ _ hresult fun x hx => List.mem_append_right _ hx).bind (by grind)
            fun u v huv => ?_
          exact (tallies_intern h (a := .callable ⟨_, as, u⟩) (b := .callable ⟨_, bs, v⟩) trivial
            trivial ⟨hclosure, hall, huv⟩ nullable).map fun _ _ => .of
      | _ => exact hkind.elim
    | _ => cases kind' <;> first | exact hkind.elim | exact .pure (.of hij)

/-! ### Putting a class in place of what stands for it -/

theorem tallies_resolveStatic {o o' : TypeId} (ho : T.Corresponds T' o o') {i j : TypeId}
    (hij : T.Corresponds T' i j) :
    Tallies T T' (T.Corresponds T') (resolveStatic o i) (resolveStatic o' j) := by
  induction i using Nat.strong_induction_on generalizing j with
  | _ i ih =>
    have hleft := recurs_resolveStatic o i
    have hright := recurs_resolveStatic o' j
    rw [← (resolveStaticLevel_eq fun _ _ => rfl :
      resolveStaticLevel o (resolveStatic o) _ = _)] at hleft ⊢
    rw [← (resolveStaticLevel_eq fun _ _ => rfl :
      resolveStaticLevel o' (resolveStatic o') _ = _)] at hright ⊢
    refine .fetch_bind hij hleft hright
      fun ⟨kind, nullable⟩ ⟨kind', nullable'⟩ hty hty' hmatch => ?_
    rw [Outward.isStaticLike.eq hmatch]
    obtain ⟨hnull, hkind⟩ := hmatch
    obtain rfl : nullable = nullable' := hnull
    split
    · exact tallies_withNull h ho nullable
    cases kind with
    | array key element =>
      cases kind' with
      | array key' element' =>
        obtain ⟨rfl, helement⟩ := hkind
        refine (ih element (TypeTable.embedded_lt_of_get? hty (List.mem_singleton.2 rfl))
          helement).bind (by grind) fun _ _ hxy => tallies_array h hxy key nullable
      | _ => exact hkind.elim
    | shape fs =>
      cases kind' with
      | shape gs =>
        have hshape := tallies_shape h hty hkind
          (f := fun a => a.2.type.mapMembers (resolveStatic o))
          (g := fun b => b.2.type.mapMembers (resolveStatic o'))
          (fun a => a.2.type.recurs_mapMembers (recurs_resolveStatic o))
          (fun b => b.2.type.recurs_mapMembers (recurs_resolveStatic o'))
          (fun a ha b _ hab => UnionType.tallies_mapMembers hab.2.2 (recurs_resolveStatic o)
            (recurs_resolveStatic o') fun x hx y _ hxy => ih x (TypeTable.embedded_lt_of_get? hty
              (List.mem_flatMap.2 ⟨a, ha, hx⟩)) hxy) nullable
        simpa only [UnionType.mapMembers, bind_assoc, pure_bind] using hshape
      | _ => exact hkind.elim
    | _ => cases kind' <;> first | exact hkind.elim | exact .pure hij

end TypeM

/-! ### The placeholders inside types -/

theorem TypeKind.Matches.forth {N : ClassName → ClassName → Prop} {R : TypeId → TypeId → Prop} :
    ∀ {a b : TypeKind}, a.Matches N R b → ∀ x ∈ a.embedded, ∃ y, b.IsPart y ∧ R x y
  | .native _, .native _, _, _, hx => nomatch hx
  | .object _ _, .object _ _, h, x, hx => by
    obtain ⟨u, hu, hx⟩ := List.mem_flatMap.1 hx
    obtain ⟨v, hv, huv⟩ := (Matched.of_forall₂ h.2).forth u hu
    obtain ⟨y, hy, hxy⟩ := huv.forth x hx
    exact ⟨y, .inl (List.mem_flatMap.2 ⟨v, hv, hy⟩), hxy⟩
  | .array _ _, .array _ e, h, x, hx => by
    obtain rfl := List.mem_singleton.1 hx
    exact ⟨e, .inl (List.mem_singleton.2 rfl), h.2⟩
  | .shape _, .shape _, h, x, hx => by
    obtain ⟨f, hf, hx⟩ := List.mem_flatMap.1 hx
    obtain ⟨g, hg, hfg⟩ := (Matched.of_forall₂ h).forth f hf
    obtain ⟨y, hy, hxy⟩ := hfg.2.2.forth x hx
    exact ⟨y, .inl (List.mem_flatMap.2 ⟨g, hg, hy⟩), hxy⟩
  | .intLiteral _, .intLiteral _, _, _, hx => nomatch hx
  | .stringLiteral _, .stringLiteral _, _, _, hx => nomatch hx
  | .callable _, .callable _, h, x, hx => by
    rcases List.mem_append.1 hx with hx | hx
    · obtain ⟨p, hp, hx⟩ := List.mem_flatMap.1 hx
      obtain ⟨q, hq, hpq⟩ := (Matched.of_forall₂ h.2.1).forth p hp
      rw [CallableParam.Matches, UnionType.orMixed_of_members_ne_nil (List.ne_nil_of_mem hx)] at hpq
      obtain ⟨y, hy, hxy⟩ := hpq.1.forth x hx
      exact ⟨y, TypeKind.isPart_orMixed hq hy, hxy⟩
    · obtain ⟨y, hy, hxy⟩ := h.2.2.forth x hx
      exact ⟨y, .inl (List.mem_append_right _ hy), hxy⟩
  | .template _, .template _, _, _, hx => nomatch hx

namespace TypeTable

variable {T T' t₀ : TypeTable} {r : Regime} (h : Siblings r t₀ T T')
include h

/-- Types that correspond have the same placeholders inside. -/
theorem Siblings.holds {p : String → Prop} {i j : TypeId} (hij : T.Corresponds T' i j)
    (hi : T.Holds p i) : T'.Holds p j := by
  induction hi generalizing j with
  | @intro i ty hty _ htemplate ih =>
    obtain ⟨a, b, ha, hb, hmatch⟩ := hij.types
    cases hty.symm.trans ha
    refine .intro hb (fun y hy => ?_) fun s hs => htemplate s ?_
    · obtain ⟨x, hx, hxy⟩ := (hmatch.2.flip fun _ _ => Eq.symm).forth y hy
      rcases hx with hx | rfl
      · exact ih x hx hxy
      · rw [(h.eq_native_iff hxy .mixed).1 rfl]
        exact .intro (h.canonical'.get?_native .mixed) nofun nofun
    · have hkind := hmatch.2
      rw [hs] at hkind
      cases hk : ty.kind with
      | template s' => 
        rw [hk] at hkind
        exact congrArg _ hkind
      | _ =>
        rw [hk] at hkind
        exact hkind.elim

theorem Siblings.templateNames {u v : UnionType} (huv : T.SameTypes T' u v) :
    ∃ a b, u.templateNames T = .ok a ∧ v.templateNames T' = .ok b ∧ ∀ s, s ∈ a ↔ s ∈ b := by
  obtain ⟨a, ha, hheld, hleast⟩ := UnionType.exists_templateNames huv.inside
  obtain ⟨b, hb, hheld', hleast'⟩ := UnionType.exists_templateNames huv.flip.inside
  refine ⟨a, b, ha, hb, fun s => ⟨hleast (· ∈ b) (fun i hi => ?_) s,
    hleast' (· ∈ a) (fun j hj => ?_) s⟩⟩
  · obtain ⟨j, hj, hij⟩ := huv.forth i hi
    exact h.flip.holds hij.flip (hheld' j hj)
  · obtain ⟨i, hi, hij⟩ := huv.back j hj
    exact h.holds hij (hheld i hi)

end TypeTable

namespace UnionType

variable {T T' t₀ : TypeTable} {r : Regime} (h : Siblings r t₀ T T') {u v : UnionType}
  (huv : T.SameTypes T' u v)
include h huv

theorem tallies_substitute {m m' : TemplateMap} (hm : T.SameMap T' m m') :
    Tallies T T' (T.SameTypes T') (u.substitute m) (v.substitute m') := by
  unfold substitute
  rw [TemplateMap.isEmpty_eq hm]
  split
  · exact .pure huv
  · exact tallies_bindMembers huv (TypeM.recurs_substitute m) (TypeM.recurs_substitute m')
      fun _ _ _ _ hij => TypeM.tallies_substitute h hm hij

theorem tallies_resolveStatic {x y : ClassName} (hxy : SameRegular x y) :
    Tallies T T' (T.SameTypes T') (u.resolveStatic x) (v.resolveStatic y) :=
  (tallies_classType h hxy).bind ⟨fun o => u.recurs_mapMembers (TypeM.recurs_resolveStatic o),
    fun o => v.recurs_mapMembers (TypeM.recurs_resolveStatic o)⟩ fun o o' ho =>
    tallies_mapMembers huv (TypeM.recurs_resolveStatic o) (TypeM.recurs_resolveStatic o')
      fun _ _ _ _ hij => TypeM.tallies_resolveStatic h ho hij

end UnionType

/-! ### Learning what placeholders stand for -/

/-- Where the work runs, it runs from every map and adds the same to each. -/
def Adds (f : TemplateMap → TypeM TemplateMap) : Prop :=
  ∀ (T : TypeTable) (m m₁ : TemplateMap), TypeM.Yields T (f m) m₁ →
    ∃ L : String → Option TypeId → Prop, ∀ m, ∃ m₁, TypeM.Yields T (f m) m₁ ∧
      ∀ s o, m₁.Says s o ↔ m.Says s o ∨ L s o

namespace Adds

theorem pure : Adds pure := fun _ _ _ h =>
  ⟨fun _ _ => False, fun m => ⟨m, .pure h.canonical m, fun _ _ => by simp⟩⟩

theorem add (s : String) (u : UnionType) : Adds fun m => Pure.pure (m.add s u) := fun _ _ _ h =>
  ⟨_, fun m => ⟨m.add s u, .pure h.canonical _, fun _ _ => TemplateMap.says_add⟩⟩

theorem after {α : Type} {p : TypeM α} {f : α → TemplateMap → TypeM TemplateMap} (hp : Recurs p)
    (hf : ∀ a m, Recurs (f a m)) (h : ∀ a, Adds (f a)) : Adds fun m => p >>= fun a => f a m := by
  intro T m m₁ hrun
  obtain ⟨a, ha, hrest⟩ := hrun.bind_inv hp fun a => hf a m
  obtain ⟨L, hL⟩ := h a T m m₁ hrest
  refine ⟨L, fun m => ?_⟩
  obtain ⟨m₁, hm₁, hsaid⟩ := hL m
  exact ⟨m₁, ha.bind hm₁, hsaid⟩

/-- What a type is made of stands before it. -/
theorem fetch {i : TypeId} {f : Ty → TemplateMap → TypeM TemplateMap}
    (h : ∀ ty : Ty, (∀ e ∈ ty.kind.embedded, e < i) → Adds (f ty)) :
    Adds fun m => TypeM.fetch i >>= fun ty => f ty m := by
  intro T m m₁ hrun
  obtain ⟨ty, hty, hrest⟩ := hrun.exists_fetch
  obtain ⟨L, hL⟩ := h ty (fun e => TypeTable.embedded_lt_of_get? hty) T m m₁ hrest
  refine ⟨L, fun m => ?_⟩
  obtain ⟨m₁, hm₁, hsaid⟩ := hL m
  exact ⟨m₁, (TypeM.Yields.fetch hrun.canonical hty).bind hm₁, hsaid⟩

theorem foldlM {α : Type} {f : TemplateMap → α → TypeM TemplateMap} {as : List α}
    (hr : ∀ m a, Recurs (f m a)) (h : ∀ a ∈ as, Adds (f · a)) : Adds fun m => as.foldlM f m := by
  induction as with
  | nil => exact pure
  | cons a as ih =>
    intro T m m₂ hrun
    simp only [List.foldlM_cons] at hrun ⊢
    obtain ⟨m₁, hfirst, hrest⟩ := hrun.bind_inv (hr m a) fun m => .foldlM hr as m
    obtain ⟨L, hL⟩ := h a List.mem_cons_self T m m₁ hfirst
    obtain ⟨K, hK⟩ := ih (fun b hb => h b (List.mem_cons_of_mem _ hb)) T m₁ m₂ hrest
    refine ⟨fun s o => L s o ∨ K s o, fun m => ?_⟩
    obtain ⟨m₁, hm₁, hsaid⟩ := hL m
    obtain ⟨m₂, hm₂, hsaid'⟩ := hK m₁
    exact ⟨m₂, hm₁.bind hm₂, fun s o => by rw [hsaid', hsaid, or_assoc]⟩

/-- What a loop has learned in the end was known before, or a round of it adds it to nothing. -/
theorem says_foldlM {α : Type} {f : TemplateMap → α → TypeM TemplateMap} {as : List α}
    (hr : ∀ m a, Recurs (f m a)) (h : ∀ a ∈ as, Adds (f · a)) {T : TypeTable} {m m₁ : TemplateMap}
    (hrun : TypeM.Yields T (as.foldlM f m) m₁) : (∀ a ∈ as, ∃ x, TypeM.Yields T (f [] a) x) ∧
      ∀ s o, m₁.Says s o ↔ m.Says s o ∨ ∃ a ∈ as, ∃ x, TypeM.Yields T (f [] a) x ∧ x.Says s o := by
  induction as generalizing m with
  | nil =>
    rw [List.foldlM_nil] at hrun
    rw [hrun.pure_eq]
    exact ⟨nofun, by simp⟩
  | cons a as ih =>
    rw [List.foldlM_cons] at hrun
    obtain ⟨m', hfirst, hrest⟩ := hrun.bind_inv (hr m a) fun m => .foldlM hr as m
    obtain ⟨hall, hsaid⟩ := ih (fun b hb => h b (List.mem_cons_of_mem _ hb)) hrest
    obtain ⟨L, hL⟩ := h a List.mem_cons_self T m m' hfirst
    obtain ⟨x, hx, hxsaid⟩ := hL []
    have honly : ∀ y, TypeM.Yields T (f [] a) y → y = x := fun y hy => hy.unique hx
    have hstep : ∀ s o, m'.Says s o ↔ m.Says s o ∨ x.Says s o := by
      intro s o
      obtain ⟨y, hy, hysaid⟩ := hL m
      rw [hfirst.unique hy, hysaid, hxsaid]
      simp [TemplateMap.not_says_nil]
    refine ⟨List.forall_mem_cons.2 ⟨⟨x, hx⟩, hall⟩, fun s o => ?_⟩
    rw [hsaid, hstep, or_assoc, List.exists_mem_cons_iff]
    refine or_congr_right (or_congr_left ⟨fun hs => ⟨x, hx, hs⟩, ?_⟩)
    rintro ⟨y, hy, hs⟩
    exact honly y hy ▸ hs

end Adds

/-- Loops through the elements of lists that match have learned the same, in whatever order the
elements come, if rounds that start with nothing have. -/
theorem TypeM.tallies_foldlM_adds {α β : Type} {T T' : TypeTable} {R : α → β → Prop} {as : List α}
    {bs : List β} (h : Matched R as bs) {f : TemplateMap → α → TypeM TemplateMap}
    {g : TemplateMap → β → TypeM TemplateMap} (hf : ∀ m a, Recurs (f m a))
    (hg : ∀ m b, Recurs (g m b)) (haddsf : ∀ a ∈ as, Adds (f · a)) (haddsg : ∀ b ∈ bs, Adds (g · b))
    (hfg : ∀ a ∈ as, ∀ b ∈ bs, R a b → Tallies T T' (T.SameMap T') (f [] a) (g [] b))
    {m m' : TemplateMap} (hm : T.SameMap T' m m') :
    Tallies T T' (T.SameMap T') (as.foldlM f m) (bs.foldlM g m') where
  left := .foldlM hf as m
  right := .foldlM hg bs m'
  tally m₁ m₁' hrun hrun' := by
    obtain ⟨hall, hsaid⟩ := Adds.says_foldlM hf haddsf hrun
    obtain ⟨hall', hsaid'⟩ := Adds.says_foldlM hg haddsg hrun'
    refine TemplateMap.sameMap_iff.2 fun s => ⟨fun o ho => ?_, fun o ho => ?_⟩
    · rcases (hsaid s o).1 ho with ho | ⟨a, ha, x, hx, ho⟩
      · obtain ⟨o', ho', hrel⟩ := (TemplateMap.sameMap_iff.1 hm s).1 o ho
        exact ⟨o', (hsaid' s o').2 (.inl ho'), hrel⟩
      · obtain ⟨b, hb, hab⟩ := h.forth a ha
        obtain ⟨y, hy⟩ := hall' b hb
        obtain ⟨o', ho', hrel⟩ :=
          (TemplateMap.sameMap_iff.1 ((hfg a ha b hb hab).tally x y hx hy) s).1 o ho
        exact ⟨o', (hsaid' s o').2 (.inr ⟨b, hb, y, hy, ho'⟩), hrel⟩
    · rcases (hsaid' s o).1 ho with ho | ⟨b, hb, y, hy, ho⟩
      · obtain ⟨o', ho', hrel⟩ := (TemplateMap.sameMap_iff.1 hm s).2 o ho
        exact ⟨o', (hsaid s o').2 (.inl ho'), hrel⟩
      · obtain ⟨a, ha, hab⟩ := h.back b hb
        obtain ⟨x, hx⟩ := hall a ha
        obtain ⟨o', ho', hrel⟩ :=
          (TemplateMap.sameMap_iff.1 ((hfg a ha b hb hab).tally x y hx hy) s).2 o ho
        exact ⟨o', (hsaid s o').2 (.inr ⟨a, ha, x, hx, ho'⟩), hrel⟩

namespace TypeM

open UnionType (of)

theorem bindType_eq (actual : UnionType) (m : TemplateMap) (d : TypeId) : bindType actual m d =
    UnionType.bindLevel (fun q => q.1.bindTemplates q.2.1 q.2.2) (of d, actual, m) := by
  rw [UnionType.bindLevel_eq fun _ _ => rfl, UnionType.bindTemplates_of]

/-- What one type of an argument tells of a class with the given arguments. -/
def learnObject (name : ClassName) (params : List UnionType) (m : TemplateMap) :
    Ty → TypeM TemplateMap
  | ⟨.object other args, _⟩ =>
    if other.sameClass name then (params.zip args).foldlM (fun m q => q.1.bindTemplates q.2 m) m
    else pure m
  | _ => pure m

theorem learnObject_eq (name : ClassName) (params : List UnionType) (m : TemplateMap) (ty : Ty) :
    (match ty.kind with
      | .object other args =>
        if other.sameClass name then
          (params.zip args).foldlM (fun m q => q.1.bindTemplates q.2 m) m
        else pure m
      | _ => pure m) = learnObject name params m ty := by
  obtain ⟨kind, nullable⟩ := ty
  cases kind <;> rfl

theorem recurs_learnObject (name : ClassName) (params : List UnionType) (m : TemplateMap) :
    ∀ ty, Recurs (learnObject name params m ty)
  | ⟨.object other args, _⟩ => by
    rw [learnObject]
    split
    · exact .foldlM (fun m q => UnionType.recurs_bindTemplates _ _ _) _ _
    · exact .pure m
  | ⟨.native _, _⟩ | ⟨.array .., _⟩ | ⟨.shape _, _⟩ | ⟨.intLiteral _, _⟩ | ⟨.stringLiteral _, _⟩
  | ⟨.callable _, _⟩ | ⟨.template _, _⟩ => .pure m

theorem adds_learnObject {name : ClassName} {params : List UnionType}
    (h : ∀ u ∈ params, ∀ v, Adds fun m => u.bindTemplates v m) :
    ∀ ty, Adds fun m => learnObject name params m ty
  | ⟨.object other args, _⟩ => by
    simp only [learnObject]
    split
    · exact .foldlM (fun m q => UnionType.recurs_bindTemplates _ _ _) fun q hq =>
        h q.1 (List.of_mem_zip hq).1 q.2
    · exact .pure
  | ⟨.native _, _⟩ | ⟨.array .., _⟩ | ⟨.shape _, _⟩ | ⟨.intLiteral _, _⟩ | ⟨.stringLiteral _, _⟩
  | ⟨.callable _, _⟩ | ⟨.template _, _⟩ => .pure

theorem adds_bindType (actual : UnionType) (d : TypeId) : Adds fun m => bindType actual m d := by
  induction d using Nat.strong_induction_on generalizing actual with
  | _ d ih =>
    simp only [bindType_eq, UnionType.bindLevel, UnionType.members_of, List.foldlM_cons,
      List.foldlM_nil, bind_pure]
    split
    · exact .pure
    refine .fetch ?_
    rintro ⟨kind, nullable⟩ hbelow
    have hpart : ∀ u v : UnionType, (∀ e ∈ u.members, e ∈ kind.embedded) →
        Adds fun m => u.bindTemplates v m := fun u v hu =>
      .foldlM (fun m e => recurs_bindType v m e) fun e he => ih e (hbelow e (hu e he)) v
    cases kind with
    | template s =>
      exact .after actual.recurs_widenLiterals (fun v m => v.recurs_withoutNull.bind fun _ => .pure _)
        fun v => .after v.recurs_withoutNull (fun _ _ => .pure _) fun u => .add s u
    | array key element =>
      refine .after (.query actual.elementTypes) (fun v m => v.recurs_widenLiterals.bind fun w =>
        UnionType.recurs_bindTemplates _ _ _) fun v => .after v.recurs_widenLiterals
          (fun w m => UnionType.recurs_bindTemplates _ _ _) fun w => hpart _ w fun e he => ?_
      rwa [UnionType.members_of] at he
    | object name params =>
      dsimp only
      split
      · exact .pure
      refine (congrArg Adds (funext fun m => foldlM_congr
        (g := fun m c => fetch c >>= learnObject name params m)
        (fun c _ m => bind_congr (learnObject_eq name params m)) m)).mpr ?_
      refine .foldlM (fun m c => (recurs_fetch c).bind (recurs_learnObject name params m))
          fun c _ =>
        .fetch fun ty _ => adds_learnObject (fun u hu v => hpart u v fun e he => ?_) ty
      exact List.mem_flatMap.2 ⟨u, hu, he⟩
    | _ => exact .pure

theorem adds_bindTemplates (u v : UnionType) : Adds fun m => u.bindTemplates v m :=
  .foldlM (fun m e => recurs_bindType v m e) fun e _ => adds_bindType v e

theorem forall₂_zip_zip {α β γ δ : Type} {R : α → β → Prop} {S : γ → δ → Prop} {as : List α}
    {bs : List β} {cs : List γ} {ds : List δ} (h : List.Forall₂ R as bs)
    (h' : List.Forall₂ S cs ds) :
    List.Forall₂ (fun p q => R p.1 q.1 ∧ S p.2 q.2) (as.zip cs) (bs.zip ds) := by
  induction h generalizing cs ds with
  | nil => exact .nil
  | cons hab _ ih =>
    cases h' with
    | nil => exact .nil
    | cons hcd hrest => exact .cons ⟨hab, hcd⟩ (ih hrest)

theorem tallies_learnObject {T T' : TypeTable} {name name' : ClassName}
    {params params' : List UnionType}
    (hname : name.fold = name'.fold) (hparams : List.Forall₂ (T.SameTypes T') params params')
    (h : ∀ a ∈ params, ∀ b a' b', T.SameTypes T' a b → T.SameTypes T' a' b' →
      Tallies T T' (T.SameMap T') (a.bindTemplates a' []) (b.bindTemplates b' [])) :
    ∀ {ty ty' : Ty}, ty.Matches (T.Corresponds T') ty' →
      Tallies T T' (T.SameMap T') (learnObject name params [] ty) (learnObject name' params' [] ty')
  | ⟨kind, _⟩, ⟨kind', _⟩, ⟨_, hkind⟩ => by
    cases kind with
    | object other args =>
      cases kind' with
      | object other' args' =>
        obtain ⟨hother, hargs⟩ := hkind
        have hsame : other.sameClass name = other'.sameClass name' := by
          rw [QualifiedName.sameClass, QualifiedName.sameClass, hname, hother]
        rw [learnObject, learnObject, hsame]
        split
        · refine tallies_foldlM_adds (.of_forall₂ (forall₂_zip_zip hparams hargs))
            (fun m q => UnionType.recurs_bindTemplates _ _ _)
            (fun m q => UnionType.recurs_bindTemplates _ _ _)
            (fun q _ => adds_bindTemplates q.1 q.2) (fun q _ => adds_bindTemplates q.1 q.2)
            (fun p hp q _ hpq => ?_) TemplateMap.sameMap_nil
          exact h p.1 (List.of_mem_zip hp).1 q.1 p.2 q.2 hpq.1 hpq.2
        · exact .pure TemplateMap.sameMap_nil
      | _ => exact hkind.elim
    | _ => cases kind' <;> first | exact hkind.elim | exact .pure TemplateMap.sameMap_nil

/-- Unions that have the same types teach the same to nothing. -/
theorem tallies_bindType {T T' t₀ : TypeTable} {r : Regime} (h : Siblings r t₀ T T')
    {u v : UnionType} (huv : T.SameTypes T' u v) {d d' : TypeId} (hd : T.Corresponds T' d d') :
    Tallies T T' (T.SameMap T') (bindType u [] d) (bindType v [] d') := by
  induction d using Nat.strong_induction_on generalizing u v d' with
  | _ d ih =>
    have hleft := recurs_bindType u [] d
    have hright := recurs_bindType v [] d'
    simp only [bindType_eq, UnionType.bindLevel, UnionType.members_of, List.foldlM_cons,
      List.foldlM_nil, bind_pure] at hleft hright ⊢
    rw [UnionType.Matches.isEmpty_eq huv] at hleft ⊢
    split
    · exact .pure TemplateMap.sameMap_nil
    next hne =>
    rw [if_neg hne] at hleft hright
    refine .fetch_bind hd hleft hright ?_
    rintro ⟨kind, nullable⟩ ⟨kind', nullable'⟩ hty - ⟨-, hkind⟩
    have hpart : ∀ a b a' b' : UnionType, T.SameTypes T' a b → T.SameTypes T' a' b' →
        (∀ e ∈ a.members, e ∈ kind.embedded) →
        Tallies T T' (T.SameMap T') (a.bindTemplates a' []) (b.bindTemplates b' []) :=
      fun a b a' b' hab hab' ha =>
        tallies_foldlM_adds hab (recurs_bindType a') (recurs_bindType b')
          (fun _ _ => adds_bindType a' _) (fun _ _ => adds_bindType b' _)
          (fun e he e' _ hee => ih e (TypeTable.embedded_lt_of_get? hty (ha e he)) hab' hee)
          TemplateMap.sameMap_nil
    cases kind with
    | template s =>
      cases kind' with
      | template s' =>
        obtain rfl : s = s' := hkind
        refine (UnionType.tallies_widenLiterals h huv).bind (by grind) fun a b hab => ?_
        refine (UnionType.tallies_withoutNull h hab).bind (by grind) fun a b hab => ?_
        exact .pure (TemplateMap.sameMap_add TemplateMap.sameMap_nil hab s)
      | _ => exact hkind.elim
    | array key element =>
      cases kind' with
      | array key' element' =>
        refine (Tallies.query (h.elementTypes huv)).bind (by grind) fun a b hab => ?_
        refine (UnionType.tallies_widenLiterals h hab).bind (by grind) fun a b hab => ?_
        refine hpart _ _ a b (.of hkind.2) hab fun e he => ?_
        rwa [UnionType.members_of] at he
      | _ => exact hkind.elim
    | object name params =>
      cases kind' with
      | object name' params' =>
        obtain ⟨hname, hparams⟩ := hkind
        dsimp only
        rw [(Matched.of_forall₂ hparams).isEmpty_eq]
        split
        · exact .pure TemplateMap.sameMap_nil
        rw [foldlM_congr (g := fun m c => fetch c >>= learnObject name params m)
            (fun c (_ : c ∈ u.members) m => bind_congr (by exact learnObject_eq name params m)),
          foldlM_congr (g := fun m c => fetch c >>= learnObject name' params' m)
            (fun c (_ : c ∈ v.members) m => bind_congr (by exact learnObject_eq name' params' m))]
        refine tallies_foldlM_adds huv
          (fun m c => (recurs_fetch c).bind (recurs_learnObject name params m))
          (fun m c => (recurs_fetch c).bind (recurs_learnObject name' params' m))
          (fun c _ => .fetch fun ty _ => adds_learnObject (fun u _ v => adds_bindTemplates u v) ty)
          (fun c _ => .fetch fun ty _ => adds_learnObject (fun u _ v => adds_bindTemplates u v) ty)
          (fun c _ c' _ hc => .fetch_bind hc ((recurs_fetch c).bind (recurs_learnObject _ _ _))
            ((recurs_fetch c').bind (recurs_learnObject _ _ _)) fun ty ty' _ _ hmatch => ?_)
          TemplateMap.sameMap_nil
        exact tallies_learnObject hname hparams (fun a ha b a' b' hab hab' => hpart a b a' b' hab hab'
          fun e he => List.mem_flatMap.2 ⟨a, ha, he⟩) hmatch
      | _ => exact hkind.elim
    | _ => cases kind' <;> first | exact hkind.elim | exact .pure TemplateMap.sameMap_nil

end TypeM

theorem UnionType.tallies_bindTemplates {T T' t₀ : TypeTable} {r : Regime}
    (h : Siblings r t₀ T T') {u v u' v' : UnionType} (huv : T.SameTypes T' u v)
    (huv' : T.SameTypes T' u' v') {m m' : TemplateMap} (hm : T.SameMap T' m m') :
    Tallies T T' (T.SameMap T') (u.bindTemplates u' m) (v.bindTemplates v' m') :=
  tallies_foldlM_adds huv (TypeM.recurs_bindType u') (TypeM.recurs_bindType v')
    (fun _ _ => adds_bindType u' _) (fun _ _ => adds_bindType v' _)
    (fun _ _ _ _ hd => tallies_bindType h huv' hd) hm

end UnionInference
