import UnionInference.Proofs.CodeBase.Closure
import UnionInference.Proofs.CodeBase.LookUps
import UnionInference.Proofs.CodeBase.Persistence
import UnionInference.Proofs.CodeBase.Sound
import UnionInference.Proofs.Types.Tallying

/-!
Classes in code bases that come from one and are used with two tables. Which classes were filled, and
in what order, shows in a member that is looked up only in how the name of the class is spelled. What
a type expands to corresponds in both tables to what the type that corresponds to it expands to, so
both have the same classes among their ancestors.
-/

namespace UnionInference

namespace CodeBase

open ClassMember MemberSort

variable {b₀ b b' : CodeBase} {c d : ClassName}

/-! ### Code bases that are filled from one -/

theorem FillsTo.endures (h : b₀.FillsTo b) (hb : b₀.Orderly) : b₀.Endures b :=
  h.induction (fun _ c hb' => hb'.trans ((hb'.orderly hb).endures_filled c)) (.refl hb)

theorem FillsTo.sound {r : Regime} {t : TypeTable} (h : b₀.FillsTo b) (hb : b₀.Sound r t) :
    b.Sound r t := by
  refine h.induction (fun b c hb => ?_) hb
  unfold filled
  split
  · exact (hb.hydrate c).1
  · exact hb

theorem FillsTo.eq_of_not_lazily (h : b₀.FillsTo b) (hlazily : b₀.hydrateLazily = false) :
    b = b₀ := by
  refine h.induction (P := fun b => b = b₀) ?_ rfl
  rintro b c rfl
  rw [filled, hlazily, if_neg Bool.false_ne_true]

section

variable {μ : Type} [ClassMember μ] [MemberSort μ] (h : b₀.Acyclic) (hb : b₀.Orderly)
  (hv : (members b₀ : MemberTables μ).Valid)
include h hb hv

theorem FillsTo.inStep (hf : b₀.FillsTo b) : ∃ asked, InStep μ h asked b := by
  refine hf.induction (P := fun b => ∃ asked, InStep μ h asked b) ?_
    ⟨_, hb.selfContained.inStep h hv⟩
  rintro b c ⟨asked, hi⟩
  unfold filled
  split
  · exact ⟨_, (hi.hydrate hb.tabled.classes c).1⟩
  · exact ⟨asked, hi⟩

/-- Whichever classes were filled before, a class has the same member. -/
theorem FillsTo.alike (hf : b₀.FillsTo b) (hf' : b₀.FillsTo b') (hc : c.fold = d.fold) (n : String) :
    Option.Rel Alike ((members (prepare c b).2 : MemberTables μ).get? c n)
      ((members (prepare d b').2).get? d n) := by
  have hendures := hf.endures hb
  have hendures' := hf'.endures hb
  cases hlazily : b₀.hydrateLazily with
  | true =>
    obtain ⟨_, hi⟩ := hf.inStep h hb hv
    obtain ⟨_, hi'⟩ := hf'.inStep h hb hv
    exact hi.answer hi' hb.tabled.classes (hendures.supplements.hydrateLazily.trans hlazily)
      (hendures'.supplements.hydrateLazily.trans hlazily) hc n
  | false =>
    obtain rfl := hf.eq_of_not_lazily hlazily
    obtain rfl := hf'.eq_of_not_lazily hlazily
    have hsame : ∀ c, (prepare c b').2 = b' := fun c => by
      rw [hb.prepare_eq_filled, filled, hlazily, if_neg Bool.false_ne_true]
    rw [hsame, hsame, MemberTables.get?, MemberTables.get?, MemberTables.table_congr _ hc]
    generalize ((members b' : MemberTables μ).table d).get? (key μ n) = found
    cases found with
    | none => exact .none
    | some m => exact .some (Alike.refl m)

end

end CodeBase

/-! ### Ancestors -/

namespace TypeTable

/-- The classes of types that match are one, if they have any. -/
theorem className?_rel {R : TypeId → TypeId → Prop} {ty ty' : Ty} (h : ty.Matches R ty') :
    Option.Rel (fun p q : ClassName => p.fold = q.fold) ty.className? ty'.className? := by
  obtain ⟨kind, nullable⟩ := ty
  obtain ⟨kind', nullable'⟩ := ty'
  obtain ⟨-, hkind⟩ := h
  cases kind with
  | object p args =>
    cases kind' with
    | object q args' => exact .some hkind.1
    | _ => exact hkind.elim
  | callable sig =>
    cases kind' with
    | callable sig' =>
      show Option.Rel _ (if sig.isClosure then some _ else none)
        (if sig'.isClosure then some _ else none)
      rw [hkind.1]
      split
      · exact .some rfl
      · exact .none
    | _ => exact hkind.elim
  | _ => cases kind' <;> first | exact hkind.elim | exact .none

variable {T T' t₀ : TypeTable} {r : Regime} {i j : TypeId}

theorem isArrayOfClass_eq_of_corresponds (hij : T.Corresponds T' i j) {nested nested' : Bool}
    (h : T.isArrayOfClass i = .ok nested) (h' : T'.isArrayOfClass j = .ok nested') :
    nested = nested' := by
  induction i using Nat.strong_induction_on generalizing j with
  | _ i ih =>
    obtain ⟨ty, ty', hty, hty', hmatch⟩ := hij.types
    obtain ⟨e, he, rfl⟩ := Option.map_eq_some_iff.1 hty
    obtain ⟨e', he', rfl⟩ := Option.map_eq_some_iff.1 hty'
    rw [isArrayOfClass_eq he] at h
    rw [isArrayOfClass_eq he'] at h'
    have hkind := hmatch.2
    cases hk : e.type.kind with
    | array key element =>
      cases hk' : e'.type.kind with
      | array key' element' =>
        rw [hk, hk'] at hkind
        rw [hk] at h
        rw [hk'] at h'
        obtain ⟨a, a', ha, ha', helement⟩ := hkind.2.types
        have hclass := className?_rel helement
        have hlt : element < i :=
          embedded_lt_of_get? hty (by rw [hk]; exact List.mem_singleton.2 rfl)
        dsimp only at h h'
        rw [fetch_of_get? ha] at h
        rw [fetch_of_get? ha'] at h'
        change (if a.className?.isSome then pure true else T.isArrayOfClass element :
          Checked Bool) = _ at h
        change (if a'.className?.isSome then pure true else T'.isArrayOfClass element' :
          Checked Bool) = _ at h'
        generalize a.className? = p? at hclass h
        generalize a'.className? = q? at hclass h'
        cases hclass with
        | some _ =>
          cases h
          cases h'
          rfl
        | none => exact ih element hlt hkind.2 h h'
      | _ =>
        rw [hk, hk'] at hkind
        exact hkind.elim
    | _ =>
      cases hk' : e'.type.kind <;> rw [hk, hk'] at hkind <;> first
        | exact hkind.elim
        | (rw [hk] at h
           rw [hk'] at h'
           cases h
           cases h'
           rfl)

end TypeTable

namespace ExpandM

open TypeTable (Siblings)

variable {T T' t₀ : TypeTable} {r : Regime} (h : Siblings r t₀ T T') {n : Nat} {i j : TypeId}
  {u v : UnionType} {nullable : Bool}
include h

theorem corresponds_of_marked {m m₁ l l₁ : TypeId} (hm : Marked T nullable m m₁)
    (hl : Marked T' nullable l l₁) (hml : T.Corresponds T' m l) : T.Corresponds T' m₁ l₁ := by
  unfold Marked at hm hl
  cases nullable with
  | true =>
    have hc := h.canonical
    have hc' := h.canonical'
    exact (TypeM.tallies_withNull h hml true).tally _ _
      ((TypeM.recurs_withNull m true).yields hc hc rfl hm rfl)
      ((TypeM.recurs_withNull l true).yields hc' hc' rfl hl rfl)
  | false =>
    rw [if_neg Bool.false_ne_true] at hm hl
    rwa [hm, hl]

omit h in
theorem isOf_eq {ty ty' : Ty} (hmatch : ty.Matches (T.Corresponds T') ty') {name name' : ClassName}
    (hname : name.fold = name'.fold) : ty.isOf name = ty'.isOf name' := by
  have hclass := TypeTable.className?_rel hmatch
  unfold Ty.isOf
  generalize ty.className? = p? at hclass
  generalize ty'.className? = q? at hclass
  cases hclass with
  | some hpq => rw [Option.any_some, Option.any_some, QualifiedName.sameClass,
      QualifiedName.sameClass, hname, hpq]
  | none => rfl

variable {b b' : CodeBase} (hb : b.Loadable) (hb' : b'.Loadable)
  (hsame : b'.declared? = b.declared?)
  (hdeclared : ∀ name declared, b.declared? name = some declared →
    ∀ m ∈ declared.members, m < t₀.size)

/-- What a declared type adds corresponds to what it adds to the type that corresponds. -/
theorem sameTypes_adds {name name' : ClassName} (hname : name.fold = name'.fold)
    (hij : T.Corresponds T' i j) (ih : ∀ m l u v, T.Corresponds T' m l →
      Settles T b (expandWithin n m) u → Settles T' b' (expandWithin n l) v → T.SameTypes T' u v)
    {m : TypeId} (hm : T.Corresponds T' m m) (hu : Adds T b n i name nullable m u)
    (hv : Adds T' b' n j name' nullable m v) : T.SameTypes T' u v := by
  cases hu with
  | start hmarked =>
    cases hv with
    | start => exact .empty
    | same hmarked' hne | other hmarked' hne =>
      exact absurd (h.right_unique (corresponds_of_marked h hmarked hmarked' hm) hij) hne
  | same hmarked hne hty hof =>
    cases hv with
    | start hmarked' =>
      exact absurd (h.left_unique (corresponds_of_marked h hmarked hmarked' hm) hij) hne
    | same hmarked' => exact .of (corresponds_of_marked h hmarked hmarked' hm)
    | other hmarked' _ hty' hof' =>
      have hmatch := (corresponds_of_marked h hmarked hmarked' hm).matches_of_get? hty hty'
      rw [isOf_eq hmatch hname, hof'] at hof
      cases hof
  | other hmarked hne hty hof hsettles =>
    cases hv with
    | start hmarked' =>
      exact absurd (h.left_unique (corresponds_of_marked h hmarked hmarked' hm) hij) hne
    | same hmarked' _ hty' hof' =>
      have hmatch := (corresponds_of_marked h hmarked hmarked' hm).matches_of_get? hty hty'
      rw [isOf_eq hmatch hname, hof'] at hof
      cases hof
    | other hmarked' _ _ _ hsettles' =>
      exact ih _ _ _ _ (corresponds_of_marked h hmarked hmarked' hm) hsettles hsettles'

omit h in
theorem holds_eq (hij : T.Corresponds T' i j) {holds holds' : Bool}
    (hholds : HoldsObjects T i holds) (hholds' : HoldsObjects T' j holds') : holds = holds' := by
  obtain ⟨ty, nested, hty, hnested, rfl⟩ := hholds
  obtain ⟨ty', nested', hty', hnested', rfl⟩ := hholds'
  have hclass := TypeTable.className?_rel (hij.matches_of_get? hty hty')
  rw [TypeTable.isArrayOfClass_eq_of_corresponds hij hnested hnested']
  generalize ty.className? = p? at hclass
  generalize ty'.className? = q? at hclass
  cases hclass <;> rfl

include hb hb' hsame hdeclared in
/-- Types that correspond expand to types that correspond. -/
theorem sameTypes_expandWithin (hij : T.Corresponds T' i j)
    (hu : Settles T b (expandWithin n i) u) (hv : Settles T' b' (expandWithin n j) v) :
    T.SameTypes T' u v := by
  have hc := h.canonical
  have hc' := h.canonical'
  induction n generalizing i j u v with
  | zero => exact absurd hu (not_settles_zero hb)
  | succ n ih =>
    obtain ⟨⟨kind, nullable⟩, ⟨kind', nullable'⟩, hty, hty', hnull, hkind⟩ := hij.types
    obtain rfl : nullable = nullable' := hnull
    cases kind with
    | object name args =>
      cases kind' with
      | object name' args' =>
        have heq : b'.declared? name' = b.declared? name := by
          rw [hsame, b.declared?_congr hkind.1]
        rw [settles_object_iff hc hb hty] at hu
        rw [settles_object_iff hc' hb' hty', heq] at hv
        rcases hu with ⟨hnone, rfl⟩ | ⟨declared, us, hsome, hus, rfl⟩
        · rcases hv with ⟨-, rfl⟩ | ⟨declared, vs, hsome, -⟩
          · exact .of hij
          · rw [hnone] at hsome
            cases hsome
        · rcases hv with ⟨hnone, -⟩ | ⟨declared', vs, hsome', hvs, rfl⟩
          · rw [hnone] at hsome
            cases hsome
          · cases hsome.symm.trans hsome'
            refine .foldl_union ?_ (.of hij)
            have hself : Matched (fun m l => m = l) declared.members declared.members :=
              ⟨fun m hm => ⟨m, hm, rfl⟩, fun m hm => ⟨m, hm, rfl⟩⟩
            refine hself.rows hus hvs ?_
            rintro m hm _ - rfl u v hadds hadds'
            exact sameTypes_adds h hkind.1 hij (fun m l u v hml => ih hml)
              (h.self (hdeclared name declared hsome m hm)) hadds hadds'
      | _ => exact hkind.elim
    | array key element =>
      cases kind' with
      | array key' element' =>
        obtain ⟨rfl, helement⟩ := hkind
        rw [settles_array_iff hc hb hty] at hu
        rw [settles_array_iff hc' hb' hty'] at hv
        obtain ⟨holds, hholds, hu⟩ := hu
        obtain ⟨holds', hholds', hv⟩ := hv
        obtain rfl := holds_eq helement hholds hholds'
        rcases hu with ⟨rfl, rfl⟩ | ⟨rfl, a, is, ha, his, rfl⟩
        · rcases hv with ⟨-, rfl⟩ | ⟨⟨⟩, -⟩
          exact .of hij
        · rcases hv with ⟨⟨⟩, -⟩ | ⟨-, a', js, ha', hjs, rfl⟩
          refine .ofList ((ih helement ha ha').rows his hjs fun e _ e' _ hee x y hx hy => ?_)
          exact (TypeM.tallies_array h hee key nullable).tally _ _
            ((TypeM.recurs_array key e nullable).yields hc hc rfl hx rfl)
            ((TypeM.recurs_array key e' nullable).yields hc' hc' rfl hy rfl)
      | _ => exact hkind.elim
    | _ =>
      cases kind' <;> first
        | exact hkind.elim
        | (rw [settles_other_iff hb hty nofun nofun] at hu
           rw [settles_other_iff hb' hty' nofun nofun] at hv
           rw [hu, hv]
           exact .of hij)

omit h in
theorem settles_reachesClass_iff (ht : T.Canonical) (hb : b.Loadable) {owner : ClassName}
    {found : Bool} (hfound : Settles T b (reachesClass i owner) found) :
    ∃ u, Settles T b (expandWithin maxExpansionDepth i) u ∧
      ((∀ k ∈ u.members, k < T.size) → (found = true ↔
        ∃ k ∈ u.members, ∃ d, T.classOf? k = some d ∧ d.fold = owner.fold)) := by
  obtain ⟨u, hu, hsome⟩ := (settles_bind_iff ht hb (steady_expandWithin maxExpansionDepth i)
    fun _ _ => steady_someOfClass _ owner).1 hfound
  refine ⟨u, hu, fun hlt => ?_⟩
  obtain ⟨x, hrun, hx⟩ := someOfClass_apply
    (by simpa using hlt : ∀ i ∈ (UnionType.empty.union u).members, _) b owner
  obtain ⟨b₁, hrun'⟩ := hsome b hb rfl
  cases hrun.symm.trans hrun'
  simpa using hx

include hb hb' hsame hdeclared in
/-- Types that correspond have the same classes among their ancestors. -/
theorem reachesClass_eq (hij : T.Corresponds T' i j) {owner owner' : ClassName}
    (howner : owner.fold = owner'.fold) {found found' : Bool}
    (hfound : Settles T b (reachesClass i owner) found)
    (hfound' : Settles T' b' (reachesClass j owner') found') : found = found' := by
  obtain ⟨u, hu, hiff⟩ := settles_reachesClass_iff h.canonical hb hfound
  obtain ⟨v, hv, hiff'⟩ := settles_reachesClass_iff h.canonical' hb' hfound'
  have huv := sameTypes_expandWithin h hb hb' hsame hdeclared hij hu hv
  rw [Bool.eq_iff_iff, hiff huv.lt_size, hiff' huv.flip.lt_size]
  have hforth : ∀ {t t' : TypeTable} {u v : UnionType} {p q : ClassName}, t.SameTypes t' u v →
      p.fold = q.fold → (∃ k ∈ u.members, ∃ d, t.classOf? k = some d ∧ d.fold = p.fold) →
      ∃ k ∈ v.members, ∃ d, t'.classOf? k = some d ∧ d.fold = q.fold := by
    rintro t t' u v p q huv hpq ⟨k, hk, d, hd, hdp⟩
    obtain ⟨l, hl, hkl⟩ := huv.forth k hk
    obtain ⟨ty, ty', hty, hty', hmatch⟩ := hkl.types
    have hclass := TypeTable.className?_rel hmatch
    rw [TypeTable.classOf?, hty] at hd
    rw [show ty.className? = some d from hd] at hclass
    generalize hd' : ty'.className? = d? at hclass
    obtain ⟨hdd⟩ | _ := hclass
    refine ⟨l, hl, _, ?_, hdd.symm.trans (hdp.trans hpq)⟩
    rw [TypeTable.classOf?, hty']
    exact hd'
  exact ⟨hforth huv howner, hforth huv.flip howner.symm⟩

end ExpandM

end UnionInference
