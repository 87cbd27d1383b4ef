import UnionInference.Proofs.Types.Sound
import UnionInference.Types.Template

/-!
Work on sound tables. Work supplies a result when it ends without a violation, in a sound table that
holds what it held before, with a result that has a given property there. Every request for a type
whose parts are held supplies a type that is held; by putting requests together the same follows for
unions, and for putting types in the places of template placeholders. No placeholder comes from
anywhere but the types that the work is given.
-/

namespace UnionInference

/-- The table holds all members, and the placeholders inside them have the property. -/
def UnionType.Held (p : String → Prop) (t : TypeTable) (u : UnionType) : Prop :=
  ∀ i ∈ u.members, t.Holds p i

/-- All members are types of the table. -/
abbrev UnionType.Inside (t : TypeTable) (u : UnionType) : Prop := u.Held (fun _ => True) t

/-- All that placeholders stand for is held. -/
def TemplateMap.Held (p : String → Prop) (t : TypeTable) (m : TemplateMap) : Prop :=
  ∀ b ∈ m, b.2.Held p t

variable {r : Regime} {t t₁ t₂ : TypeTable} {p q : String → Prop} {u v : UnionType} {i : TypeId}

namespace UnionType

theorem mem_of_single? (h : u.single? = some i) : i ∈ u.members := by
  rw [single?] at h
  split at h
  · next j hj =>
    cases h
    rw [hj]
    exact List.mem_singleton_self i
  · cases h

theorem Held.imp (h : u.Held p t) (hpq : ∀ s, p s → q s) : u.Held q t :=
  fun i hi => (h i hi).imp hpq

theorem Held.inside (h : u.Held p t) : u.Inside t := h.imp fun _ _ => trivial

@[grind →]
theorem Held.keeps (h : u.Held p t) (hk : t.Keeps t₁) : u.Held p t₁ :=
  fun i hi => hk.holds (h i hi)

@[grind ←]
theorem held_empty : empty.Held p t := fun i hi => by simp at hi

@[grind ←]
theorem held_of (h : t.Holds p i) : (of i).Held p t := by
  intro j hj
  rw [mem_of.1 hj]
  exact h

@[grind ←]
theorem held_ofList {ids : List TypeId} (h : ∀ j ∈ ids, t.Holds p j) : (ofList ids).Held p t :=
  fun j hj => h j (mem_ofList.1 hj)

@[grind ←]
theorem Held.union (hu : u.Held p t) (hv : v.Held p t) : (u.union v).Held p t := by
  intro j hj
  rcases mem_union.1 hj with hj | hj
  · exact hu j hj
  · exact hv j hj

@[grind ←]
theorem Held.insert (hu : u.Held p t) (hi : t.Holds p i) : (u.insert i).Held p t := by
  intro j hj
  rcases mem_insert.1 hj with hj | rfl
  · exact hu j hj
  · exact hi

theorem Held.filter (hu : u.Held p t) (f : TypeId → Bool) : (u.filter f).Held p t :=
  fun j hj => hu j (List.mem_of_mem_filter hj)

@[grind ←]
theorem Held.erase (hu : u.Held p t) (i : TypeId) : (u.erase i).Held p t := hu.filter _

theorem held_native (ht : t.Sound r) (k : NativeKind) : (native k).Held p t :=
  held_of (.intro (ht.natives k) (by simp [TypeKind.embedded]) (by simp))

theorem Held.orMixed (ht : t.Sound r) (hu : u.Held p t) : u.orMixed.Held p t := by
  rw [UnionType.orMixed]
  split
  · exact held_native ht .mixed
  · exact hu

theorem held_ofKeyKind (ht : t.Sound r) (k : KeyKind) : (ofKeyKind k).Held p t := by
  have hid : ∀ k : NativeKind, t.Holds p k.id := fun k =>
    .intro (ht.natives k) (by simp [TypeKind.embedded]) (by simp)
  cases k with
  | int => exact held_of (hid .int)
  | string => exact held_of (hid .string)
  | mixed =>
    refine held_ofList fun j hj => ?_
    simp only [List.mem_cons, List.not_mem_nil, or_false] at hj
    rcases hj with rfl | rfl
    · exact hid .int
    · exact hid .string

end UnionType

/-! ### Putting work together -/

namespace TypeM

variable {α β : Type}

/-- The work ends in a sound table that holds what it held, with a result that has the property. -/
def Supplies (r : Regime) (t : TypeTable) (m : TypeM α) (Q : TypeTable → α → Prop) : Prop :=
  ∃ a t₁, m t = .ok (a, t₁) ∧ t.Keeps t₁ ∧ t₁.Sound r ∧ Q t₁ a

variable {m : TypeM α} {Q Q' : TypeTable → α → Prop} {R : TypeTable → β → Prop}

theorem supplies_pure (ht : t.Sound r) {a : α} (h : Q t a) : Supplies r t (pure a) Q :=
  ⟨a, t, rfl, .refl t, ht, h⟩

theorem Supplies.bind {f : α → TypeM β} (hm : Supplies r t m Q)
    (hf : ∀ a t₁, t.Keeps t₁ → t₁.Sound r → Q t₁ a → Supplies r t₁ (f a) R) :
    Supplies r t (m >>= f) R := by
  obtain ⟨a, t₁, hrun, hkeeps, ht₁, hq⟩ := hm
  obtain ⟨b, t₂, hrun', hkeeps', ht₂, hr⟩ := hf a t₁ hkeeps ht₁ hq
  exact ⟨b, t₂, bind_eq_ok.2 ⟨a, t₁, hrun, hrun'⟩, hkeeps.trans hkeeps', ht₂, hr⟩

theorem Supplies.imp (hm : Supplies r t m Q)
    (h : ∀ a t₁, t.Keeps t₁ → t₁.Sound r → Q t₁ a → Q' t₁ a) : Supplies r t m Q' := by
  obtain ⟨a, t₁, hrun, hkeeps, ht₁, hq⟩ := hm
  exact ⟨a, t₁, hrun, hkeeps, ht₁, h a t₁ hkeeps ht₁ hq⟩

theorem Supplies.map (f : α → β) (hm : Supplies r t m Q)
    (h : ∀ a t₁, t.Keeps t₁ → t₁.Sound r → Q t₁ a → R t₁ (f a)) : Supplies r t (f <$> m) R :=
  hm.bind fun a t₁ hkeeps ht₁ hq => supplies_pure ht₁ (h a t₁ hkeeps ht₁ hq)

/-- Asking the table leaves it as it is. -/
theorem supplies_query_bind {f : TypeTable → Checked α} {g : α → TypeM β} {a : α}
    (hf : f t = .ok a) (hg : Supplies r t (g a) R) : Supplies r t (query f >>= g) R := by
  obtain ⟨b, t₁, hrun, hrest⟩ := hg
  refine ⟨b, t₁, bind_eq_ok.2 ⟨a, t, ?_, hrun⟩, hrest⟩
  rw [query, hf]
  rfl

/-- A loop keeps what each of its steps keeps. -/
theorem supplies_foldlM {f : β → α → TypeM β} {as : List α} {b : β} (ht : t.Sound r) (hb : R t b)
    (hstep : ∀ b t₁, ∀ a ∈ as, t.Keeps t₁ → t₁.Sound r → R t₁ b → Supplies r t₁ (f b a) R) :
    Supplies r t (as.foldlM f b) R := by
  induction as generalizing t b with
  | nil => exact supplies_pure ht hb
  | cons a as ih =>
    rw [List.foldlM_cons]
    refine (hstep b t a List.mem_cons_self (.refl t) ht hb).bind fun b' t₁ hk ht₁ hb' => ?_
    exact ih ht₁ hb' fun b t₂ a ha hk' => hstep b t₂ a (List.mem_cons_of_mem _ ha) (hk.trans hk')

/-- What is found for each element stays true as the table grows. -/
theorem supplies_mapM {f : α → TypeM β} {P : TypeTable → α → β → Prop} {as : List α}
    (hlasts : ∀ t t₁ a b, t.Keeps t₁ → P t a b → P t₁ a b) (ht : t.Sound r)
    (hstep : ∀ t₁, ∀ a ∈ as, t.Keeps t₁ → t₁.Sound r → Supplies r t₁ (f a) fun t b => P t a b) :
    Supplies r t (as.mapM f) fun t bs => List.Forall₂ (P t) as bs := by
  induction as generalizing t with
  | nil => exact supplies_pure ht .nil
  | cons a as ih =>
    rw [List.mapM_cons]
    refine (hstep t a List.mem_cons_self (.refl t) ht).bind fun b t₁ hk ht₁ hb => ?_
    refine (ih ht₁ fun t₂ a ha hk' => hstep t₂ a (List.mem_cons_of_mem _ ha) (hk.trans hk')).map
      _ fun bs t₂ hk' ht₂ hbs => ?_
    exact .cons (hlasts _ _ _ _ hk' hb) hbs

/-! ### Requests -/

theorem supplies_fetch_bind {ty : Ty} (hty : t.get? i = some ty) {f : Ty → TypeM β}
    (hf : Supplies r t (f ty) R) : Supplies r t (fetch i >>= f) R := by
  obtain ⟨e, he, rfl⟩ := Option.map_eq_some_iff.1 hty
  exact supplies_query_bind (TypeTable.fetch_eq he) hf

/-- The type comes with the proof that it is made of earlier ones. -/
theorem supplies_fetchBelow_bind {ty : Ty} (hty : t.get? i = some ty)
    {f : TypeTable.TyBelow i → TypeM β}
    (hf : ∀ below : ∀ e ∈ ty.kind.embedded, e < i, Supplies r t (f ⟨ty, below⟩) R) :
    Supplies r t (fetchBelow i >>= f) R := by
  obtain ⟨below, hfetch⟩ := TypeTable.exists_fetchBelow hty
  exact supplies_query_bind hfetch (hf below)

/-- Placeholders can be traced where the texts of types tell them apart; elsewhere nothing can be
said of them. -/
def Traces (r : Regime) (p : String → Prop) : Prop := r.strict ∨ ∀ s, p s

theorem traces_true (r : Regime) : Traces r fun _ => True := .inr fun _ => trivial

/-- What is found for a kind is made of the same types. -/
theorem holds_of_finds (hp : Traces r p) (ht : t.Sound r) {kind : TypeKind} {nullable : Bool}
    (hkind : t.HoldsKind p kind) (hfit : kind.Fit r)
    (hfound : t.byKey[t.identity (TypeTable.normalize kind nullable)]? = some i) :
    t.Holds p i := by
  rcases hp with hs | hp
  · have hc := ht.canonical hs
    have hw : t.Writable (TypeTable.normalize kind nullable) :=
      TypeTable.writable_normalize nullable (fun e he => (hkind.parts e he).lt_size)
        (hfit.wellNamed hs)
    obtain ⟨e, he, hidentity⟩ := hc.identity_of_finds hw hfound
    obtain ⟨-, halike⟩ := (hc.identity_eq_iff (hc.writable he) hw).1 hidentity
    rw [TypeTable.holds_iff (TypeTable.get?_eq he)]
    refine ⟨fun j hj => ?_, fun s hk => ?_⟩
    · rcases halike.mem_embedded hj with hj | rfl
      · exact hkind.parts j hj
      · exact .intro (ht.natives .mixed) (by simp [TypeKind.embedded]) (by simp)
    · rw [hk] at halike
      cases kind with
      | template s' => exact hkind.template s (by rw [show s = s' from halike])
      | _ => exact halike.elim
  · exact TypeTable.holds_of_lt (ht.found _ _ hfound) hp

theorem supplies_intern (hp : Traces r p) (ht : t.Sound r) (kind : TypeKind) (nullable : Bool)
    (hkind : t.HoldsKind p kind) (hfit : kind.Fit r)
    (hodd : nullable = true → ∀ name args, kind = .object name args → t.Knows name) :
    Supplies r t (intern kind nullable) fun t₁ i => t₁.Holds p i ∧
      t₁.byKey[t.identity (TypeTable.normalize kind nullable)]? = some i := by
  have hin : ∀ e ∈ kind.embedded, e < t.size := fun e he => (hkind.parts e he).lt_size
  have hrun : intern kind nullable t = .ok (t.place (TypeTable.normalize kind nullable) hin) :=
    dif_pos hin
  have hcases := TypeTable.place_cases (t := t) (TypeTable.normalize kind nullable) hin
  have hcache := TypeTable.cache_place (t := t) (TypeTable.normalize kind nullable) hin
  generalize t.place (TypeTable.normalize kind nullable) hin = placed at hrun hcases hcache
  obtain ⟨i, t₁⟩ := placed
  rcases hcases with ⟨i, hi, ⟨⟩⟩ | ⟨hnone, rfl, hj⟩
  · exact ⟨i, t, hrun, .refl t, ht, holds_of_finds hp ht hkind hfit hi, hi⟩
  · have ht₁ := ht.joins hin hfit (by simp [TypeTable.normalize])
      (by
        rintro name args heq
        rw [TypeTable.normalize, Ty.mk.injEq, Bool.and_eq_true] at heq
        exact hodd heq.2.1 name args heq.1) hnone hj hcache
    refine ⟨t.size, t₁, hrun, hj.keeps, ht₁, ?_, ?_⟩
    · exact .intro hj.get?_new (fun e he => hj.keeps.holds (hkind.parts e he)) hkind.template
    · rw [hj.byKey_eq, if_pos (.inr rfl)]

end TypeM

/-! ### Tables that requests lead to -/

/-- The kind may be asked for at any time: the names of classes are regular. -/
def TypeKind.Regular (r : Regime) (kind : TypeKind) : Prop :=
  kind.Fit r ∧ ∀ name args, kind = .object name args → name.Regular

namespace TypeTable

theorem sound_initial (r : Regime) (nullCasts : Bool) : (initial nullCasts).Sound r := by
  have hc := canonical_initial nullCasts
  have hnative : ∀ (i : TypeId) (e : TypeEntry), (initial nullCasts).entries[i]? = some e →
      ∃ k, e.type.kind = .native k := by
    intro i e he
    obtain ⟨p, -, rfl⟩ := (holdsNatives_initial nullCasts).of_entry he
    exact ⟨p.1, rfl⟩
  refine ⟨fun k => get?_eq (hc.natives k), fun k i hi => ?_, fun i ty hty => ?_,
    fun name i hname hi => ?_, fun i name args nullable hi => ?_, fun id u hu => ?_, fun _ => hc⟩
  · obtain ⟨e, he, -⟩ := hc.onlyFound k i hi
    exact lt_size_of_entry he
  · obtain ⟨e, he, rfl⟩ := Option.map_eq_some_iff.1 hty
    obtain ⟨k, hk⟩ := hnative i e he
    rw [hk]
    trivial
  · obtain ⟨e, he, htext⟩ := hc.onlyFound _ i hi
    rw [hc.keyed i e he] at htext
    exact ⟨e.type, get?_eq he, bare_of_text hname (htext.imp Eq.symm Eq.symm)⟩
  · obtain ⟨e, he, hty⟩ := Option.map_eq_some_iff.1 hi
    obtain ⟨k, hk⟩ := hnative i e he
    rw [hty] at hk
    cases hk
  · rw [cache_initial] at hu
    simp at hu

/-- A request keeps a table sound. -/
theorem Sound.run (ht : t.Sound r) {req : TypeRequest} {t₁ : TypeTable}
    (hreq : ∀ kind, req.kind? = some kind → kind.Regular r) (h : req.run t = .ok (i, t₁)) :
    t₁.Sound r := by
  rcases TypeRequest.run_cases h with rfl | ⟨kind, nullable, h, hkind⟩
  · exact ht
  · have hin : ∀ e ∈ kind.embedded, e < t.size := by
      by_contra hin
      rw [TypeM.intern, dif_neg hin] at h
      cases h
    obtain ⟨hfit, hknown⟩ : kind.Fit r ∧ ∀ name args, kind = .object name args → t.Knows name := by
      rcases hkind with hkind | ⟨k, rfl⟩ | ⟨j, e, he, rfl⟩
      · obtain ⟨hfit, hregular⟩ := hreq kind hkind
        exact ⟨hfit, fun name args hk => .inl (hregular name args hk)⟩
      · exact ⟨trivial, fun _ _ hk => by cases hk⟩
      · refine ⟨ht.fit j e.type (get?_eq he), fun name args hk => .inr ⟨j, args, e.type.nullable, ?_⟩⟩
        rw [get?_eq he, ← hk]
    obtain ⟨j, t₂, hrun, -, ht₂, -⟩ := TypeM.supplies_intern (TypeM.traces_true r) ht kind nullable
      ⟨fun e he => holds_of_lt (hin e he) fun _ => trivial, fun _ _ => trivial⟩ hfit
      fun _ => hknown
    rw [h] at hrun
    cases hrun
    exact ht₂

/-- A table that requests for types of regular names lead to is sound. -/
theorem Reachable.sound (h : Reachable (TypeKind.Regular r) t) : t.Sound r := by
  obtain ⟨nullCasts, h⟩ := h
  induction h with
  | refl => exact sound_initial r nullCasts
  | step _ hreq hrun ih => exact ih.run hreq hrun

end TypeTable

namespace TypeM

theorem supplies_native (hp : Traces r p) (ht : t.Sound r) (k : NativeKind) (nullable : Bool) :
    Supplies r t (native k nullable) fun t₁ i => t₁.Holds p i := by
  rw [native]
  split
  · refine (supplies_intern hp ht (.native k) true ⟨by simp [TypeKind.embedded], by simp⟩ trivial
      ?_).imp ?_
    · simp
    · exact fun i t₁ _ _ h => h.1
  · exact supplies_pure ht (.intro (ht.natives k) (by simp [TypeKind.embedded]) (by simp))

theorem make_of_typable {name : ClassName} (h : name.Typable) (args : List UnionType)
    (nullable : Bool) :
    make name.space name.name args nullable = intern (.object name args) nullable := by
  rw [make, if_neg (by simp [h.space_ne]), if_neg (by simp [h.rooted]), if_neg (by simp [h.name_ne]),
    if_neg (by simp [h.undivided]), h.normalized]

/-- The type of a class whose name is known is found under its name, so it is no array. -/
theorem supplies_classType (hp : Traces r p) (ht : t.Sound r) {name : ClassName}
    (hname : r.Admits name) :
    Supplies r t (classType name) fun t₁ i =>
      t₁.Holds p i ∧ (t.Knows name → t₁.IsBare i) := by
  rw [classType, classTypeWith, make_of_typable hname.typable]
  refine (supplies_intern hp ht (.object name []) false ⟨by simp [TypeKind.embedded], by simp⟩
    ⟨hname.typable, fun h => hname.regular (h.resolve_right fun hne => hne rfl)⟩ (by simp)).imp ?_
  rintro i t₁ hkeeps ht₁ ⟨hholds, hfound⟩
  have hfound : t₁.byKey[name.foldedText]? = some i := by
    rw [← hfound]
    exact congrArg (t₁.byKey[·]?) String.empty_append.symm
  refine ⟨hholds, fun hknown => ?_⟩
  by_cases hregular : name.Regular
  · exact ht₁.regular name i hregular hfound
  · obtain ⟨j, args, nullable, hj⟩ := hknown.resolve_left hregular
    obtain ⟨k, hk, hbare⟩ := ht₁.odd j name args nullable (hkeeps.get? hj) hregular
    rw [hfound] at hk
    cases hk
    exact hbare

theorem supplies_array (hp : Traces r p) (ht : t.Sound r) (key : KeyKind) (hi : t.Holds p i)
    (nullable : Bool) : Supplies r t (array key i nullable) fun t₁ j => t₁.Holds p j := by
  refine (supplies_intern hp ht (.array key i) nullable ⟨?_, by simp⟩ trivial (by simp)).imp
    fun j t₁ _ _ h => h.1
  intro e he
  rw [TypeKind.embedded, List.mem_singleton] at he
  exact he ▸ hi

theorem supplies_withNull (hp : Traces r p) (ht : t.Sound r) (hi : t.Holds p i) (nullable : Bool) :
    Supplies r t (withNull i nullable) fun t₁ j => t₁.Holds p j := by
  obtain ⟨⟨kind, nullable'⟩, hty, hkind⟩ := hi.kind
  refine supplies_fetch_bind hty ?_
  split
  · exact supplies_pure ht hi
  · refine (supplies_intern hp ht kind nullable hkind (ht.fit _ _ hty) ?_).imp
      fun j t₁ _ _ h => h.1
    rintro - name args rfl
    exact .inr ⟨i, args, nullable', hty⟩

theorem supplies_widenLiteral (hp : Traces r p) (ht : t.Sound r) (hi : t.Holds p i) :
    Supplies r t (widenLiteral i) fun t₁ j => t₁.Holds p j := by
  obtain ⟨ty, hty, hkind⟩ := hi.kind
  refine supplies_fetch_bind hty ?_
  split
  · exact supplies_native hp ht _ _
  · exact supplies_native hp ht _ _
  · exact supplies_pure ht hi

end TypeM

/-! ### Unions -/

namespace UnionType

open TypeM

theorem supplies_mapMembers {f : TypeId → TypeM TypeId} (ht : t.Sound r)
    (hf : ∀ t₁, ∀ i ∈ u.members, t.Keeps t₁ → t₁.Sound r →
      Supplies r t₁ (f i) fun t j => t.Holds p j) :
    Supplies r t (u.mapMembers f) fun t₁ v => v.Held p t₁ := by
  have hmap := supplies_mapM (f := f) (P := fun t _ j => t.Holds p j)
    (fun _ _ _ _ hk hj => hk.holds hj) ht hf
  refine hmap.map _ fun ids t₁ _ _ hids => held_ofList ?_
  intro j hj
  obtain ⟨i, -, hij⟩ := exists_of_forall₂ hids.flip hj
  exact hij

theorem supplies_withNull (hp : Traces r p) (ht : t.Sound r) (hu : u.Held p t) :
    Supplies r t u.withNull fun t₁ v => v.Held p t₁ :=
  supplies_mapMembers ht fun _ i hi hk ht₁ =>
    TypeM.supplies_withNull hp ht₁ (hk.holds (hu i hi)) true

theorem supplies_withoutNull (hp : Traces r p) (ht : t.Sound r) (hu : u.Held p t) :
    Supplies r t u.withoutNull fun t₁ v => v.Held p t₁ :=
  supplies_mapMembers ht fun _ i hi hk ht₁ =>
    TypeM.supplies_withNull hp ht₁ (hk.holds (hu.erase _ i hi)) false

theorem supplies_widenLiterals (hp : Traces r p) (ht : t.Sound r) (hu : u.Held p t) :
    Supplies r t u.widenLiterals fun t₁ v => v.Held p t₁ :=
  supplies_mapMembers ht fun _ i hi hk ht₁ => supplies_widenLiteral hp ht₁ (hk.holds (hu i hi))

theorem supplies_asArrays (hp : Traces r p) (ht : t.Sound r) (hu : u.Held p t) (key : KeyKind) :
    Supplies r t (u.asArrays key) fun t₁ v => v.Held p t₁ :=
  supplies_mapMembers ht fun _ i hi hk ht₁ =>
    supplies_array hp ht₁ key (hk.holds (hu i hi)) false

theorem supplies_ofScalar (ht : t.Sound r) (o : Options) {s : Scalar}
    (hint : ∀ n, s = .int n → r.strict → Text.isInteger n = true)
    (hstring : ∀ x, s = .string x → r.Plain x) :
    Supplies r t (ofScalar s o) fun t₁ v => v.Inside t₁ := by
  have hnative : ∀ k, Supplies r t (pure (native k)) fun t₁ v => v.Inside t₁ := fun k =>
    supplies_pure ht (held_native ht k)
  cases s with
  | int n =>
    rw [ofScalar]
    split
    · exact (supplies_intern (traces_true r) ht (.intLiteral n) false
        ⟨by simp [TypeKind.embedded], by simp⟩ (hint n rfl) (by simp)).map _
        fun i t₁ _ _ h => held_of h.1
    · exact hnative .int
  | string x =>
    rw [ofScalar]
    split
    · exact (supplies_intern (traces_true r) ht (.stringLiteral x) false
        ⟨by simp [TypeKind.embedded], by simp⟩ (hstring x rfl) (by simp)).map _
        fun i t₁ _ _ h => held_of h.1
    · exact hnative .string
  | float => exact hnative .float
  | null => exact hnative .null
  | bool b => cases b <;> exact hnative _

/-! ### Questions -/

theorem exists_fetch (h : t.Holds p i) :
    ∃ ty, t.fetch i = .ok ty ∧ t.get? i = some ty ∧ t.HoldsKind p ty.kind := by
  obtain ⟨ty, hty, hkind⟩ := h.kind
  obtain ⟨e, he, rfl⟩ := Option.map_eq_some_iff.1 hty
  exact ⟨e.type, TypeTable.fetch_eq he, hty, hkind⟩

theorem exists_anyM {α : Type} {f : α → Checked Bool} {as : List α}
    (h : ∀ a ∈ as, ∃ b, f a = .ok b) : ∃ b, as.anyM f = .ok b := by
  induction as with
  | nil => exact ⟨false, rfl⟩
  | cons a as ih =>
    obtain ⟨b, hb⟩ := h a List.mem_cons_self
    rw [List.anyM, hb]
    cases b with
    | true => exact ⟨true, rfl⟩
    | false => exact ih fun a ha => h a (List.mem_cons_of_mem _ ha)

theorem exists_allM {α : Type} {f : α → Checked Bool} {as : List α}
    (h : ∀ a ∈ as, ∃ b, f a = .ok b) : ∃ b, as.allM f = .ok b := by
  induction as with
  | nil => exact ⟨true, rfl⟩
  | cons a as ih =>
    obtain ⟨b, hb⟩ := h a List.mem_cons_self
    rw [List.allM, hb]
    cases b with
    | false => exact ⟨false, rfl⟩
    | true => exact ih fun a ha => h a (List.mem_cons_of_mem _ ha)

/-- A loop without effects answers when each of its steps does. -/
theorem exists_foldlM {α β : Type} {f : β → α → Checked β} {P : β → Prop} {as : List α} {b : β}
    (hb : P b) (h : ∀ b, ∀ a ∈ as, P b → ∃ b', f b a = .ok b' ∧ P b') :
    ∃ b', as.foldlM f b = .ok b' ∧ P b' := by
  induction as generalizing b with
  | nil => exact ⟨b, rfl, hb⟩
  | cons a as ih =>
    obtain ⟨b', hrun, hb'⟩ := h b a List.mem_cons_self hb
    rw [List.foldlM_cons, hrun]
    exact ih hb' fun b a ha => h b a (List.mem_cons_of_mem _ ha)

theorem exists_mapM {α β : Type} {f : α → Checked β} {as : List α}
    (h : ∀ a ∈ as, ∃ b, f a = .ok b) : ∃ bs, as.mapM f = .ok bs := by
  induction as with
  | nil => exact ⟨[], rfl⟩
  | cons a as ih =>
    obtain ⟨b, hb⟩ := h a List.mem_cons_self
    obtain ⟨bs, hbs⟩ := ih fun a ha => h a (List.mem_cons_of_mem _ ha)
    rw [List.mapM_cons, hb, hbs]
    exact ⟨b :: bs, rfl⟩

theorem exists_fetch_map (hu : u.Held p t) {α : Type} (f : Ty → α) :
    ∀ i ∈ u.members, ∃ b, (t.fetch i).map f = .ok b := by
  intro i hi
  obtain ⟨ty, hty, -⟩ := exists_fetch (hu i hi)
  exact ⟨f ty, by rw [hty]; rfl⟩

theorem exists_anyMember (hu : u.Held p t) (f : Ty → Bool) : ∃ b, u.anyMember t f = .ok b :=
  exists_anyM (exists_fetch_map hu f)

theorem exists_allMembers (hu : u.Held p t) (f : Ty → Bool) : ∃ b, u.allMembers t f = .ok b := by
  rw [allMembers]
  split
  · exact ⟨false, rfl⟩
  · exact exists_allM (exists_fetch_map hu f)

theorem exists_filterMembers (hu : u.Held p t) (f : Ty → Bool) :
    ∃ v, u.filterMembers t f = .ok v ∧ v.Held p t := by
  have hloop : ∀ (ids : List TypeId) (acc : List TypeId), (∀ i ∈ ids, t.Holds p i) →
      (∀ i ∈ acc, t.Holds p i) →
      ∃ kept, List.filterAuxM (fun id => (t.fetch id).map f) ids acc = .ok kept ∧
        ∀ i ∈ kept, t.Holds p i := by
    intro ids
    induction ids with
    | nil => exact fun acc _ hacc => ⟨acc, rfl, hacc⟩
    | cons i ids ih =>
      intro acc hids hacc
      obtain ⟨ty, hty, -⟩ := exists_fetch (hids i List.mem_cons_self)
      obtain ⟨kept, hrun, hkept⟩ := ih (bif f ty then i :: acc else acc)
        (fun j hj => hids j (List.mem_cons_of_mem _ hj)) (by
          cases f ty with
          | false => exact hacc
          | true => exact List.forall_mem_cons.2 ⟨hids i List.mem_cons_self, hacc⟩)
      refine ⟨kept, ?_, hkept⟩
      rw [List.filterAuxM, hty]
      exact hrun
  obtain ⟨kept, hrun, hkept⟩ := hloop u.members [] hu (by simp)
  refine ⟨ofList kept.reverse, ?_, held_ofList fun i hi => hkept i (List.mem_reverse.1 hi)⟩
  rw [filterMembers, List.filterM, hrun]
  rfl

theorem exists_elementTypesFrom (ht : t.Sound r) {ids : List TypeId} {found : UnionType}
    (hfound : found.Held p t) (hids : ∀ i ∈ ids, t.Holds p i) :
    ∃ v, elementTypesFrom t found ids = .ok v ∧ v.Held p t := by
  induction ids generalizing found with
  | nil => exact ⟨found, rfl, hfound⟩
  | cons i ids ih =>
    have hrest := fun j hj => hids j (List.mem_cons_of_mem i hj)
    obtain ⟨ty, hty, -, hkind⟩ := exists_fetch (hids i List.mem_cons_self)
    rw [elementTypesFrom, hty]
    dsimp only [bind, Except.bind]
    split
    · exact ⟨mixed, rfl, held_native ht .mixed⟩
    · exact ⟨mixed, rfl, held_native ht .mixed⟩
    · next key element hk =>
      exact ih (hfound.insert (hkind.parts element (by simp [hk, TypeKind.embedded]))) hrest
    · next fields hk =>
      refine ih ?_ hrest
      have hfields : ∀ f ∈ fields, f.2.type.Held p t := fun f hf j hj =>
        hkind.parts j (by rw [hk]; exact List.mem_flatMap.2 ⟨f, hf, hj⟩)
      clear hk
      induction fields generalizing found with
      | nil => exact hfound
      | cons f fields ih' =>
        exact ih' (hfound.union (hfields f List.mem_cons_self)) fun g hg =>
          hfields g (List.mem_cons_of_mem _ hg)
    · exact ih hfound hrest

theorem exists_elementTypes (ht : t.Sound r) (hu : u.Held p t) :
    ∃ v, u.elementTypes t = .ok v ∧ v.Held p t := exists_elementTypesFrom ht held_empty hu

theorem exists_iterableValues (ht : t.Sound r) (hu : u.Held p t) :
    ∃ v, u.iterableValues t = .ok v ∧ v.Held p t := by
  obtain ⟨v, hv, hheld⟩ := exists_elementTypes ht hu
  obtain ⟨b, hb⟩ := exists_anyMember hu fun ty => ty.isNative .iterable || ty.isObjectLike
  rw [iterableValues, hv]
  show ∃ w, (u.anyMember t _ >>= fun b => if b then _ else _ : Checked UnionType) = .ok w ∧ _
  rw [hb]
  cases b with
  | false => exact ⟨v, rfl, hheld⟩
  | true => exact ⟨_, rfl, hheld.insert (held_native ht .mixed _ (mem_of.2 rfl))⟩

theorem exists_keyKind (hu : u.Held p t) : ∃ k, u.keyKind t = .ok k := by
  obtain ⟨kinds, hkinds⟩ := exists_mapM (exists_fetch_map hu keyKindOf)
  exact ⟨KeyKind.mergeAll (kinds.filterMap fun k => k), by rw [keyKind, hkinds]; rfl⟩

theorem exists_shapeField? (hu : u.Held p t) (key : ShapeKey) :
    ∃ found, u.shapeField? t key = .ok found ∧ ∀ v, found = some v → v.Held p t := by
  refine exists_foldlM (P := fun found : Option UnionType => ∀ v, found = some v → v.Held p t)
    (by simp) ?_
  intro found i hi hfound
  obtain ⟨ty, hty, -, hkind⟩ := exists_fetch (hu i hi)
  rw [hty]
  dsimp only [bind, Except.bind]
  split
  · next fields hk =>
    split
    · next field hfield =>
      obtain ⟨l₁, l₂, hl, -⟩ := List.lookup_eq_some_iff.1 hfield
      refine ⟨_, rfl, ?_⟩
      rintro v ⟨⟩
      refine Held.union ?_ fun j hj => hkind.parts j ?_
      · cases found with
        | none => exact held_empty
        | some w => exact hfound w rfl
      · rw [hk]
        exact List.mem_flatMap.2 ⟨(key, field), by simp [hl], hj⟩
    · exact ⟨found, rfl, hfound⟩
  · exact ⟨found, rfl, hfound⟩

/-- The classes that members name are names of types that the table holds. -/
theorem exists_classNames (hu : u.Held p t) :
    ∃ names, u.classNames t = .ok names ∧ ∀ name ∈ names, t.Knows name := by
  refine exists_foldlM (P := fun names => ∀ name ∈ names, t.Knows name) (by simp) ?_
  intro names i hi hnames
  obtain ⟨⟨kind, nullable⟩, hty, hget, -⟩ := exists_fetch (hu i hi)
  rw [hty]
  dsimp only [bind, Except.bind]
  split
  · next name hname =>
    refine ⟨_, rfl, fun other hother => ?_⟩
    rw [addClass] at hother
    split at hother
    · exact hnames other hother
    · rcases List.mem_append.1 hother with hother | hother
      · exact hnames other hother
      · rw [List.mem_singleton.1 hother]
        unfold Ty.className? at hname
        split at hname
        · next args hk =>
          cases hname
          cases hk
          exact .inr ⟨i, _, nullable, hget⟩
        · split at hname
          · cases hname
            left
            exact ⟨⟨["Closure".toList], by decide, by decide, by decide⟩,
              by unfold QualifiedName.Divided; decide⟩
          · cases hname
        · cases hname
  · exact ⟨names, rfl, hnames⟩

end UnionType

end UnionInference
