import Mathlib.Logic.Relation
import UnionInference.Proofs.CodeBase.Elements
import UnionInference.Proofs.CodeBase.Hydration

/-!
The members that a class has from a trait, and through it the classes below. Each class takes a
member from the first of its sources that has one of the name, so a copy moves down a chain of classes
and remembers where it was declared. If the class that uses the trait declares the member itself
instead, the copies move down the same chain.
-/

namespace UnionInference

namespace CodeBase

open ClassMember MemberSort Relation

variable {μ : Type} [ClassMember μ] [MemberSort μ]
variable {b b' : CodeBase} {h : b.Acyclic} {own : MemberTables μ} {n : String} {c d s : ClassName}

/-! ### Which classes have a member -/

/-- The class has a member of the name by the rule of inheritance. -/
def Offers (b : CodeBase) (h : b.Acyclic) (own : MemberTables μ) (n : String)
    (c : ClassName) : Bool :=
  (b.resolveMember h own n c).isSome

omit [MemberSort μ] in
theorem offers_iff : b.Offers h own n c = true ↔
    (own.get? c n).isSome = true ∨ ∃ s ∈ b.sourcesOf c, b.Offers h own n s = true := by
  simp only [Offers, resolveMember_eq h own n c, Option.isSome_or, Bool.or_eq_true,
    List.findSome?_isSome_iff, Option.isSome_map]

/-- The second class declares no member of the name, and the first one is the first of its sources
that has one. -/
def Hands (b : CodeBase) (h : b.Acyclic) (own : MemberTables μ) (n : String)
    (s c : ClassName) : Prop :=
  own.get? c n = none ∧ ∃ s', (b.sourcesOf c).find? (b.Offers h own n) = some s' ∧ s'.fold = s.fold

omit [MemberSort μ] in
theorem Hands.isSource (hs : b.Hands h own n s c) : b.IsSource s c := by
  obtain ⟨-, s', hfind, hfold⟩ := hs
  exact ⟨s', List.mem_of_find?_eq_some hfind, hfold⟩

/-- How a class is spelled shows only in the names of its copies. -/
theorem resolveMember_congr (hv : own.Valid) (hc : c.fold = d.fold) :
    Option.Rel Alike (b.resolveMember h own n c) (b.resolveMember h own n d) := by
  rw [← lookup_resolveRow h hv, ← lookup_resolveRow h hv]
  exact (resolveRow_congr h own hc).lookup (key μ n)

/-- A class has the copy of what it is handed. -/
theorem Hands.resolveMember_eq (hs : b.Hands h own n s c) (hv : own.Valid) :
    b.resolveMember h own n c = (b.resolveMember h own n s).map fun m => moveTo m c := by
  obtain ⟨hown, s', hfind, hfold⟩ := hs
  have hfirst : ∀ ss : List ClassName, ss.find? (b.Offers h own n) = some s' →
      (ss.findSome? fun s => (b.resolveMember h own n s).map fun m => moveTo m c) =
        (b.resolveMember h own n s').map fun m => moveTo m c := by
    intro ss hss
    induction ss with
    | nil => cases hss
    | cons a ss ih =>
      rw [List.find?_cons] at hss
      rw [List.findSome?_cons]
      cases hoffers : b.Offers h own n a with
      | true =>
        rw [hoffers] at hss
        cases hss
        obtain ⟨m, hm⟩ := Option.isSome_iff_exists.1 hoffers
        rw [hm]
        rfl
      | false =>
        rw [hoffers] at hss
        rw [Option.not_isSome_iff_eq_none.1 (Bool.eq_false_iff.1 hoffers)]
        exact ih hss
  rw [CodeBase.resolveMember_eq h own n c, hown, Option.none_or, hfirst _ hfind]
  -- the two spellings of the source lead to the same copy
  have hrel := resolveMember_congr (b := b) (h := h) (n := n) hv hfold
  generalize b.resolveMember h own n s' = found' at hrel
  generalize b.resolveMember h own n s = found at hrel
  cases hrel with
  | none => rfl
  | some hm => exact congrArg some (hm.moveTo_eq c)

/-! ### Down a chain of classes -/

/-- The class is the other one, or takes the member from it over any number of classes. -/
def Receives (b : CodeBase) (h : b.Acyclic) (own : MemberTables μ) (n : String) (d c : ClassName) :
    Prop :=
  c.fold = d.fold ∨ TransGen (b.Hands h own n) d c

/-- What the first class of a chain has moves down the chain. -/
theorem Receives.alike_moveTo (hr : b.Receives h own n d c) (hv : own.Valid) {m : μ}
    (hm : Option.Rel Alike (b.resolveMember h own n d) (some (moveTo m d))) :
    Option.Rel Alike (b.resolveMember h own n c) (some (moveTo m c)) := by
  have htrans : ∀ {x : Option μ} {y z : μ}, Option.Rel Alike x (some y) → Alike y z →
      Option.Rel Alike x (some z) := by
    rintro _ y z ⟨hxy⟩ hyz
    exact .some (hxy.trans hyz)
  have hstep : ∀ {s c : ClassName}, b.Hands h own n s c →
      Option.Rel Alike (b.resolveMember h own n s) (some (moveTo m s)) →
      Option.Rel Alike (b.resolveMember h own n c) (some (moveTo m c)) := by
    intro s c hs hrel
    rw [hs.resolveMember_eq hv]
    generalize b.resolveMember h own n s = found at hrel
    obtain ⟨hm'⟩ := hrel
    rw [Option.map_some, hm'.moveTo_eq, moveTo_moveTo]
    exact .some (Alike.refl _)
  rcases hr with hfold | hchain
  · have hcongr := resolveMember_congr (b := b) (h := h) (n := n) hv hfold
    generalize b.resolveMember h own n d = found at hcongr hm
    obtain ⟨hm'⟩ := hm
    exact htrans hcongr (hm'.trans (ClassMember.alike_moveTo m hfold.symm))
  · induction hchain with
    | single hs => exact hstep hs hm
    | tail _ hs ih => exact hstep hs ih

/-- Only registered classes have sources. -/
theorem IsSource.isRegistered_user (hs : b.IsSource s c) (hb : b.Loadable) :
    b.isRegistered c = true := by
  obtain ⟨s', hs', -⟩ := hs
  rw [sourcesOf, List.mem_filter] at hs'
  rw [hb.isRegistered_eq]
  cases hclass : b.class? c with
  | some decl => rfl
  | none =>
    rw [hclass] at hs'
    cases hs'.1

omit [MemberSort μ] in
/-- What receives a member of a registered class is registered. -/
theorem Receives.isRegistered (hb : b.Loadable) (hr : b.Receives h own n d c)
    (hd : b.isRegistered d = true) : b.isRegistered c = true := by
  rcases hr with hfold | hchain
  · rw [b.isRegistered_congr hfold, hd]
  · obtain ⟨s, -, hs⟩ := TransGen.tail'_iff.1 hchain
    exact hs.isSource.isRegistered_user hb

/-! ### A member of a trait, declared by the user of the trait instead

The member is declared by the trait in one code base and by the class in the other one. -/

section

variable {ms : MemberTables μ} {m m' : μ} {trait user : ClassName}

omit [MemberSort μ] in
/-- Whatever has the member if the class declares it has the member if the trait declares it. -/
theorem offers_of_offers_user (hv : ms.Valid) (hm : name m = ⟨trait, n⟩) (hm' : name m' = ⟨user, n⟩)
    (huses : b.IsSource trait user) (hc : b.Offers h (ms.add m') n c = true) :
    b.Offers h (ms.add m) n c = true := by
  have htrait : ∀ {s : ClassName}, s.fold = trait.fold → b.Offers h (ms.add m) n s = true := by
    intro s hs
    refine offers_iff.2 (.inl ?_)
    rw [hv.get?_add, hm, if_pos ⟨hs.symm, rfl⟩]
    rfl
  induction c using h.wellFounded.induction with
  | _ c ih =>
    by_cases huser : c.fold = user.fold
    · obtain ⟨s, hs, hfold⟩ := huses
      rw [← b.sourcesOf_congr huser] at hs
      exact offers_iff.2 (.inr ⟨s, hs, htrait hfold⟩)
    · rcases offers_iff.1 hc with hown | ⟨s, hs, hoffers⟩
      · rw [hv.get?_add, hm', if_neg fun hsame => huser hsame.1.symm] at hown
        by_cases hsame : c.fold = trait.fold
        · exact htrait hsame
        · refine offers_iff.2 (.inl ?_)
          rw [hv.get?_add, hm, if_neg fun hc => hsame hc.1.symm]
          exact hown
      · exact offers_iff.2 (.inr ⟨s, hs, ih s (isSource_of_mem hs) hoffers⟩)

omit [MemberSort μ] in
/-- A class other than the user of the trait that is handed the member of the trait is handed that
of the user by the same source, if this one has it. -/
theorem Hands.of_trait (hv : ms.Valid) (hm : name m = ⟨trait, n⟩) (hm' : name m' = ⟨user, n⟩)
    (huses : b.IsSource trait user) (hs : b.Hands h (ms.add m) n s c) (hc : c.fold ≠ user.fold)
    (hoffers : ∀ {s' : ClassName}, s'.fold = s.fold → b.Offers h (ms.add m') n s' = true) :
    b.Hands h (ms.add m') n s c := by
  obtain ⟨hown, s', hfind, hfold⟩ := hs
  refine ⟨?_, s', ?_, hfold⟩
  · rw [hv.get?_add, hm', if_neg fun hsame => hc hsame.1.symm]
    rw [hv.get?_add] at hown
    split at hown
    · cases hown
    · exact hown
  · -- the sources before it have neither member
    rw [List.find?_eq_some_iff_append] at hfind ⊢
    obtain ⟨-, before, after, hsources, hbefore⟩ := hfind
    refine ⟨hoffers hfold, before, after, hsources, fun a ha => ?_⟩
    have hnot := hbefore a ha
    rw [Bool.not_eq_true'] at hnot ⊢
    refine Bool.eq_false_iff.2 fun ha' => ?_
    rw [offers_of_offers_user hv hm hm' huses ha'] at hnot
    cases hnot

omit [MemberSort μ] in
/-- The classes that receive the member of the trait from its user receive that of the user. -/
theorem Receives.of_trait (hv : ms.Valid) (hm : name m = ⟨trait, n⟩) (hm' : name m' = ⟨user, n⟩)
    (huses : b.IsSource trait user) (hr : b.Receives h (ms.add m) n user c) :
    b.Receives h (ms.add m') n user c := by
  rcases hr with hfold | hchain
  · exact .inl hfold
  have huser : ∀ {s : ClassName}, s.fold = user.fold → b.Offers h (ms.add m') n s = true := by
    intro s hs
    refine offers_iff.2 (.inl ?_)
    rw [hv.get?_add, hm', if_pos ⟨hs.symm, rfl⟩]
    rfl
  have hbelow : ∀ {c : ClassName}, TransGen (b.Hands h (ms.add m) n) user c →
      c.fold ≠ user.fold := by
    intro c hchain hfold
    have hancestor : b.IsAncestor user c :=
      TransGen.mono (fun _ _ (hs : b.Hands h (ms.add m) n _ _) => hs.isSource) _ _ hchain
    exact h user (hancestor.congr_right hfold)
  have hoffers : ∀ {s c : ClassName}, b.Hands h (ms.add m') n s c → ∀ {c' : ClassName},
      c'.fold = c.fold → b.Offers h (ms.add m') n c' = true := by
    rintro s c ⟨-, s', hfind, -⟩ c' hfold
    obtain ⟨hs', -⟩ := List.find?_eq_some_iff_append.1 hfind
    refine offers_iff.2 (.inr ⟨s', ?_, hs'⟩)
    rw [b.sourcesOf_congr hfold]
    exact List.mem_of_find?_eq_some hfind
  right
  induction hchain with
  | single hs => exact .single (hs.of_trait hv hm hm' huses (hbelow (.single hs)) huser)
  | tail hchain hs ih =>
    obtain ⟨r, -, hlast⟩ := TransGen.tail'_iff.1 ih
    exact ih.tail (hs.of_trait hv hm hm' huses (hbelow (hchain.tail hs)) (hoffers hlast))

end

/-! ### The member in a code base that was filled -/

theorem SameClasses.sourcesOf_eq (hs : b.SameClasses b') (c : ClassName) :
    b'.sourcesOf c = b.sourcesOf c := by
  have hregistered : b'.isRegistered = b.isRegistered := by
    funext d
    rw [isRegistered, isRegistered, hs.classes]
  rw [sourcesOf, sourcesOf, hregistered, class?, class?, hs.classes]

theorem SameClasses.acyclic (hs : b.SameClasses b') (h : b.Acyclic) : b'.Acyclic := by
  have hsource : b'.IsSource = b.IsSource := by
    funext s c
    rw [IsSource, IsSource, hs.sourcesOf_eq]
  intro c hc
  rw [IsAncestor, hsource] at hc
  exact h c hc

omit [MemberSort μ] in
/-- The rule of inheritance asks nothing but which classes there are. -/
theorem SameClasses.resolveMember_eq (hs : b.SameClasses b') (h : b.Acyclic) (h' : b'.Acyclic)
    (own : MemberTables μ) (n : String) (c : ClassName) :
    b'.resolveMember h' own n c = b.resolveMember h own n c := by
  induction c using h.wellFounded.induction with
  | _ c ih =>
    rw [CodeBase.resolveMember_eq, CodeBase.resolveMember_eq, hs.sourcesOf_eq,
      ← List.head?_filterMap, ← List.head?_filterMap]
    refine congrArg (fun found => Option.or _ (List.head? found)) ?_
    refine List.filterMap_congr fun s hsource => ?_
    rw [ih s (isSource_of_mem hsource)]

/-- Filling classes changes neither the classes nor the generation. -/
theorem SelfContained.sameClasses_hydrateEach (h : b.SelfContained) (order : List ClassName) :
    b.SameClasses (hydrateEach order b) := by
  induction order generalizing b with
  | nil => exact ⟨rfl, rfl, rfl, rfl⟩
  | cons c order ih =>
    have hfirst := h.sameClasses_hydrateWithin b.hydrationBound c
    exact hfirst.trans (ih (h.sameClasses hfirst))

/-- A registered class that was filled has what the rule of inheritance finds. -/
theorem Fresh.exists_get? (hb : b.Fresh) (hv : (members b : MemberTables μ).Valid) (h : b.Acyclic)
    {order : List ClassName} (hc : b.isRegistered c = true) (hn : Names order c) {m : μ}
    (hm : Option.Rel Alike (b.resolveMember h (members b) n c) (some m)) :
    ∃ found : μ, (members (hydrateEach order b)).get? c n = some found ∧ Alike found m := by
  obtain ⟨hvalid, -, hdone⟩ := hb.spec_hydrateEach hv h order
  have hrel := ((hdone c hc hn).inherits hb hv hvalid).found n
  generalize b.resolveMember h (members b : MemberTables μ) n c = rule at hm hrel
  obtain ⟨hrule⟩ := hm
  generalize (members (hydrateEach order b) : MemberTables μ).get? c n = row at hrel
  obtain ⟨hfound⟩ := hrel
  exact ⟨_, rfl, hfound.trans hrule⟩

end CodeBase

end UnionInference
