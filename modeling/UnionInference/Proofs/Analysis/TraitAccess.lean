import UnionInference.Proofs.Analysis.Frame
import UnionInference.Proofs.ClassName
import UnionInference.Proofs.CodeBase.Ancestry
import UnionInference.Proofs.CodeBase.TraitMembers

/-!
Access to hidden members that come from a trait. A member of a trait passes for one of the class
that it is reached through, which need not be the class that uses the trait: it moved down from
there. So the member can be accessed from other places than if the class that uses the trait
declared it, and this is said exactly, for every place of the code in the hierarchy.
-/

namespace UnionInference

open Relation ClassMember MemberSort

variable {t t' : TypeTable} {b b' : CodeBase} {child ancestor here declaring owner c d : ClassName}

theorem QualifiedName.sameClass_iff : c.sameClass d = true ↔ c.fold = d.fold := beq_iff_eq

/-! ### Questions for subclasses, one after another -/

/-- The classes declare class types, whose names tell them apart, and nothing that is remembered is
stale. -/
structure Charted (t : TypeTable) (b : CodeBase) : Prop where
  fresh : CacheFresh (t, b)
  alone : b.SelfContained
  declares : DeclaresClasses t b
  divided : t.NamesDivided

/-- The class is registered, differs from the other one and reaches it. -/
def Descends (t : TypeTable) (b : CodeBase) (child ancestor : ClassName) : Prop :=
  b.isRegistered child = true ∧ child.fold ≠ ancestor.fold ∧
    ReflTransGen (Derives t b) child ancestor

/-- The class is registered, and a walk starts at it that is too long to be followed. -/
def Overlong (t : TypeTable) (b : CodeBase) (c : ClassName) : Prop :=
  b.isRegistered c = true ∧ Climbs t b maxExpansionDepth c

theorem Descends.congr_right (h : Descends t b c d) (hd : d.fold = ancestor.fold) :
    Descends t b c ancestor := by
  obtain ⟨hregistered, hne, hreach⟩ := h
  refine ⟨hregistered, hd ▸ hne, ?_⟩
  rcases hreach.cases_tail with rfl | ⟨e, hinit, hlast⟩
  · exact absurd rfl hne
  · exact hinit.tail (hlast.congr_right hd)

theorem descends_congr_right (hd : d.fold = ancestor.fold) :
    Descends t b c d ↔ Descends t b c ancestor :=
  ⟨fun h => h.congr_right hd, fun h => h.congr_right hd.symm⟩

namespace Charted

theorem descends_extends (h : Charted t b) (hext : t.Extends t') :
    Descends t' b child ancestor ↔ Descends t b child ancestor := by
  rw [Descends, Descends, derives_extends h.declares hext]

theorem overlong_extends (h : Charted t b) (hext : t.Extends t') :
    Overlong t' b c ↔ Overlong t b c := by
  rw [Overlong, Overlong, climbs_extends h.declares hext]

/-- Members do not show in the hierarchy. -/
theorem sameClasses (h : Charted t b) (hs : b.SameClasses b') : Charted t b' where
  fresh := h.fresh.step h.fresh.canonical (.refl t) rfl (hs.moves h.fresh.loadable)
  alone := h.alone.sameClasses hs
  declares c decl hclass := h.declares c decl (by rwa [CodeBase.class?, hs.classes] at hclass)
  divided := h.divided

/-- A question for a subclass is refused where the hierarchy is too deep, and else answered; then
the next one can be asked. -/
theorem isSubclassOf_cases (h : Charted t b) (hc : child.Regular) (ancestor : ClassName) :
    ((child.fold ≠ ancestor.fold ∧ Overlong t b child) ∧
      ∃ v, CodeBase.isSubclassOf child ancestor (t, b) = .error v) ∨
    (¬ (child.fold ≠ ancestor.fold ∧ Overlong t b child) ∧
      ∃ r t', CodeBase.isSubclassOf child ancestor (t, b) = .ok (r, t', b) ∧ t.Extends t' ∧
        Charted t' b ∧ (r = true ↔ Descends t b child ancestor)) := by
  by_cases hasked : child.fold ≠ ancestor.fold ∧ b.isRegistered child = true
  · obtain ⟨hne, hregistered⟩ := hasked
    rcases CodeBase.isSubclassOf_cases h.fresh h.alone h.declares h.divided hc.wellFormed hc.divided
      hne hregistered with ⟨hlong, key, hrun⟩ | ⟨hshort, r, t', hrun, hext, hnames, hr⟩
    · exact .inl ⟨⟨hne, hregistered, hlong⟩, _, hrun⟩
    · refine .inr ⟨fun hover => hshort hover.2.2, r, t', hrun, hext, ?_, ?_⟩
      · refine ⟨?_, h.alone, h.declares.extends hext, hnames⟩
        have hname : (QualifiedName.make child.space child.name).WellFormed := by
          rw [hc.typable.normalized]
          exact hc.wellFormed
        exact ExpandM.keepsFresh_isSubclassOf ancestor hname _ _ r h.fresh hrun
      · rw [hr]
        exact ⟨fun hreach => ⟨hregistered, hne, hreach⟩, fun hdescends => hdescends.2.2⟩
  · have hfalse : child.fold = ancestor.fold ∨ b.isRegistered child = false := by
      rwa [not_and_or, not_not, Bool.not_eq_true] at hasked
    refine .inr ⟨fun hover => hasked ⟨hover.1, hover.2.1⟩, false, t,
      CodeBase.isSubclassOf_eq_false h.alone hfalse, .refl t, h, ?_⟩
    exact ⟨fun hr => absurd hr Bool.false_ne_true, fun hall => absurd ⟨hall.2.1, hall.1⟩ hasked⟩

end Charted

/-- The world has the hierarchy, maybe with more types. -/
structure World.Charts (w : World) (t : TypeTable) (b : CodeBase) : Prop where
  base : w.base = b
  charted : Charted w.types b
  types : t.Extends w.types

namespace AnalysisM

/-- Wherever the hierarchy is at hand, the work is refused under the first condition, and else tells
whether the second one holds. -/
def Responds (t : TypeTable) (b : CodeBase) (p : AnalysisM Bool) (refused yes : Prop) : Prop :=
  ∀ (s : Setup) (w : World), w.Charts t b →
    (refused ∧ ∃ v, p s w = .error v) ∨
      (¬ refused ∧ ∃ r w', p s w = .ok (.ok r, w') ∧ w'.Charts t b ∧ (r = true ↔ yes))

namespace Responds

variable {p q : AnalysisM Bool} {refused refused' yes yes' : Prop}

theorem pure (t : TypeTable) (b : CodeBase) (r : Bool) :
    Responds t b (pure r) False (r = true) :=
  fun _ w hw => .inr ⟨not_false, r, w, rfl, hw, Iff.rfl⟩

theorem congr (hp : Responds t b p refused yes) (hrefused : refused ↔ refused')
    (hyes : yes ↔ yes') : Responds t b p refused' yes' := by
  rw [← propext hrefused, ← propext hyes]
  exact hp

/-- A question that is asked only if the first one is answered in the negative. -/
theorem orElse (hp : Responds t b p refused yes) (hq : Responds t b q refused' yes') :
    Responds t b (do if ← p then return true else q) (refused ∨ ¬ yes ∧ refused') (yes ∨ yes') := by
  intro s w hw
  rcases hp s w hw with ⟨hrefused, v, hrun⟩ | ⟨hnot, r, w', hrun, hw', hr⟩
  · refine .inl ⟨.inl hrefused, v, ?_⟩
    rw [bind_apply, hrun]
  · rw [bind_apply, hrun]
    cases r with
    | true =>
      have hyes : yes := hr.1 rfl
      exact .inr ⟨fun h => h.elim hnot fun h' => h'.1 hyes, true, w', rfl, hw', by simp [hyes]⟩
    | false =>
      have hno : ¬ yes := fun h => Bool.false_ne_true (hr.2 h)
      rcases hq s w' hw' with ⟨hrefused', v, hrun'⟩ | ⟨hnot', r', w'', hrun', hw'', hr'⟩
      · exact .inl ⟨.inr ⟨hno, hrefused'⟩, v, hrun'⟩
      · refine .inr ⟨fun h => h.elim hnot fun h' => hnot' h'.2, r', w'', hrun', hw'', ?_⟩
        rw [hr', or_iff_right hno]

end Responds

theorem responds_isSubclassOf (h : Charted t b) (hc : child.Regular) (ancestor : ClassName) :
    Responds t b (isSubclassOf child ancestor) (child.fold ≠ ancestor.fold ∧ Overlong t b child)
      (Descends t b child ancestor) := by
  intro s w hw
  have hbase : (w.types, w.base) = (w.types, b) := congrArg _ hw.base
  rw [← h.overlong_extends hw.types, ← h.descends_extends hw.types]
  rcases hw.charted.isSubclassOf_cases hc ancestor with
    ⟨hrefused, v, hrun⟩ | ⟨hnot, r, t', hrun, hext, hcharted, hr⟩
  · refine .inl ⟨hrefused, v, ?_⟩
    show (CodeBase.isSubclassOf child ancestor (w.types, w.base) >>= fun x => _) = _
    rw [hbase, hrun]
    rfl
  · refine .inr ⟨hnot, r, _, hierarchy_eq_ok.2 ⟨r, t', b, hbase ▸ hrun, rfl, rfl⟩, ?_, hr⟩
    exact ⟨rfl, hcharted, hw.types.trans hext⟩

/-! ### The check of access -/

end AnalysisM

/-- Whether the class is registered as a trait. -/
def CodeBase.isTrait (b : CodeBase) (c : ClassName) : Bool :=
  ((b.class? c).map ClassDecl.isTrait).getD false

theorem CodeBase.SameClasses.isTrait_eq (hs : b.SameClasses b') (c : ClassName) :
    b'.isTrait c = b.isTrait c := by
  rw [CodeBase.isTrait, CodeBase.isTrait, CodeBase.class?, CodeBase.class?, hs.classes]

/-- The member is declared by the class of the code, or it is of a trait and reached through that
class. -/
def IsNear (b : CodeBase) (here declaring owner : ClassName) : Prop :=
  here.fold = declaring.fold ∨ b.isTrait declaring = true ∧ here.fold = owner.fold

/-- From the code of a class, a hidden member that one class declares may be accessed through
another one. -/
def Permits (t : TypeTable) (b : CodeBase) (here declaring owner : ClassName) (isPrivate : Bool) :
    Prop :=
  IsNear b here declaring owner ∨
    isPrivate = false ∧ ¬ Overlong t b here ∧
      (Descends t b here declaring ∨ ¬ Overlong t b declaring ∧
        (Descends t b declaring here ∨ b.isTrait declaring = true ∧ Descends t b here owner))

theorem permits_congr {owner' : ClassName} {isPrivate : Bool} (ho : owner.fold = owner'.fold) :
    Permits t b here declaring owner isPrivate ↔ Permits t b here declaring owner' isPrivate := by
  rw [Permits, Permits, IsNear, IsNear, ho, descends_congr_right ho]

/-- Members do not show in what is permitted. -/
theorem permits_sameClasses {isPrivate : Bool} (hs : b.SameClasses b') :
    Permits t b' here declaring owner isPrivate ↔ Permits t b here declaring owner isPrivate := by
  have hclass : b'.class? = b.class? := by
    funext c
    rw [CodeBase.class?, CodeBase.class?, hs.classes]
  have hregistered : b'.isRegistered = b.isRegistered := by
    funext c
    rw [CodeBase.isRegistered, CodeBase.isRegistered, hs.classes]
  have hderives : Derives t b' = Derives t b := by
    funext c d
    rw [Derives, Derives, hclass]
  simp only [Permits, IsNear, hs.isTrait_eq, Overlong, Descends, Climbs, hregistered, hderives]

namespace AnalysisM

/-- The work comes to an end without failing. -/
def Succeeds {α : Type} (p : AnalysisM α) (s : Setup) (w : World) : Prop :=
  ∃ a w', p s w = .ok (.ok a, w')

variable {ctx : Context} {isPrivate : Bool}

/-- The questions that are asked for a protected member of another class. -/
def askFamily (here declaring owner : ClassName) (inTrait : Bool) : AnalysisM Bool := do
  if ← isSubclassOf here declaring then return true
  else if ← isSubclassOf declaring here then return true
  else if inTrait then isSubclassOf here owner
  else return false

theorem canAccess_of_near {s : Setup} {w : World} (hctx : ctx.owner = some here)
    (hnear : IsNear w.base here declaring owner) :
    canAccess ctx declaring owner isPrivate s w = .ok (.ok true, w) := by
  unfold canAccess
  rw [hctx]
  dsimp only
  by_cases hself : here.fold = declaring.fold
  · rw [if_pos (QualifiedName.sameClass_iff.2 hself)]
    rfl
  · obtain ⟨htrait, howner⟩ := hnear.resolve_left hself
    rw [if_neg (mt QualifiedName.sameClass_iff.1 hself)]
    show (if w.base.isTrait declaring && here.sameClass owner then _ else _ :
      AnalysisM Bool) s w = _
    rw [htrait, Bool.true_and, if_pos (QualifiedName.sameClass_iff.2 howner)]
    rfl

theorem canAccess_of_far {s : Setup} {w : World} (hctx : ctx.owner = some here)
    (hfar : ¬ IsNear w.base here declaring owner) :
    canAccess ctx declaring owner isPrivate s w =
      if isPrivate then .ok (.ok false, w)
      else askFamily here declaring owner (w.base.isTrait declaring) s w := by
  obtain ⟨hself, howner⟩ := not_or.1 hfar
  unfold canAccess
  rw [hctx]
  dsimp only
  rw [if_neg (mt QualifiedName.sameClass_iff.1 hself)]
  show (if w.base.isTrait declaring && here.sameClass owner then _ else _ : AnalysisM Bool) s w = _
  rw [if_neg (mt (fun h => ?_) howner)]
  · cases isPrivate <;> rfl
  · rw [Bool.and_eq_true, QualifiedName.sameClass_iff] at h
    exact h

/-- The last question is refused only where the first one was. -/
theorem responds_askFamily (h : Charted t b) (hdeclaring : declaring.Regular) (hhere : here.Regular)
    (hne : here.fold ≠ declaring.fold) (owner : ClassName) (inTrait : Bool) :
    Responds t b (askFamily here declaring owner inTrait)
      (Overlong t b here ∨ ¬ Descends t b here declaring ∧ Overlong t b declaring)
      (Descends t b here declaring ∨ Descends t b declaring here ∨
        inTrait = true ∧ Descends t b here owner) := by
  have hthird : Responds t b (if inTrait then isSubclassOf here owner else pure false)
      (inTrait = true ∧ here.fold ≠ owner.fold ∧ Overlong t b here)
      (inTrait = true ∧ Descends t b here owner) := by
    cases inTrait with
    | true => simpa using responds_isSubclassOf h hhere owner
    | false => simpa using Responds.pure t b false
  refine ((responds_isSubclassOf h hhere declaring).orElse
    ((responds_isSubclassOf h hdeclaring here).orElse hthird)).congr ?_ Iff.rfl
  constructor
  · rintro (⟨-, hover⟩ | ⟨hno, ⟨-, hover⟩ | ⟨-, -, -, hover⟩⟩)
    · exact .inl hover
    · exact .inr ⟨hno, hover⟩
    · exact .inl hover
  · rintro (hover | ⟨hno, hover⟩)
    · exact .inl ⟨hne, hover⟩
    · exact .inr ⟨hno, .inl ⟨hne.symm, hover⟩⟩

/-- Access is granted exactly where it is permitted. -/
theorem canAccess_iff (h : Charted t b) (hdeclaring : declaring.Regular) (hhere : here.Regular)
    (hctx : ctx.owner = some here) {s : Setup} {w : World} (hw : w.Charts t b) :
    (∃ w', canAccess ctx declaring owner isPrivate s w = .ok (.ok true, w')) ↔
      Permits t b here declaring owner isPrivate := by
  have hbase := hw.base
  by_cases hnear : IsNear b here declaring owner
  · have hnear' : IsNear w.base here declaring owner := hbase ▸ hnear
    exact ⟨fun _ => .inl hnear, fun _ => ⟨w, canAccess_of_near hctx hnear'⟩⟩
  rw [canAccess_of_far hctx (hbase ▸ hnear), Permits, or_iff_right hnear, hbase]
  cases isPrivate with
  | true => simp
  | false =>
    simp only [Bool.false_eq_true, if_false, true_and]
    rcases responds_askFamily h hdeclaring hhere (fun hself => hnear (.inl hself)) owner
      (b.isTrait declaring) s w hw with ⟨hrefused, v, hrun⟩ | ⟨hnot, r, w', hrun, -, hr⟩
    · rw [hrun]
      constructor
      · rintro ⟨_, hok⟩
        cases hok
      · rintro ⟨hshort, hgranted⟩
        rcases hrefused with hover | ⟨hno, hover⟩
        · exact absurd hover hshort
        · exact absurd hover (hgranted.resolve_left hno).1
    · obtain ⟨hshort, hshort'⟩ := not_or.1 hnot
      rw [hrun]
      constructor
      · rintro ⟨_, hok⟩
        cases hok
        refine ⟨hshort, or_iff_not_imp_left.2 fun hno => ?_⟩
        exact ⟨fun hover => hshort' ⟨hno, hover⟩, (hr.1 rfl).resolve_left hno⟩
      · rintro ⟨-, hgranted⟩
        exact ⟨w', by rw [hr.2 (hgranted.imp_right And.right)]⟩

end AnalysisM

/-! ### Members that may be hidden -/

/-- A sort of members that may be hidden, with the check of access to them. -/
class Guarded (μ : Type) [ClassMember μ] [MemberSort μ] where
  element : μ → Element
  members_put : ∀ (b : CodeBase) (m : μ),
    (members (b.put (element m)) : MemberTables μ) = (members b).add m
  sameClasses_put : ∀ (b : CodeBase) (m : μ), b.SameClasses (b.put (element m))
  valid : ∀ {b : CodeBase}, b.Fresh → (members b : MemberTables μ).Valid
  modifiers_moveTo : ∀ (m : μ) (owner : ClassName), modifiers (moveTo m owner) = modifiers m
  /-- Fails if the member is out of reach. -/
  check : Context → μ → Nat → AnalysisM Unit
  /-- The issue of a member that is out of reach. -/
  issue : μ → IssueKind
  check_eq : ∀ (ctx : Context) (m : μ) (line : Nat), check ctx m line =
    if (modifiers m).isVisible then pure ()
    else do
      if ← AnalysisM.canAccess ctx (definedAs m).owner (name m).owner (modifiers m).isPrivate then
        pure ()
      else
        AnalysisM.failWith ctx (issue m) line
          (AnalysisM.accessArgs (nameText μ (name m)) (location m))

instance : Guarded Method where
  element := .method
  members_put _ _ := rfl
  sameClasses_put _ _ := ⟨rfl, rfl, rfl, rfl⟩
  valid h := h.methods
  modifiers_moveTo _ _ := rfl
  check := AnalysisM.checkMethodAccess
  issue m := if m.modifiers.isPrivate then .accessMethodPrivate else .accessMethodProtected
  check_eq _ _ _ := rfl

instance : Guarded Property where
  element := .property
  members_put _ _ := rfl
  sameClasses_put _ _ := ⟨rfl, rfl, rfl, rfl⟩
  valid h := h.properties
  modifiers_moveTo _ _ := rfl
  check := AnalysisM.checkPropertyAccess
  issue p := if p.modifiers.isPrivate then .accessPropertyPrivate else .accessPropertyProtected
  check_eq _ _ _ := rfl

namespace Guarded

variable {μ : Type} [ClassMember μ] [MemberSort μ] [Guarded μ] {ctx : Context} {m m' found : μ}
variable {trait user : ClassName} {n : String}

/-- The check of a hidden member succeeds where access is granted. -/
theorem succeeds_check_iff (hm : (modifiers m).isVisible = false) (line : Nat) {s : Setup}
    {w : World} :
    AnalysisM.Succeeds (check ctx m line) s w ↔
      ∃ w', AnalysisM.canAccess ctx (definedAs m).owner (name m).owner (modifiers m).isPrivate s w =
        .ok (.ok true, w') := by
  rw [check_eq, if_neg (by simp [hm])]
  constructor
  · rintro ⟨⟨⟩, w', h⟩
    obtain ⟨granted, w₁, hrun, h⟩ := AnalysisM.bind_eq_ok.1 h
    cases granted with
    | true => exact ⟨w₁, hrun⟩
    | false => cases h
  · rintro ⟨w', hrun⟩
    exact ⟨(), w', AnalysisM.bind_eq_ok.2 ⟨true, w', hrun, rfl⟩⟩

/-- The member is declared by the class under the name. -/
structure DeclaredBy (m : μ) (owner : ClassName) (n : String) : Prop where
  name : ClassMember.name m = ⟨owner, n⟩
  definedAs : ClassMember.definedAs m = ⟨owner, n⟩

/-- The trait declares the hidden member, and a class takes it from there; the other member is the
same one declared by that class. -/
structure FromTrait (b : CodeBase) (h : b.Acyclic) (m m' : μ) (n : String)
    (trait user : ClassName) : Prop where
  declared : DeclaredBy m trait n
  declared' : DeclaredBy m' user n
  modifiers : ClassMember.modifiers m' = ClassMember.modifiers m
  hidden : (ClassMember.modifiers m).isVisible = false
  isTrait : b.isTrait trait = true
  not_isTrait : b.isTrait user = false
  uses : b.Hands h ((members b).add m) n trait user

/-- What was found in a class is a copy of the member there. -/
structure CopyAt (found m : μ) (c : ClassName) : Prop where
  owner : (ClassMember.name found).owner.fold = c.fold
  definedAs : ClassMember.definedAs found = ClassMember.definedAs m
  modifiers : ClassMember.modifiers found = ClassMember.modifiers m

theorem copyAt_of_alike (h : Alike found (moveTo m c)) : CopyAt found m c where
  owner := by rw [h.1, owner_moveTo]
  definedAs := by rw [h.definedAs_eq, definedAs_moveTo]
  modifiers := by rw [← modifiers_moveTo found, h.2, modifiers_moveTo]

/-- In a code base that has the member, a class that has it by the rule of inheritance is found to
have a copy once it was filled. -/
theorem exists_copyAt (hb : b.Fresh) (h : b.Acyclic) {order : List ClassName}
    (hc : b.isRegistered c = true) (hn : CodeBase.Names order c)
    (hm : Option.Rel Alike (b.resolveMember h ((members b).add m) n c) (some (moveTo m c))) :
    ∃ found : μ, (members (CodeBase.hydrateEach order (b.put (element m)))).get? c n = some found ∧
      CopyAt found m c := by
  have hsame := sameClasses_put b m
  have hput := hb.put (element m)
  rw [← hsame.resolveMember_eq h (hsame.acyclic h), ← members_put] at hm
  have hregistered : (b.put (element m)).isRegistered c = true := by
    rwa [CodeBase.isRegistered, hsame.classes]
  obtain ⟨found, hfound, halike⟩ := hput.exists_get? (valid hput) _ hregistered hn hm
  exact ⟨found, hfound, copyAt_of_alike halike⟩

/-- A class that receives the member of a trait from its user has a copy; and so it has of the
member of the user where this one declares it instead. -/
theorem exists_copies (hb : b.Fresh) (h : b.Acyclic) (hm : FromTrait b h m m' n trait user)
    (hreceives : b.Receives h ((members b).add m) n user c) {order order' : List ClassName}
    (hn : CodeBase.Names order c) (hn' : CodeBase.Names order' c) :
    ∃ found found' : μ,
      (members (CodeBase.hydrateEach order (b.put (element m)))).get? c n = some found ∧
      (members (CodeBase.hydrateEach order' (b.put (element m')))).get? c n = some found' ∧
      CopyAt found m c ∧ CopyAt found' m' c := by
  have hv : (members b : MemberTables μ).Valid := valid hb
  have hregistered := hreceives.isRegistered hb.loadable
    (hm.uses.isSource.isRegistered_user hb.loadable)
  have htrait : b.resolveMember h ((members b).add m) n user = some (moveTo m user) := by
    rw [hm.uses.resolveMember_eq (hv.add m), CodeBase.resolveMember_eq, hv.get?_add,
      hm.declared.name,
      if_pos ⟨rfl, rfl⟩]
    rfl
  have huser : b.resolveMember h ((members b).add m') n user = some (moveTo m' user) := by
    have hmove := moveTo_owner m'
    rw [hm.declared'.name] at hmove
    rw [CodeBase.resolveMember_eq, hv.get?_add, hm.declared'.name, if_pos ⟨rfl, rfl⟩, hmove]
    rfl
  have hreceives' := hreceives.of_trait hv hm.declared.name hm.declared'.name hm.uses.isSource
  obtain ⟨found, hfound, hcopy⟩ := exists_copyAt hb h hregistered hn
    (hreceives.alike_moveTo (hv.add m) (by rw [htrait]; exact .some (Alike.refl _)))
  obtain ⟨found', hfound', hcopy'⟩ := exists_copyAt hb h hregistered hn'
    (hreceives'.alike_moveTo (hv.add m') (by rw [huser]; exact .some (Alike.refl _)))
  exact ⟨found, found', hfound, hfound', hcopy, hcopy'⟩

/-! ### Access through a class that was filled -/

theorem sameClasses_filled (hb : b.Fresh) (m : μ) (order : List ClassName) :
    b.SameClasses (CodeBase.hydrateEach order (b.put (element m))) :=
  (sameClasses_put b m).trans ((hb.put _).selfContained.sameClasses_hydrateEach order)

/-- A copy of a hidden member is within reach exactly where access is permitted to what its original
declares, through the class that has the copy. -/
theorem succeeds_check_copy_iff (h : Charted t b) {b' : CodeBase} (hsame : b.SameClasses b')
    (hdeclaring : (definedAs m).owner.Regular) (hhere : here.Regular) (hctx : ctx.owner = some here)
    (hhidden : (modifiers m).isVisible = false) (hcopy : CopyAt found m c) (line : Nat) {s : Setup}
    {w : World} (hw : w.types = t) :
    AnalysisM.Succeeds (check ctx found line) s { w with base := b' } ↔
      Permits t b here (definedAs m).owner c (modifiers m).isPrivate := by
  subst hw
  have hcharts : World.Charts { w with base := b' } w.types b' :=
    ⟨rfl, h.sameClasses hsame, .refl _⟩
  rw [succeeds_check_iff (hcopy.modifiers ▸ hhidden), hcopy.definedAs, hcopy.modifiers,
    AnalysisM.canAccess_iff (h.sameClasses hsame) hdeclaring hhere hctx hcharts,
    permits_sameClasses hsame, permits_congr hcopy.owner]

/-- A hidden member that a class uses from a trait passes for one of the class that it is reached
through, which is the user or receives the member from it. From the code of another class than the
trait, the copy of that class can be accessed in these cases: from its own code; and unless the
member is private, from the descendants and ancestors of the trait and from the descendants of that
class. Had the user declared the member, it could be accessed from the code of the user, and unless
it is private from the descendants and ancestors of the user. For a private member both come to the
same only where the code is of both of these classes or of neither. -/
theorem succeeds_check_fromTrait (hb : b.Fresh) (h : b.Acyclic) (hcharted : Charted t b)
    (hm : FromTrait b h m m' n trait user) (hreceives : b.Receives h ((members b).add m) n user c)
    (hregular : trait.Regular ∧ user.Regular ∧ here.Regular) (hhere : here.fold ≠ trait.fold)
    (hctx : ctx.owner = some here) {order order' : List ClassName}
    (hn : CodeBase.Names order c) (hn' : CodeBase.Names order' c) (line : Nat) (s : Setup)
    (w : World) (hw : w.types = t) :
    ∃ found found' : μ,
      (members (CodeBase.hydrateEach order (b.put (element m)))).get? c n = some found ∧
      (members (CodeBase.hydrateEach order' (b.put (element m')))).get? c n = some found' ∧
      let succeeds := AnalysisM.Succeeds (check ctx found line) s
        { w with base := CodeBase.hydrateEach order (b.put (element m)) }
      let succeeds' := AnalysisM.Succeeds (check ctx found' line) s
        { w with base := CodeBase.hydrateEach order' (b.put (element m')) }
      let isPrivate := (modifiers m).isPrivate
      (succeeds ↔ here.fold = c.fold ∨ isPrivate = false ∧ ¬ Overlong t b here ∧
        (Descends t b here trait ∨ ¬ Overlong t b trait ∧
          (Descends t b trait here ∨ Descends t b here c))) ∧
      (succeeds' ↔ here.fold = user.fold ∨ isPrivate = false ∧ ¬ Overlong t b here ∧
        (Descends t b here user ∨ ¬ Overlong t b user ∧ Descends t b user here)) ∧
      (isPrivate = true →
        ((succeeds ↔ succeeds') ↔ (here.fold = c.fold ↔ here.fold = user.fold))) := by
  obtain ⟨hrtrait, hruser, hrhere⟩ := hregular
  obtain ⟨found, found', hfound, hfound', hcopy, hcopy'⟩ :=
    exists_copies hb h hm hreceives hn hn'
  have hiff : AnalysisM.Succeeds (check ctx found line) s
      { w with base := CodeBase.hydrateEach order (b.put (element m)) } ↔
      Permits t b here trait c (modifiers m).isPrivate := by
    rw [succeeds_check_copy_iff hcharted (sameClasses_filled hb m order)
      (by rwa [hm.declared.definedAs]) hrhere hctx hm.hidden hcopy line hw, hm.declared.definedAs]
  have hiff' : AnalysisM.Succeeds (check ctx found' line) s
      { w with base := CodeBase.hydrateEach order' (b.put (element m')) } ↔
      Permits t b here user c (modifiers m).isPrivate := by
    rw [succeeds_check_copy_iff hcharted (sameClasses_filled hb m' order')
      (by rwa [hm.declared'.definedAs]) hrhere hctx (hm.modifiers ▸ hm.hidden) hcopy' line hw,
      hm.declared'.definedAs, hm.modifiers]
  refine ⟨found, found', hfound, hfound', hiff.trans ?_, hiff'.trans ?_, fun hprivate => ?_⟩
  · simp only [Permits, IsNear, hm.isTrait, hhere, false_or, true_and]
  · simp only [Permits, IsNear, hm.not_isTrait, Bool.false_eq_true, false_and, or_false]
  · rw [hiff, hiff']
    simp only [Permits, IsNear, hm.isTrait, hm.not_isTrait, hhere, hprivate, Bool.false_eq_true,
      reduceCtorEq, false_and, true_and, false_or, or_false]

end Guarded

/-! ### A class that uses a trait, and a class below it -/

open Guarded

/-- The trait. -/
def counts : ClassDecl where
  name := .make "\\" "Counts"
  kind := .trait
  type := .ofList [31]

/-- The class that uses the trait. -/
def page : ClassDecl where
  name := .make "\\" "Page"
  traits := [.make "\\" "Counts"]
  type := .ofList [32]

/-- The class below it. -/
def home : ClassDecl where
  name := .make "\\" "Home"
  parent := some (.make "\\" "Page")
  type := .ofList [33, 32]

/-- The types of the classes are asked for before these are registered. -/
def pageRequests : List Request :=
  [.type (.classType counts.name []), .type (.classType page.name []),
    .type (.classType home.name []), .register (.classDecl counts), .register (.classDecl page),
    .register (.classDecl home)]

/-- The code base with the three classes. -/
def pageBase : CodeBase := .registered true [.classDecl counts, .classDecl page, .classDecl home]

/-- A method that one of the classes declares. -/
def countOf (owner : ClassName) (modifiers : Modifiers) : Method where
  name := ⟨owner, "count"⟩
  modifiers := modifiers

theorem fresh_pageBase : pageBase.Fresh := CodeBase.fresh_registered true _

theorem class?_pageBase (c : ClassName) :
    pageBase.class? c = if home.name.fold = c.fold then some home
      else if page.name.fold = c.fold then some page
      else if counts.name.fold = c.fold then some counts else none := by
  have hfirst := (CodeBase.fresh_create true).addClass counts
  have hsecond := hfirst.addClass page
  show (((CodeBase.create true).addClass counts).addClass page |>.addClass home).class? c = _
  rw [CodeBase.class?_addClass hsecond.classes, CodeBase.class?_addClass hfirst.classes,
    CodeBase.class?_addClass (CodeBase.fresh_create true).classes, CodeBase.class?_create]

theorem sourcesOf_pageBase (c : ClassName) :
    pageBase.sourcesOf c = if home.name.fold = c.fold then [page.name]
      else if page.name.fold = c.fold then [counts.name] else [] := by
  have hregistered : pageBase.isRegistered page.name = true ∧
      pageBase.isRegistered counts.name = true := by
    rw [fresh_pageBase.isRegistered_eq, fresh_pageBase.isRegistered_eq, class?_pageBase,
      class?_pageBase]
    decide
  rw [CodeBase.sourcesOf, class?_pageBase]
  split
  · exact List.filter_cons_of_pos hregistered.1
  · split
    · exact List.filter_cons_of_pos hregistered.2
    · split <;> rfl

theorem acyclic_pageBase : pageBase.Acyclic := by
  let rank (k : QualifiedName) : Nat :=
    if home.name.fold = k then 2 else if page.name.fold = k then 1 else 0
  refine CodeBase.acyclic_of_measure (fun c => rank c.fold) fun s c => ?_
  rintro ⟨s', hs', hfold⟩
  rw [sourcesOf_pageBase] at hs'
  show rank s.fold < rank c.fold
  rw [← hfold]
  split at hs'
  · next hc =>
    rw [List.mem_singleton.1 hs', ← hc]
    decide
  · split at hs'
    · next hc =>
      rw [List.mem_singleton.1 hs', ← hc]
      decide
    · cases hs'

variable {mods : Modifiers}

theorem get?_add_countOf (owner c : ClassName) (mods : Modifiers) :
    (pageBase.methods.add (countOf owner mods)).get? c "count" =
      if owner.fold = c.fold then some (countOf owner mods) else none := by
  show (({} : MemberTables Method).add _).get? c "count" = _
  rw [MemberTables.valid_empty.get?_add, MemberTables.get?_empty]
  exact if_congr (and_iff_left rfl) rfl rfl

/-- The class takes the method from the trait, and the class below it takes it from there. -/
theorem hands_pageBase (mods : Modifiers) :
    pageBase.Hands acyclic_pageBase (pageBase.methods.add (countOf counts.name mods)) "count"
        counts.name page.name ∧
      pageBase.Hands acyclic_pageBase (pageBase.methods.add (countOf counts.name mods)) "count"
        page.name home.name := by
  have hcounts : pageBase.Offers acyclic_pageBase
      (pageBase.methods.add (countOf counts.name mods)) "count" counts.name = true := by
    refine CodeBase.offers_iff.2 (.inl ?_)
    rw [get?_add_countOf, if_pos rfl]
    rfl
  have hpage : pageBase.Offers acyclic_pageBase
      (pageBase.methods.add (countOf counts.name mods)) "count" page.name = true := by
    refine CodeBase.offers_iff.2 (.inr ⟨counts.name, ?_, hcounts⟩)
    rw [sourcesOf_pageBase, if_neg (by decide), if_pos rfl]
    exact List.mem_singleton_self _
  refine ⟨⟨?_, counts.name, ?_, rfl⟩, ⟨?_, page.name, ?_, rfl⟩⟩
  · rw [get?_add_countOf, if_neg (by decide)]
  · rw [sourcesOf_pageBase, if_neg (by decide), if_pos rfl]
    exact List.find?_cons_of_pos hcounts
  · rw [get?_add_countOf, if_neg (by decide)]
  · rw [sourcesOf_pageBase, if_pos rfl]
    exact List.find?_cons_of_pos hpage

theorem fromTrait_pageBase (hmods : mods.isVisible = false) :
    FromTrait pageBase acyclic_pageBase (countOf counts.name mods) (countOf page.name mods) "count"
      counts.name page.name where
  declared := ⟨rfl, rfl⟩
  declared' := ⟨rfl, rfl⟩
  modifiers := rfl
  hidden := hmods
  isTrait := by
    rw [CodeBase.isTrait, class?_pageBase]
    decide
  not_isTrait := by
    rw [CodeBase.isTrait, class?_pageBase]
    decide
  uses := (hands_pageBase mods).1

theorem receives_pageBase (mods : Modifiers) :
    pageBase.Receives acyclic_pageBase (pageBase.methods.add (countOf counts.name mods)) "count"
      page.name home.name :=
  .inr (.single (hands_pageBase mods).2)

/-- The types that are asked for, from place 31 on. -/
def pageRows : List TypeEntry :=
  [⟨⟨.object counts.name [], false⟩, "\\Counts"⟩, ⟨⟨.object page.name [], false⟩, "\\Page"⟩,
    ⟨⟨.object home.name [], false⟩, "\\Home"⟩]

theorem run_pageRequests :
    ∃ t names, pageRequests.forM Request.run (.initial false, .create true) =
        .ok ((), t, pageBase) ∧ t.Lists pageRows names := by
  have hl := TypeTable.lists_initial false
  generalize TypeTable.initial false = t₀ at hl ⊢
  obtain ⟨t₁, h₁, l₁, -⟩ := hl.intern_new (TypeTable.writes_object _ counts.name false)
    (by decide) rfl
  obtain ⟨t₂, h₂, l₂, -⟩ := l₁.intern_new (TypeTable.writes_object _ page.name false)
    (by decide) rfl
  obtain ⟨t₃, h₃, l₃, -⟩ := l₂.intern_new (TypeTable.writes_object _ home.name false)
    (by decide) rfl
  refine ⟨t₃, _, ?_, l₃⟩
  refine ExpandM.bind_eq_ok.2 ⟨(), (t₁, .create true), Request.run_type h₁, ?_⟩
  refine ExpandM.bind_eq_ok.2 ⟨(), (t₂, .create true), Request.run_type h₂, ?_⟩
  exact ExpandM.bind_eq_ok.2 ⟨(), (t₃, .create true), Request.run_type h₃, rfl⟩

theorem regular_pageBase : counts.name.Regular ∧ page.name.Regular ∧ home.name.Regular :=
  ⟨⟨⟨["Counts".toList], by decide, by decide, by decide⟩, by unfold QualifiedName.Divided; decide⟩,
    ⟨⟨["Page".toList], by decide, by decide, by decide⟩, by unfold QualifiedName.Divided; decide⟩,
    ⟨⟨["Home".toList], by decide, by decide, by decide⟩, by unfold QualifiedName.Divided; decide⟩⟩

theorem isClassType_pageRows {t : TypeTable} {names : List (String × TypeId)}
    (h : t.Lists pageRows names) :
    t.IsClassType 31 counts.name ∧ t.IsClassType 32 page.name ∧ t.IsClassType 33 home.name :=
  ⟨⟨[], TypeTable.get?_eq (h.entry (i := 31) (e := pageRows[0]) rfl)⟩,
    ⟨[], TypeTable.get?_eq (h.entry (i := 32) (e := pageRows[1]) rfl)⟩,
    ⟨[], TypeTable.get?_eq (h.entry (i := 33) (e := pageRows[2]) rfl)⟩⟩

theorem charted_pageBase {t : TypeTable} {names : List (String × TypeId)}
    (hrun : pageRequests.forM Request.run (.initial false, .create true) = .ok ((), t, pageBase))
    (hlists : t.Lists pageRows names) : Charted t pageBase where
  fresh := by
    obtain ⟨hcounts, hpage, hhome⟩ := regular_pageBase
    refine keepsFresh_session (fun r hr => ?_) _ _ () (cacheFresh_start false true) hrun
    simp only [pageRequests, List.mem_cons, List.not_mem_nil, or_false] at hr
    rcases hr with rfl | rfl | rfl | rfl | rfl | rfl
    · refine ⟨trivial, ?_⟩
      rintro kind ⟨⟩
      exact hcounts.wellFormed
    · refine ⟨trivial, ?_⟩
      rintro kind ⟨⟩
      exact hpage.wellFormed
    · refine ⟨trivial, ?_⟩
      rintro kind ⟨⟩
      exact hhome.wellFormed
    all_goals exact ⟨trivial, trivial⟩
  alone := fresh_pageBase.selfContained
  declares := by
    obtain ⟨hcounts, hpage, hhome⟩ := isClassType_pageRows hlists
    intro c decl hclass i hi
    rw [class?_pageBase] at hclass
    split at hclass
    · cases hclass
      have hi' : i = 33 ∨ i = 32 := by simpa [home] using hi
      rcases hi' with rfl | rfl
      · exact ⟨_, hhome⟩
      · exact ⟨_, hpage⟩
    · split at hclass
      · cases hclass
        obtain rfl : i = 32 := by simpa [page] using hi
        exact ⟨_, hpage⟩
      · split at hclass
        · cases hclass
          obtain rfl : i = 31 := by simpa [counts] using hi
          exact ⟨_, hcounts⟩
        · cases hclass
  divided := by
    refine hlists.namesDivided fun e he => ?_
    simp only [pageRows, List.mem_cons, List.not_mem_nil, or_false] at he
    rcases he with rfl | rfl | rfl
    · exact regular_pageBase.1.divided
    · exact regular_pageBase.2.1.divided
    · exact regular_pageBase.2.2.divided

/-- Only the class below the user of the trait derives from another one. -/
theorem not_descends_pageBase {t : TypeTable} {names : List (String × TypeId)}
    (hlists : t.Lists pageRows names) (hc : home.name.fold ≠ c.fold) :
    ¬ Descends t pageBase c d := by
  obtain ⟨hcounts, hpage, -⟩ := isClassType_pageRows hlists
  rintro ⟨-, hne, hreach⟩
  rcases hreach.cases_head with rfl | ⟨e, ⟨hedge, decl, hclass, i, hi, e', he', hfold⟩, -⟩
  · exact hne rfl
  rw [class?_pageBase, if_neg hc] at hclass
  split at hclass
  · next hown =>
    cases hclass
    obtain rfl : i = 32 := by simpa [page] using hi
    rw [hpage.classOf?] at he'
    cases he'
    exact hedge (hown.symm.trans hfold)
  · split at hclass
    · next hown =>
      cases hclass
      obtain rfl : i = 31 := by simpa [counts] using hi
      rw [hcounts.classOf?] at he'
      cases he'
      exact hedge (hown.symm.trans hfold)
    · cases hclass

/-- A place in the code of a class. -/
def within (owner : ClassName) : Context where
  file := "page.php"
  owner := some owner
  scope := 0
  cache := 0

/-- The world with a method of a class, where the class below the user of the trait was filled. -/
def pageWorld (t : TypeTable) (m : Method) : World where
  types := t
  base := CodeBase.hydrateEach [home.name] (pageBase.put (.method m))

/-- A protected method of the trait is out of reach for the user of the trait through the class
below; the user's own one would not be. -/
theorem succeeds_check_fromTrait_page :
    ∃ (t : TypeTable) (found found' : Method), Charted t pageBase ∧
      let m := countOf counts.name { isProtected := true }
      let m' := countOf page.name { isProtected := true }
      FromTrait pageBase acyclic_pageBase m m' "count" counts.name page.name ∧
      pageBase.Receives acyclic_pageBase (pageBase.methods.add m) "count" page.name home.name ∧
      page.name.fold ≠ counts.name.fold ∧
      (pageWorld t m).base.methods.get? home.name "count" = some found ∧
      (pageWorld t m').base.methods.get? home.name "count" = some found' ∧
      ¬ AnalysisM.Succeeds (AnalysisM.checkMethodAccess (within page.name) found 9) {}
        (pageWorld t m) ∧
      AnalysisM.Succeeds (AnalysisM.checkMethodAccess (within page.name) found' 9) {}
        (pageWorld t m') := by
  obtain ⟨t, names, hrun, hlists⟩ := run_pageRequests
  have hcharted := charted_pageBase hrun hlists
  have hm : FromTrait pageBase acyclic_pageBase (countOf counts.name { isProtected := true })
      (countOf page.name { isProtected := true }) "count" counts.name page.name :=
    fromTrait_pageBase rfl
  have hreceives := receives_pageBase { isProtected := true }
  have hhere : page.name.fold ≠ counts.name.fold := by decide
  have hn : CodeBase.Names [home.name] home.name := ⟨home.name, List.mem_singleton_self _, rfl⟩
  obtain ⟨hcounts, hpage, -⟩ := regular_pageBase
  obtain ⟨found, found', hfound, hfound', hiff, hiff', -⟩ :=
    succeeds_check_fromTrait fresh_pageBase acyclic_pageBase hcharted hm hreceives
      ⟨hcounts, hpage, hpage⟩ hhere (show (within page.name).owner = _ from rfl) hn hn 9 {}
      { types := t, base := pageBase } rfl
  refine ⟨t, found, found', hcharted, hm, hreceives, hhere, hfound, hfound', ?_, hiff'.2 (.inl rfl)⟩
  intro hsucceeds
  have hnone : ∀ {c d : ClassName}, home.name.fold ≠ c.fold → ¬ Descends t pageBase c d :=
    not_descends_pageBase hlists
  rcases hiff.1 hsucceeds with hsame | ⟨-, -, hdescends | ⟨-, hdescends | hdescends⟩⟩
  · exact absurd hsame (by decide)
  · exact hnone (by decide) hdescends
  · exact hnone (by decide) hdescends
  · exact hnone (by decide) hdescends

/-- A private method of the trait is within reach for the code of the class below, as if this were
the class that uses the trait; the user's own one would not be. -/
theorem not_sameAccess_home :
    let m := countOf counts.name { isPrivate := true }
    let m' := countOf page.name { isPrivate := true }
    FromTrait pageBase acyclic_pageBase m m' "count" counts.name page.name ∧
      pageBase.Receives acyclic_pageBase (pageBase.methods.add m) "count" page.name home.name ∧
      home.name.fold ≠ counts.name.fold ∧
      ∀ t : TypeTable, ∃ found found' : Method,
        (pageWorld t m).base.methods.get? home.name "count" = some found ∧
        (pageWorld t m').base.methods.get? home.name "count" = some found' ∧
        AnalysisM.Succeeds (AnalysisM.checkMethodAccess (within home.name) found 9) {}
          (pageWorld t m) ∧
        ¬ AnalysisM.Succeeds (AnalysisM.checkMethodAccess (within home.name) found' 9) {}
          (pageWorld t m') := by
  intro m m'
  have hm : FromTrait pageBase acyclic_pageBase m m' "count" counts.name page.name :=
    fromTrait_pageBase rfl
  have hreceives := receives_pageBase { isPrivate := true }
  have hn : CodeBase.Names [home.name] home.name := ⟨home.name, List.mem_singleton_self _, rfl⟩
  refine ⟨hm, hreceives, by decide, fun t => ?_⟩
  obtain ⟨found, found', hfound, hfound', hcopy, hcopy'⟩ :=
    exists_copies fresh_pageBase acyclic_pageBase hm hreceives hn hn
  have htrait : ∀ m c, (pageWorld t m).base.isTrait c = pageBase.isTrait c := fun m c =>
    (sameClasses_filled fresh_pageBase m [home.name]).isTrait_eq c
  refine ⟨found, found', hfound, hfound', ?_, ?_⟩
  · refine (succeeds_check_iff (m := found) (hcopy.modifiers ▸ hm.hidden) 9).2 ⟨pageWorld t m, ?_⟩
    have hnear : IsNear (pageWorld t m).base home.name (definedAs found).owner
        (name found).owner := by
      refine .inr ⟨?_, hcopy.owner.symm⟩
      rw [htrait, hcopy.definedAs]
      exact hm.isTrait
    exact AnalysisM.canAccess_of_near rfl hnear
  · intro hsucceeds
    obtain ⟨w', hrun⟩ :=
      (succeeds_check_iff (m := found') (hcopy'.modifiers ▸ hm.modifiers ▸ hm.hidden) 9).1 hsucceeds
    have hfar : ¬ IsNear (pageWorld t m').base home.name (definedAs found').owner
        (name found').owner := by
      rw [hcopy'.definedAs, IsNear, htrait]
      rintro (hself | ⟨huser, -⟩)
      · exact absurd hself (by decide)
      · exact absurd (huser.symm.trans hm.not_isTrait) (by decide)
    rw [AnalysisM.canAccess_of_far rfl hfar, hcopy'.modifiers] at hrun
    cases hrun

end UnionInference
