import UnionInference.Proofs.CodeBase.LookUps
import UnionInference.Proofs.CodeBase.Retraction
import UnionInference.Proofs.CodeBase.TraitMembers
import UnionInference.Proofs.Table.Rows

/-!
Forgetting what was inherited. All that is left is what was registered, the last element under each
name, and no class counts as filled. From there on every question has the answer that it has in a code
base with the same registrations and no history, on cycles of classes too. Only the order in which
the members of a class are listed may tell the two apart: a member that was registered in place of a
copy stays in the place of the copy.
-/

namespace UnionInference

open ClassMember

/-! ### The keys of members -/

namespace MemberTables

variable {μ : Type} [ClassMember μ] {ms ms' : MemberTables μ} {c : ClassName}

/-- Every key under which something is found is the key of a name. -/
def Keyed (ms : MemberTables μ) : Prop :=
  ∀ (c : ClassName) (k : String), ((ms.table c).get? k).isSome = true → ∃ n, key μ n = k

theorem keyed_empty : ({} : MemberTables μ).Keyed := by
  intro c k hk
  simp [table, table?, OrderedTable.get?, OrderedTable.empty] at hk

theorem Keyed.add (hk : ms.Keyed) (h : ms.Valid) (m : μ) : (ms.add m).Keyed := by
  intro c k hfound
  rw [table_add] at hfound
  split at hfound
  · rw [(h c).get?_insert] at hfound
    split at hfound
    · next hsame => exact ⟨_, eq_of_beq hsame⟩
    · exact hk c k hfound
  · exact hk c k hfound

theorem Keyed.inherit (hk : ms.Keyed) (h : ms.Valid) (source target : ClassName) :
    (ms.inherit source target).Keyed := by
  intro c k hfound
  by_cases hc : target.fold = c.fold
  · rw [← table_congr _ hc, ((h.inherit source target) target).get?_eq_lookup,
      h.toList_table_inherit, lookup_adopt, ← (h target).get?_eq_lookup,
      ← (h source).get?_eq_lookup, Option.isSome_or, Option.isSome_map, Bool.or_eq_true] at hfound
    exact hfound.elim (hk target k) (hk source k)
  · rw [table_inherit_of_ne hc] at hfound
    exact hk c k hfound

theorem table_dropInherited (ms : MemberTables μ) (c : ClassName) :
    ms.dropInherited.table c = (ms.table c).filter fun _ m => !isInherited m := by
  rw [table, table, table?, table?, MemberTables.dropInherited, Std.HashMap.getElem?_map]
  cases ms.tables[c.fold]? <;> rfl

theorem Keyed.dropInherited (hk : ms.Keyed) (h : ms.Valid) : ms.dropInherited.Keyed := by
  intro c k hfound
  rw [table_dropInherited, (h c).get?_filter] at hfound
  exact hk c k (Option.isSome_of_isSome_filter _ _ hfound)

/-- The members that a class declares stay in their order. -/
theorem Valid.members_dropInherited (h : ms.Valid) (c : ClassName) :
    ms.dropInherited.members c = (ms.members c).filter fun m => !isInherited m := by
  rw [members, members, OrderedTable.values, OrderedTable.values, table_dropInherited,
    (h c).toList_filter, List.filter_map]
  rfl

/-- Tables that find the same by name list the same members. -/
theorem Valid.perm_members (h : ms.Valid) (h' : ms'.Valid) (hk : ms.Keyed) (hk' : ms'.Keyed)
    (heq : ∀ n, ms'.get? c n = ms.get? c n) : (ms'.members c).Perm (ms.members c) := by
  refine List.Perm.map _ ((h c).perm_toList (h' c) fun k => ?_)
  by_cases hname : ∃ n, key μ n = k
  · obtain ⟨n, rfl⟩ := hname
    exact heq n
  · have hnone := mt (hk c k) hname
    have hnone' := mt (hk' c k) hname
    rw [Bool.not_eq_true, Option.isSome_eq_false_iff, Option.isNone_iff_eq_none] at hnone hnone'
    rw [hnone, hnone']

end MemberTables

namespace CodeBase

variable {b b' b₀ : CodeBase}

/-- The keys of all members are those of names. -/
structure Keyed (b : CodeBase) : Prop where
  methods : b.methods.Keyed
  properties : b.properties.Keyed
  constants : b.constants.Keyed

theorem keyed_create (hydrateLazily : Bool) : (create hydrateLazily).Keyed :=
  ⟨MemberTables.keyed_empty, MemberTables.keyed_empty, MemberTables.keyed_empty⟩

namespace Keyed

theorem put (hk : b.Keyed) (h : b.Tabled) (x : Element) : (b.put x).Keyed := by
  cases x with
  | method m => exact { hk with methods := hk.methods.add h.methods m }
  | property p => exact { hk with properties := hk.properties.add h.properties p }
  | classConstant c => exact { hk with constants := hk.constants.add h.constants c }
  | classDecl c => exact { hk with }
  | function f => exact { hk with }
  | globalConstant c => exact { hk with }

theorem inherit (hk : b.Keyed) (h : b.Tabled) (source target : ClassName) :
    (b.inherit source target).Keyed :=
  ⟨hk.methods.inherit h.methods source target, hk.properties.inherit h.properties source target,
    hk.constants.inherit h.constants source target⟩

theorem resetInherited (hk : b.Keyed) (h : b.Tabled) : b.resetInherited.Keyed :=
  ⟨hk.methods.dropInherited h.methods, hk.properties.dropInherited h.properties,
    hk.constants.dropInherited h.constants⟩

theorem lookUp (hk : b.Keyed) (h : b.Tabled) (hself : b.SelfContained) (q : LookUp) :
    (b.lookUp q).Keyed :=
  (SelfContained.lookUp_induction (P := fun b => b.SelfContained ∧ b.Tabled ∧ b.Keyed)
    (fun _ hb => hb.1)
    (fun _ c hb => ⟨hb.1.sameClasses ⟨rfl, rfl, rfl, rfl⟩, hb.2.1.mark c, { hb.2.2 with }⟩)
    (fun _ s c _ hb => ⟨hb.1.sameClasses ⟨rfl, rfl, rfl, rfl⟩, hb.2.1.inherit s c,
      hb.2.2.inherit hb.2.1 s c⟩)
    ⟨hself, h, hk⟩ q).2.2

end Keyed

end CodeBase

/-! ### Questions that only the classes decide -/

namespace ExpandM

variable {α β : Type} {b b' : CodeBase}

/-- Work that depends on the code base only through its classes and its generation, and leaves it
as it is. -/
def SeesClasses (p : ExpandM CodeBase α) : Prop :=
  ∀ (t : TypeTable) {b b' : CodeBase}, b.SelfContained → b.SameClasses b' →
    p (t, b') = (p (t, b)).map fun r => (r.1, r.2.1, b')

theorem Reads.seesClasses {p : ExpandM CodeBase α} (hp : Reads p) : SeesClasses p :=
  fun t _ _ hb hsame => hp t hb (hb.sameClasses hsame) (hsame.loads hb.loadable).declared

theorem SeesClasses.bind {p : ExpandM CodeBase α} {f : α → ExpandM CodeBase β} (hp : SeesClasses p)
    (hf : ∀ a, SeesClasses (f a)) : SeesClasses (p >>= f) := by
  intro t b b' hb hsame
  have hleaves := hp t hb ⟨rfl, rfl, rfl, rfl⟩
  rw [bind_apply, bind_apply, hp t hb hsame]
  cases hr : p (t, b) with
  | error v => rfl
  | ok r =>
    obtain ⟨a, t₁, b₁⟩ := r
    rw [hr] at hleaves
    obtain rfl : b₁ = b := congrArg (fun r => r.2.2) (Except.ok.inj hleaves)
    exact hf a t₁ hb hsame

theorem seesClasses_expandType (id : TypeId) :
    SeesClasses (expandType id : ExpandM CodeBase UnionType) := by
  intro t b b' hb hsame
  have hsees := (reads_expandWithin maxExpansionDepth id).seesClasses
    (t.syncCache b.generation) hb hsame
  rw [expandType_apply, expandType_apply, hsame.generation, hsees]
  cases (t.cache.sync b.generation).entries[id]? with
  | some u => rfl
  | none =>
    cases hrun : expandWithin maxExpansionDepth id (t.syncCache b.generation, b) with
    | error v => rfl
    | ok r =>
      obtain ⟨u, t₁, b₁⟩ := r
      obtain rfl := (reads_expandWithin maxExpansionDepth id).base_eq hb hrun
      simp only [Except.map, hsame.generation]

theorem composes_seesClasses : Composes @SeesClasses where
  pure a := (reads_pure a).seesClasses
  throw v := (reads_throw v).seesClasses
  types w := (reads_types w).seesClasses
  declaredType name := (reads_declaredType name).seesClasses
  bind := SeesClasses.bind

theorem seesClasses_hasAncestor (u : UnionType) (owner : ClassName) :
    SeesClasses (u.hasAncestor owner : ExpandM CodeBase Bool) :=
  composes_seesClasses.hasAncestor seesClasses_expandType u owner

end ExpandM

namespace CodeBase

variable {b b' b₀ : CodeBase}

/-- Code bases with the same classes and the same generation tell the same subclasses, of one table
of types with all that it remembers. -/
theorem SameClasses.isSubclassOf_eq (hsame : b.SameClasses b') (hb : b.SelfContained)
    (child ancestor : ClassName) (t : TypeTable) :
    (isSubclassOf child ancestor (t, b')).map Prod.fst =
      (isSubclassOf child ancestor (t, b)).map Prod.fst := by
  have hregistered : b'.isRegistered child = b.isRegistered child := by
    rw [isRegistered, isRegistered, hsame.classes]
  rw [isSubclassOf_apply hb, isSubclassOf_apply (hb.sameClasses hsame), hregistered]
  split
  · rfl
  · cases TypeM.classType child t with
    | error v => rfl
    | ok r =>
      show (UnionType.hasAncestor _ ancestor (r.2, b')).map Prod.fst =
        (UnionType.hasAncestor _ ancestor (r.2, b)).map Prod.fst
      rw [ExpandM.seesClasses_hasAncestor (.of r.1) ancestor r.2 hb hsame]
      cases UnionType.hasAncestor (.of r.1) ancestor (r.2, b) <;> rfl

/-! ### Code bases with the same classes, and the same members by name -/

/-- The classes keep of their members those that they declare, in the order in which they stood. -/
structure KeepsOwn (b b' : CodeBase) : Prop where
  methods : ∀ c, b'.methods.members c = (b.methods.members c).filter fun m => !isInherited m
  properties : ∀ c, b'.properties.members c = (b.properties.members c).filter fun p => !isInherited p
  constants : ∀ c, b'.constants.members c = (b.constants.members c).filter fun k => !isInherited k

theorem Tabled.keepsOwn_resetInherited (h : b.Tabled) : b.KeepsOwn b.resetInherited :=
  ⟨h.methods.members_dropInherited, h.properties.members_dropInherited,
    h.constants.members_dropInherited⟩

/-- The classes have the same members at the moment, in any order. -/
structure StoresAs (b b' : CodeBase) : Prop where
  methods : ∀ c, (b'.methods.members c).Perm (b.methods.members c)
  properties : ∀ c, (b'.properties.members c).Perm (b.properties.members c)
  constants : ∀ c, (b'.constants.members c).Perm (b.constants.members c)

/-- Asked for the members of a class, the code bases list the same ones, in any order. -/
structure ListsAs (b b' : CodeBase) : Prop where
  methods : ∀ c, (methodsOf c b').1.Perm (methodsOf c b).1
  properties : ∀ c, (propertiesOf c b').1.Perm (propertiesOf c b).1
  constants : ∀ c, (constantsOf c b').1.Perm (constantsOf c b).1

/-- The code bases have the same classes in the same order, and the same members by name. -/
structure Twins (b b' : CodeBase) : Prop where
  mirrors : b.Mirrors b'
  sameClasses : b.SameClasses b'
  keyedLeft : b.Keyed
  keyedRight : b'.Keyed

namespace Twins

/-- Filling classes one after the other. -/
theorem mirrors_hydrateEach (names : List ClassName) {b b' : CodeBase} (h : b.Mirrors b') :
    (hydrateEach names b).Mirrors (hydrateEach names b') := by
  induction names generalizing b b' with
  | nil => exact h
  | cons c names ih => exact ih (h.hydrate c)

/-- The same question to both code bases. -/
theorem lookUp (h : b.Twins b') (q : LookUp) : (b.lookUp q).Twins (b'.lookUp q) where
  mirrors := by
    rcases eq_or_ne q .hydrateAll with rfl | hq
    · -- all classes are filled in the order in which they stand
      show (hydrateAll b).2.Mirrors (hydrateAll b').2
      rw [hydrateAll_eq, hydrateAll_eq, classNames, classNames, h.sameClasses.classes]
      exact mirrors_hydrateEach _ h.mirrors
    · have hasks : (Request.lookUp q).Asks := by
        cases q with
        | hydrateAll => exact hq rfl
        | _ => trivial
      exact Request.mirrors_effect h.mirrors hasks
  sameClasses := by
    have hleft := h.mirrors.left.sameClasses_lookUp q
    have hright := h.mirrors.right.sameClasses_lookUp q
    exact ⟨by rw [hleft.classes, hright.classes, h.sameClasses.classes],
      by rw [hleft.pending, hright.pending, h.sameClasses.pending],
      by rw [hleft.resolver, hright.resolver, h.sameClasses.resolver],
      by rw [hleft.generation, hright.generation, h.sameClasses.generation]⟩
  keyedLeft := h.keyedLeft.lookUp h.mirrors.tabledLeft h.mirrors.left q
  keyedRight := h.keyedRight.lookUp h.mirrors.tabledRight h.mirrors.right q

theorem foldl_lookUp (h : b.Twins b') (questions : List LookUp) :
    (questions.foldl CodeBase.lookUp b).Twins (questions.foldl CodeBase.lookUp b') := by
  induction questions generalizing b b' with
  | nil => exact h
  | cons q questions ih => exact ih (h.lookUp q)

theorem storesAs (h : b.Twins b') : b.StoresAs b' where
  methods c := h.mirrors.tabledLeft.methods.perm_members h.mirrors.tabledRight.methods
    h.keyedLeft.methods h.keyedRight.methods (h.mirrors.methods c)
  properties c := h.mirrors.tabledLeft.properties.perm_members h.mirrors.tabledRight.properties
    h.keyedLeft.properties h.keyedRight.properties (h.mirrors.properties c)
  constants c := h.mirrors.tabledLeft.constants.perm_members h.mirrors.tabledRight.constants
    h.keyedLeft.constants h.keyedRight.constants (h.mirrors.constants c)

theorem listsAs (h : b.Twins b') : b.ListsAs b' where
  methods c := (h.lookUp (.methodsOf c)).storesAs.methods c
  properties c := (h.lookUp (.propertiesOf c)).storesAs.properties c
  constants c := (h.lookUp (.constantsOf c)).storesAs.constants c

theorem isSubclassOf_eq (h : b.Twins b') (child ancestor : ClassName) (t : TypeTable) :
    (isSubclassOf child ancestor (t, b')).map Prod.fst =
      (isSubclassOf child ancestor (t, b)).map Prod.fst :=
  h.sameClasses.isSubclassOf_eq h.mirrors.left child ancestor t

end Twins

/-! ### What is left after a session -/

open MemberSort

/-- Of what was registered, the last element under a name is found. -/
theorem element?_foldl_put (hydrateLazily : Bool) (xs : List Element) (e : UndoEntry) :
    (xs.foldl CodeBase.put (create hydrateLazily)).element? e =
      (xs.filter fun x => x.entry.key = e.key).getLast? := by
  induction xs using List.reverseRecOn with
  | nil => exact element?_create hydrateLazily e
  | append_singleton xs x ih =>
    have hfresh : (xs.foldl CodeBase.put (create hydrateLazily)).Fresh :=
      Fresh.foldl (fun _ x hb => hb.put x) (fresh_create hydrateLazily) xs
    rw [List.foldl_append, List.foldl_cons, List.foldl_nil, hfresh.tabled.element?_put,
      List.filter_append]
    by_cases hx : x.entry.key = e.key
    · simp [hx]
    · simp [hx, ih]

theorem hydrateLazily_foldl_put (hydrateLazily : Bool) (xs : List Element) :
    (xs.foldl CodeBase.put (create hydrateLazily)).hydrateLazily = hydrateLazily := by
  induction xs using List.reverseRecOn with
  | nil => rfl
  | append_singleton xs x ih =>
    rw [List.foldl_append]
    exact (hydrateLazily_put _ x).trans ih

theorem keyed_foldl_put (hydrateLazily : Bool) (xs : List Element) :
    (xs.foldl CodeBase.put (create hydrateLazily)).Keyed := by
  induction xs using List.reverseRecOn with
  | nil => exact keyed_create hydrateLazily
  | append_singleton xs x ih =>
    have hfresh : (xs.foldl CodeBase.put (create hydrateLazily)).Fresh :=
      Fresh.foldl (fun _ x hb => hb.put x) (fresh_create hydrateLazily) xs
    rw [List.foldl_append]
    exact ih.put hfresh.tabled x

section

variable {μ : Type} [ClassMember μ] [MemberSort μ] {h : b₀.Acyclic} {asked : List ClassName}

theorem InStep.foldl_lookUp (hi : InStep μ h asked b) (hv : b₀.classes.Valid)
    (questions : List LookUp) :
    ∃ asked', InStep μ h asked' (questions.foldl CodeBase.lookUp b) ∧
      (questions.foldl CodeBase.lookUp b).hydrateLazily = b.hydrateLazily := by
  induction questions generalizing asked b with
  | nil => exact ⟨asked, hi, rfl⟩
  | cons q questions ih =>
    obtain ⟨asked', hlast, hlazily⟩ := ih (hi.lookUp hv q)
    exact ⟨asked', hlast, hlazily.trans ((hi.selfContained hv).hydrateLazily_lookUp q)⟩

/-- Without cycles a member is found as it is at first, whatever is asked before. -/
theorem Fresh.alike_foldl_lookUp (hb : b.Fresh) (h : b.Acyclic)
    (hv : (members b : MemberTables μ).Valid) (hlazily : b.hydrateLazily = true)
    (questions : List LookUp) (c : ClassName) (n : String) :
    Option.Rel Alike
      ((members (prepare c (questions.foldl CodeBase.lookUp b)).2 : MemberTables μ).get? c n)
      ((members (prepare c b).2).get? c n) := by
  have hi : InStep μ h [] b := hb.inStep h hv
  obtain ⟨asked, hlast, hsame⟩ := hi.foldl_lookUp hb.classes questions
  exact hlast.answer hi hb.classes (hsame.trans hlazily) hlazily rfl n

end

end CodeBase

namespace Turn

open CodeBase

variable {turns : List Turn}

theorem keyed_foldl_run {b₀ b : CodeBase} (h : b₀.Follows b) (hb : b₀.Fresh) (hk : b.Keyed)
    (hown : ∀ x ∈ elements turns, x.isInherited = false) : (turns.foldl run b).Keyed := by
  induction turns generalizing b₀ b with
  | nil => exact hk
  | cons turn turns ih =>
    have ht := h.tabled hb
    cases turn with
    | put x =>
      obtain ⟨hx, hown⟩ := List.forall_mem_cons.1 hown
      exact ih (h.put hx) (hb.put x) (hk.put ht x) hown
    | ask q =>
      have hself := hb.selfContained.sameClasses h.sameClasses
      exact ih (h.lookUp hb.selfContained q) hb (hk.lookUp ht hself q) hown

/-- Once the copies are forgotten, a session leaves what its registrations alone give. -/
theorem twins_resetInherited (hown : ∀ x ∈ elements turns, x.isInherited = false)
    (hydrateLazily : Bool) :
    ((elements turns).foldl CodeBase.put (.create hydrateLazily)).Twins
        (turns.foldl run (.create hydrateLazily)).resetInherited ∧
      (turns.foldl run (.create hydrateLazily)).Tabled ∧
      (turns.foldl run (.create hydrateLazily)).resetInherited.Fresh := by
  have hstart := fresh_create hydrateLazily
  have hfollows := follows_foldl_run (follows_create hydrateLazily) hstart hown
  have hfresh : ((elements turns).foldl CodeBase.put (.create hydrateLazily)).Fresh :=
    Fresh.foldl (fun _ x hb => hb.put x) hstart _
  have ht := hfollows.tabled hfresh
  have hself := hfresh.selfContained.sameClasses hfollows.sameClasses
  have hk := keyed_foldl_run (follows_create hydrateLazily) hstart (keyed_create hydrateLazily) hown
  have hreset := ht.fresh_resetInherited hself
  have helement : ∀ e, (turns.foldl run (.create hydrateLazily)).resetInherited.element? e =
      ((elements turns).foldl CodeBase.put (.create hydrateLazily)).element? e :=
    fun e => (ht.element?_resetInherited e).trans (hfollows.filter_element? e)
  exact ⟨⟨hfresh.mirrors hreset helement hfollows.hydrateLazily,
    ⟨hfollows.classes, hfollows.pending, hfollows.resolver, hfollows.generation⟩,
    keyed_foldl_put hydrateLazily _, hk.resetInherited ht⟩, ht, hreset⟩

/-- Forgetting what was inherited restores the code base. Elements are registered and questions are
asked in turn, on cycles of classes too. Then the last element under each name is left, and each
class keeps of its members those that it declares. After any further questions, every question by
name has the answer of a code base that received only the registrations and these questions, and
lists the same members in some order; and where there are no cycles and classes are filled on demand,
a member is found as there without any questions. -/
theorem resetInherited_restores (hown : ∀ x ∈ elements turns, x.isInherited = false)
    (hydrateLazily : Bool) :
    let before := turns.foldl run (.create hydrateLazily)
    let b := before.resetInherited
    let b₀ := (elements turns).foldl CodeBase.put (.create hydrateLazily)
    (∀ e, b.element? e = ((elements turns).filter fun x => x.entry.key = e.key).getLast?) ∧
      before.KeepsOwn b ∧ b₀.StoresAs b ∧
      (∀ questions : List LookUp,
        let b' := questions.foldl CodeBase.lookUp b
        let b₀' := questions.foldl CodeBase.lookUp b₀
        b₀'.AnswersAs b' ∧ b₀'.ListsAs b' ∧
          ∀ child ancestor t, (CodeBase.isSubclassOf child ancestor (t, b')).map Prod.fst =
            (CodeBase.isSubclassOf child ancestor (t, b₀')).map Prod.fst) ∧
      (hydrateLazily = true → b₀.Acyclic → ∀ (questions : List LookUp) (c : ClassName) (n : String),
        let b' := questions.foldl CodeBase.lookUp b
        Option.Rel Alike (method? c n b').1 (method? c n b₀).1 ∧
          Option.Rel Alike (property? c n b').1 (property? c n b₀).1 ∧
          Option.Rel Alike (constant? c n b').1 (constant? c n b₀).1) := by
  intro before b b₀
  obtain ⟨htwins, ht, hfresh⟩ := twins_resetInherited hown hydrateLazily
  refine ⟨fun e => ?_, ht.keepsOwn_resetInherited, htwins.storesAs, fun questions => ?_, ?_⟩
  · exact (htwins.mirrors.element? e).trans (element?_foldl_put hydrateLazily _ e)
  · have hafter := htwins.foldl_lookUp questions
    exact ⟨hafter.mirrors.answersAs, hafter.listsAs, hafter.isSubclassOf_eq⟩
  · rintro rfl hacyclic questions c n b'
    have hanswers := htwins.mirrors.answersAs
    have h : b.Acyclic := htwins.sameClasses.acyclic hacyclic
    have hlazily : b.hydrateLazily = true :=
      htwins.mirrors.hydrateLazily.trans (hydrateLazily_foldl_put true _)
    rw [← hanswers.method, ← hanswers.property, ← hanswers.constant]
    exact ⟨hfresh.alike_foldl_lookUp h hfresh.methods hlazily questions c n,
      hfresh.alike_foldl_lookUp h hfresh.properties hlazily questions c n,
      hfresh.alike_foldl_lookUp h hfresh.constants hlazily questions c n⟩

/-! ### Classes that inherit from each other -/

/-- A class that extends one that extends it. -/
def tick : ClassDecl where
  name := .make "\\" "Tick"
  parent := some (.make "\\" "Tock")
  type := .empty

/-- The other class. -/
def tock : ClassDecl where
  name := .make "\\" "Tock"
  parent := some (.make "\\" "Tick")
  type := .empty

/-- A method of either class. -/
def beat (owner : ClassName) (name : String) : Method where
  name := ⟨owner, name⟩
  definedAs := ⟨owner, name⟩

/-- The second class has two methods. The first one is asked for one of them, and then declares it
itself. -/
def tickTurns : List Turn :=
  [.put (.classDecl tick), .put (.classDecl tock), .put (.method (beat tock.name "run")),
    .put (.method (beat tock.name "stop")), .ask (.method tick.name "run"),
    .put (.method (beat tick.name "run"))]

theorem own_tickTurns : ∀ x ∈ elements tickTurns, x.isInherited = false := by
  simp [tickTurns, elements, Element.isInherited, isInherited_eq_false, ClassMember.name,
    ClassMember.definedAs, beat]

/-- The method that the first class declares is left, and its copy of the other one is not; asked
for that, it has a copy again as if it had not been asked before. -/
theorem resetInherited_restores_tick :
    (∀ x ∈ elements tickTurns, x.isInherited = false) ∧
      (tickTurns.foldl run (.create true)).resetInherited.element? (.method ⟨tick.name, "RUN"⟩) =
        some (.method (beat tick.name "run")) ∧
      (tickTurns.foldl run (.create true)).resetInherited.element? (.method ⟨tick.name, "stop"⟩) =
        none ∧
      (method? tick.name "stop" (tickTurns.foldl run (.create true)).resetInherited).1 =
        (method? tick.name "stop" ((elements tickTurns).foldl CodeBase.put (.create true))).1 := by
  have hown := own_tickTurns
  obtain ⟨helement, -, -, hanswers, -⟩ := resetInherited_restores hown true
  have hafter := (hanswers []).1
  rw [List.foldl_nil, List.foldl_nil] at hafter
  refine ⟨hown, ?_, ?_, hafter.method _ _⟩
  · rw [helement]
    rfl
  · rw [helement]
    decide

/-! ### A member in the place of a copy -/

/-- A method of the subclass. -/
def scale : Method where
  name := ⟨.make "\\" "Circle", "scale"⟩

/-- The method that the subclass declares itself. -/
def circleArea : Method where
  name := ⟨.make "\\" "Circle", "area"⟩

/-- The subclass has a copy of a method when its own methods are registered. -/
def circleTurns : List Turn :=
  [.put (.classDecl shape), .put (.method area), .put (.classDecl circle),
    .ask (.hydrate (.make "\\" "Circle")), .put (.method scale), .put (.method circleArea)]

/-- The registrations alone. -/
def circleBase : CodeBase := (elements circleTurns).foldl CodeBase.put (.create true)

/-- The code base in which the copies are forgotten. -/
def circleReset : CodeBase := (circleTurns.foldl run (.create true)).resetInherited

theorem own_circleTurns : ∀ x ∈ elements circleTurns, x.isInherited = false := by
  simp [circleTurns, elements, Element.isInherited, isInherited_eq_false, ClassMember.name,
    ClassMember.definedAs, area, scale, circleArea]

theorem circleBase_eq : circleBase = [scale, circleArea].foldl addMethod shapeBase := rfl

theorem sameClasses_circleBase : shapeBase.SameClasses circleBase :=
  circleBase_eq ▸ sameClasses_foldl (f := addMethod) (fun _ _ => ⟨rfl, rfl, rfl, rfl⟩) _ shapeBase

theorem acyclic_circleBase : circleBase.Acyclic :=
  sameClasses_circleBase.acyclic (acyclic_shape firstShapes_prefix)

theorem key_scale : key Method (ClassMember.name scale).name = "scale" := by decide

theorem key_area : key Method (ClassMember.name area).name = "area" := by decide

theorem key_circleArea : key Method (ClassMember.name circleArea).name = "area" := by decide

theorem toList_table_circleBase :
    (circleBase.methods.table (.make "\\" "Circle")).toList =
      [("scale", scale), ("area", circleArea)] := by
  have hnone : ({} : MemberTables Method).table (.make "\\" "Circle") = .empty := by
    simp [MemberTables.table, MemberTables.table?]
  have htable : circleBase.methods.table (.make "\\" "Circle") =
      (OrderedTable.empty.insert "scale" scale).insert "area" circleArea := by
    rw [circleBase_eq]
    show ((({} : MemberTables Method).add area).add scale |>.add circleArea).table _ = _
    rw [MemberTables.table_add, if_pos (by decide), MemberTables.table_add, if_pos (by decide),
      MemberTables.table_add, if_neg (by decide), hnone, key_scale, key_circleArea]
  have hfirst : (OrderedTable.empty.insert "scale" scale).toList = [("scale", scale)] :=
    OrderedTable.toList_insert_of_not_contains (by simp [OrderedTable.contains, OrderedTable.empty])
  rw [htable, OrderedTable.toList_insert_of_not_contains, hfirst]
  · rfl
  · rw [Bool.eq_false_iff, Ne, (OrderedTable.valid_empty.insert _ _).contains_iff,
      OrderedTable.keys, hfirst]
    decide

/-- Once it is filled, the subclass has the copy alone. -/
theorem toList_table_hydrate_circle :
    ∃ m, ((hydrate (.make "\\" "Circle") shapeBase).2.methods.table (.make "\\" "Circle")).toList =
      [("area", m)] := by
  have hb := fresh_shapeBase
  have h : shapeBase.Acyclic := acyclic_shape firstShapes_prefix
  have hregistered : ∀ c, shapeBase.isRegistered c = (shapeBase.class? c).isSome :=
    hb.isRegistered_eq
  have htable : ∀ c : ClassName, (shapeBase.methods.table c).toList =
      if shape.name.fold = c.fold then [("area", area)] else [] := by
    intro c
    show ((({} : MemberTables Method).add area).table c).toList = _
    have hnone : ({} : MemberTables Method).table c = .empty := by
      simp [MemberTables.table, MemberTables.table?]
    rw [MemberTables.table_add, hnone, key_area, apply_ite OrderedTable.toList]
    refine if_congr Iff.rfl ?_ rfl
    exact OrderedTable.toList_insert_of_not_contains
      (by simp [OrderedTable.contains, OrderedTable.empty])
  have hshape : shapeBase.resolveRow h shapeBase.methods (.make "\\" "Shape") =
      [("area", area)] := by
    rw [resolveRow_eq, htable, if_pos (by decide), sourcesOf, class?_shapeBase, if_neg (by decide),
      if_pos (by decide)]
    rfl
  have hsources : shapeBase.sourcesOf (.make "\\" "Circle") = [.make "\\" "Shape"] := by
    rw [sourcesOf, class?_shapeBase, if_pos (by decide)]
    refine List.filter_eq_self.2 fun s hs => ?_
    rw [List.mem_singleton.1 hs, hregistered, class?_shapeBase]
    decide
  have hrule : shapeBase.resolveRow h shapeBase.methods (.make "\\" "Circle") =
      [("area", moveTo area (.make "\\" "Circle"))] := by
    rw [resolveRow_eq, htable, if_neg (by decide), hsources, List.foldl_cons, hshape]
    rfl
  have hi : InStep Method h [] shapeBase := hb.inStep h hb.methods
  have hrow := ((hi.hydrate hb.classes (.make "\\" "Circle")).2
    (by rw [hregistered, class?_shapeBase]; decide)).row
  change RowsAlike _ (shapeBase.stockRow h shapeBase.methods _) at hrow
  rw [stockRow_eq_resolveRow h _ hb.hydrated, hrule] at hrow
  obtain ⟨⟨k, m⟩, row, ⟨hk, -⟩, hnil, heq⟩ := List.forall₂_cons_right_iff.1 hrow
  obtain rfl := List.forall₂_nil_right_iff.1 hnil
  obtain rfl : k = "area" := hk
  exact ⟨m, heq⟩

/-- The method that the subclass declares stands where the copy stood. -/
theorem toList_table_circleReset :
    (circleReset.methods.table (.make "\\" "Circle")).toList =
      [("area", circleArea), ("scale", scale)] := by
  obtain ⟨m, hm⟩ := toList_table_hydrate_circle
  have hv : ((hydrate (.make "\\" "Circle") shapeBase).2.methods).Valid :=
    ((fresh_shapeBase.inStep (μ := Method) (acyclic_shape firstShapes_prefix)
      fresh_shapeBase.methods).hydrate fresh_shapeBase.classes _).1.filling.valid
  have htable : circleReset.methods.table (.make "\\" "Circle") =
      ((((hydrate (.make "\\" "Circle") shapeBase).2.methods.table (.make "\\" "Circle")).insert
        "scale" scale).insert "area" circleArea).filter fun _ m => !isInherited m := by
    show (((hydrate (.make "\\" "Circle") shapeBase).2.methods.add scale).add
      circleArea).dropInherited.table _ = _
    rw [MemberTables.table_dropInherited, MemberTables.table_add, if_pos (by decide),
      MemberTables.table_add, if_pos (by decide), key_scale, key_circleArea]
  have hfirst := hv (.make "\\" "Circle")
  generalize (hydrate (.make "\\" "Circle") shapeBase).2.methods.table (.make "\\" "Circle") = t
    at hm htable hfirst
  have hscale : (t.insert "scale" scale).toList = [("area", m), ("scale", scale)] := by
    rw [OrderedTable.toList_insert_of_not_contains, hm]
    · rfl
    · rw [Bool.eq_false_iff, Ne, hfirst.contains_iff, OrderedTable.keys, hm]
      simp
  have hboth : ((t.insert "scale" scale).insert "area" circleArea).toList =
      [("area", circleArea), ("scale", scale)] := by
    rw [(hfirst.insert _ _).toList_insert_of_contains, hscale]
    · rfl
    · rw [(hfirst.insert _ _).contains_iff, OrderedTable.keys, hscale]
      simp
  rw [htable, ((hfirst.insert _ _).insert _ _).toList_filter, hboth]
  rfl

/-- What a class declares goes first among the methods that it lists. -/
theorem head?_methodsOf {b : CodeBase} (hb : b.Fresh) (h : b.Acyclic) {c : ClassName}
    (hc : b.isRegistered c = true) (hlazily : b.hydrateLazily = true) {k : String} {m : Method}
    {row : List (String × Method)} (hrow : (b.methods.table c).toList = (k, m) :: row) :
    (methodsOf c b).1.head? = some m := by
  have hi : InStep Method h [] b := hb.inStep h hb.methods
  obtain ⟨rest, hrest⟩ := ((hi.hydrate hb.classes c).2 hc).own
  change (b.methods.table c).toList ++ rest = ((hydrate c b).2.methods.table c).toList at hrest
  show (((prepare c b).2.methods.table c).toList.map Prod.snd).head? = some m
  rw [hb.selfContained.prepare_eq, hc, hlazily, Bool.and_self, if_pos rfl, ← hrest, hrow]
  rfl

/-- The members of a class can be listed in another order than in a code base that received only the
registrations: one that was registered in place of a copy keeps the place of the copy. -/
theorem resetInherited_reorders :
    (∀ x ∈ elements circleTurns, x.isInherited = false) ∧
      ((elements circleTurns).foldl CodeBase.put (.create true)).Acyclic ∧
      (methodsOf (.make "\\" "Circle")
        (circleTurns.foldl run (.create true)).resetInherited).1.head? = some circleArea ∧
      (methodsOf (.make "\\" "Circle")
        ((elements circleTurns).foldl CodeBase.put (.create true))).1.head? = some scale := by
  obtain ⟨htwins, -, hfresh⟩ := twins_resetInherited own_circleTurns true
  have hbase : circleBase.Fresh := Fresh.foldl (fun _ x hb => hb.put x) (fresh_create true) _
  have hregistered : circleBase.isRegistered (.make "\\" "Circle") = true := by
    rw [isRegistered, sameClasses_circleBase.classes, ← isRegistered,
      fresh_shapeBase.isRegistered_eq, class?_shapeBase]
    decide
  refine ⟨own_circleTurns, acyclic_circleBase, ?_, ?_⟩
  · exact head?_methodsOf hfresh (htwins.sameClasses.acyclic acyclic_circleBase)
      ((htwins.mirrors.isRegistered _).trans hregistered)
      (htwins.mirrors.hydrateLazily.trans (hydrateLazily_foldl_put true _))
      toList_table_circleReset
  · exact head?_methodsOf hbase acyclic_circleBase hregistered (hydrateLazily_foldl_put true _)
      toList_table_circleBase

end Turn

end UnionInference
