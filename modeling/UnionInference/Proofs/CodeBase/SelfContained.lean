import UnionInference.Proofs.CodeBase.Session

/-!
Sessions in which no class is announced. Questions then leave the classes and the generation of the
code base as they are, and an expansion leaves the whole code base as it is: it depends on the code
base only through what the classes declare. So the code base at the end of a session is what its
registrations and look-ups make of the one at the start.
-/

namespace UnionInference

/-! ### Questions and registrations -/

namespace CodeBase

variable {b b' : CodeBase}

/-- What marking classes and handing members down keep is kept by every question. -/
theorem SelfContained.lookUp_induction {P : CodeBase → Prop}
    (hclosed : ∀ b, P b → b.SelfContained) (hmark : ∀ b c, P b → P (b.mark c))
    (hinherit : ∀ b s c, b.Feeds s c → P b → P (b.inherit s c)) (h : P b) (q : LookUp) :
    P (b.lookUp q) := by
  have hfill : ∀ (c : ClassName) {b : CodeBase}, P b → P (hydrate c b).2 := fun c b hb =>
    hydrateWithin_induction hclosed hmark hinherit b.hydrationBound c hb
  have hprepare : ∀ c : ClassName, P (prepare c b).2 := by
    intro c
    rw [(hclosed b h).prepare_eq]
    split
    · exact hfill c h
    · exact h
  cases q with
  | hasClass name =>
    show P (CodeBase.hasClass name b).2
    rw [(hclosed b h).hasClass]
    exact h
  | hydrate name => exact hfill name h
  | hydrateAll =>
    show P (b.classNames.forM CodeBase.hydrate b).2
    rw [forM_eq_foldl]
    generalize b.classNames = names
    clear hprepare
    induction names generalizing b with
    | nil => exact h
    | cons name names ih => exact ih (hfill name h)
  | method owner name => exact hprepare owner
  | property owner name => exact hprepare owner
  | constant owner name => exact hprepare owner
  | methodsOf owner => exact hprepare owner
  | propertiesOf owner => exact hprepare owner
  | constantsOf owner => exact hprepare owner

/-- A question leaves the classes and the generation as they are. -/
theorem SelfContained.sameClasses_lookUp (h : b.SelfContained) (q : LookUp) :
    b.SameClasses (b.lookUp q) :=
  lookUp_induction (P := fun b' => b.SameClasses b') (fun _ hsame => h.sameClasses hsame)
    (fun _ _ hsame => hsame.trans ⟨rfl, rfl, rfl, rfl⟩)
    (fun _ _ _ _ hsame => hsame.trans ⟨rfl, rfl, rfl, rfl⟩) ⟨rfl, rfl, rfl, rfl⟩ q

theorem pending_undoFile (b : CodeBase) (file : String) :
    (b.undoFile file).2.pending = b.pending := by
  unfold undoFile
  split
  · rfl
  · split
    · rfl
    · rename_i entries _ _
      dsimp only
      split <;> exact (sameSettings_removeEntries _ entries).pending

/-- Registering announces nothing. -/
theorem pending_register (b : CodeBase) (r : Registration) :
    (b.register r).pending = b.pending := by
  cases r with
  | definition d => exact (sameClasses_addDefinition b d).pending
  | takeBack file => exact b.pending_undoFile file
  | _ => rfl

theorem SelfContained.register (h : b.SelfContained) (r : Registration) :
    (b.register r).SelfContained :=
  ⟨(h.loadable.register r).loadable, (b.pending_register r).trans h.pending⟩

end CodeBase

/-! ### Expansion reads the code base -/

namespace ExpandM

variable {α β : Type}

/-- Work that depends on the code base only through what classes declare, and leaves it as it is. -/
def Reads (p : ExpandM CodeBase α) : Prop :=
  ∀ (t : TypeTable) {b b' : CodeBase}, b.SelfContained → b'.SelfContained →
    b'.declared? = b.declared? → p (t, b') = (p (t, b)).map fun r => (r.1, r.2.1, b')

/-- The code base is the same afterwards. -/
theorem Reads.base_eq {p : ExpandM CodeBase α} (hp : Reads p) {t t₁ : TypeTable} {b b₁ : CodeBase}
    {a : α} (hb : b.SelfContained) (h : p (t, b) = .ok (a, t₁, b₁)) : b₁ = b := by
  have hsame := hp t hb hb rfl
  rw [h] at hsame
  exact congrArg (fun r => r.2.2) (Except.ok.inj hsame)

theorem reads_pure (a : α) : Reads (pure a : ExpandM CodeBase α) := fun _ _ _ _ _ _ => rfl

theorem reads_throw (v : Violation) : Reads (throw v : ExpandM CodeBase α) :=
  fun _ _ _ _ _ _ => rfl

theorem reads_types (w : TypeM α) : Reads (types w : ExpandM CodeBase α) := by
  intro t b b' _ _ _
  rw [types_apply, types_apply]
  cases w t <;> rfl

theorem reads_declaredType (name : ClassName) :
    Reads (declaredType name : ExpandM CodeBase (Option UnionType)) := by
  intro t b b' hb hb' hd
  show Except.ok ((CodeBase.declaredType name b').1, t, (CodeBase.declaredType name b').2) =
    Except.map _ (Except.ok ((CodeBase.declaredType name b).1, t, (CodeBase.declaredType name b).2))
  rw [hb.declaredType, hb'.declaredType, ← hb.declared?_eq, ← hb'.declared?_eq, hd]
  rfl

theorem Reads.bind {p : ExpandM CodeBase α} {f : α → ExpandM CodeBase β} (hp : Reads p)
    (hf : ∀ a, Reads (f a)) : Reads (p >>= f) := by
  intro t b b' hb hb' hd
  rw [bind_apply, bind_apply, hp t hb hb' hd]
  cases hr : p (t, b) with
  | error v => rfl
  | ok r =>
    obtain ⟨a, t₁, b₁⟩ := r
    obtain rfl := hp.base_eq hb hr
    exact hf a t₁ hb hb' hd

theorem composes_reads : Composes @Reads where
  pure := reads_pure
  throw := reads_throw
  types := reads_types
  declaredType := reads_declaredType
  bind := Reads.bind

/-- Expansion only reads the code base, with any number of levels left. -/
theorem reads_expandWithin (n : Nat) (id : TypeId) :
    Reads (expandWithin n id : ExpandM CodeBase UnionType) := composes_reads.expandWithin n id

end ExpandM

/-- With or without memory the same is found, and up to what is remembered the same is left. -/
theorem expandType_eq_anew {t : TypeTable} {b : CodeBase} (h : CacheFresh (t, b))
    (hb : b.SelfContained) (id : TypeId) :
    ∃ cache, expandType id (t, b) = (expandWithin maxExpansionDepth id (t, b)).map fun r =>
      (r.1, r.2.1.withCache cache, r.2.2) := by
  have hframe := (ExpandM.steady_expandWithin maxExpansionDepth id).frame t b
    (t.cache.sync b.generation) h.canonical h.loadable
  change expandWithin maxExpansionDepth id (t.syncCache b.generation, b) = _ at hframe
  obtain ⟨hsync, hgen⟩ := h.sync
  rw [expandType_apply, hframe]
  cases hhit : (t.cache.sync b.generation).entries[id]? with
  | some u =>
    -- found before in this generation, so expansion finds it again and adds no type
    obtain ⟨b₃, hrun⟩ := hsync.expands hgen id u hhit t b h.canonical
      ⟨fun _ _ he => he, fun _ _ hk => hk⟩ h.loadable rfl
    obtain rfl := (ExpandM.reads_expandWithin maxExpansionDepth id).base_eq hb hrun
    rw [hrun]
    exact ⟨_, rfl⟩
  | none =>
    cases hrun : expandWithin maxExpansionDepth id (t, b) with
    | error v => exact ⟨{}, rfl⟩
    | ok r => exact ⟨_, rfl⟩

/-! ### Work that leaves the code base -/

namespace ExpandM

variable {α β : Type}

/-- Work that leaves a self-contained code base as it is. -/
structure LeavesBase (p : ExpandM CodeBase α) : Prop where
  base_eq : ∀ {t t₁ : TypeTable} {b b₁ : CodeBase} {a : α}, b.SelfContained →
    p (t, b) = .ok (a, t₁, b₁) → b₁ = b

theorem Reads.leavesBase {p : ExpandM CodeBase α} (hp : Reads p) : LeavesBase p :=
  ⟨fun hb h => hp.base_eq hb h⟩

theorem LeavesBase.bind {p : ExpandM CodeBase α} {f : α → ExpandM CodeBase β} (hp : LeavesBase p)
    (hf : ∀ a, LeavesBase (f a)) : LeavesBase (p >>= f) where
  base_eq hb h := by
    obtain ⟨a, ⟨t', b'⟩, hrun, hnext⟩ := bind_eq_ok.1 h
    obtain rfl := hp.base_eq hb hrun
    exact (hf a).base_eq hb hnext

theorem leavesBase_expandType (id : TypeId) :
    LeavesBase (expandType id : ExpandM CodeBase UnionType) := by
  refine ⟨fun {t t₁ b b₁ u} hb h => ?_⟩
  rw [expandType_apply] at h
  split at h
  · cases h
    rfl
  · cases hrun : expandWithin maxExpansionDepth id (t.syncCache b.generation, b) with
    | error v =>
      rw [hrun] at h
      cases h
    | ok r =>
      rw [hrun] at h
      cases h
      exact (reads_expandWithin maxExpansionDepth id).base_eq hb hrun

theorem composes_leavesBase : Composes @LeavesBase where
  pure a := (reads_pure a).leavesBase
  throw v := (reads_throw v).leavesBase
  types w := (reads_types w).leavesBase
  declaredType name := (reads_declaredType name).leavesBase
  bind := LeavesBase.bind

theorem leavesBase_hasAncestor (u : UnionType) (owner : ClassName) :
    LeavesBase (u.hasAncestor owner : ExpandM CodeBase Bool) :=
  composes_leavesBase.hasAncestor leavesBase_expandType u owner

end ExpandM

namespace CodeBase

theorem isSubclassOf_apply {t : TypeTable} {b : CodeBase} (hb : b.SelfContained)
    (child ancestor : ClassName) :
    isSubclassOf child ancestor (t, b) =
      if child.fold = ancestor.fold ∨ b.isRegistered child = false then .ok (false, t, b)
      else
        TypeM.classType child t >>= fun r =>
          (UnionType.of r.1).hasAncestor ancestor (r.2, b) := by
  unfold isSubclassOf
  by_cases hsame : child.fold = ancestor.fold
  · rw [if_pos (by simpa [QualifiedName.sameClass] using hsame), if_pos (.inl hsame)]
    rfl
  · rw [if_neg (by simpa [QualifiedName.sameClass] using hsame)]
    show (if (hasClass child b).1 then _ else _ : ExpandM CodeBase Bool)
      (t, (hasClass child b).2) = _
    rw [hb.hasClass]
    cases b.isRegistered child with
    | false =>
      rw [if_neg Bool.false_ne_true, if_pos (.inr rfl)]
      rfl
    | true =>
      rw [if_pos rfl, if_neg (by simp [hsame]), ExpandM.bind_apply, ExpandM.types_apply]
      cases TypeM.classType child t <;> rfl

theorem leavesBase_isSubclassOf (child ancestor : ClassName) :
    ExpandM.LeavesBase (isSubclassOf child ancestor) := by
  refine ⟨fun {t t₁ b b₁ r} hb h => ?_⟩
  rw [isSubclassOf_apply hb] at h
  split at h
  · cases h
    rfl
  · cases hrun : TypeM.classType child t with
    | error v =>
      rw [hrun] at h
      cases h
    | ok q =>
      rw [hrun] at h
      exact (ExpandM.leavesBase_hasAncestor (.of q.1) ancestor).base_eq hb h

end CodeBase

/-! ### The question for a subclass without memory -/

/-- The class of the objects of the type at a place. -/
def TypeTable.classOf? (t : TypeTable) (i : TypeId) : Option ClassName :=
  (t.get? i).bind Ty.className?

namespace ExpandM

/-- Whether a class is among those that a type expands to, expanded anew. -/
def reachesClass (id : TypeId) (owner : ClassName) : ExpandM CodeBase Bool := do
  let expanded ← expandWithin maxExpansionDepth id
  someOfClass (UnionType.empty.union expanded).members owner

theorem steady_someOfClass (ids : List TypeId) (owner : ClassName) :
    Steady (someOfClass ids owner) := by
  induction ids with
  | nil => exact steady_pure false
  | cons i ids ih =>
    refine Steady.bind ?_ fun found _ => ?_
    · refine (steady_fetch i).bind fun ty _ => ?_
      split
      · exact steady_pure _
      · exact steady_pure _
    · split
      · exact steady_pure _
      · exact ih

theorem reads_someOfClass (ids : List TypeId) (owner : ClassName) :
    Reads (someOfClass ids owner) := composes_reads.someOfClass ids owner

theorem steady_reachesClass (id : TypeId) (owner : ClassName) : Steady (reachesClass id owner) :=
  (steady_expandWithin maxExpansionDepth id).bind fun _ _ => steady_someOfClass _ owner

theorem reads_reachesClass (id : TypeId) (owner : ClassName) : Reads (reachesClass id owner) :=
  (reads_expandWithin maxExpansionDepth id).bind fun _ => reads_someOfClass _ owner

/-- The union of one type expands to what the type expands to. -/
theorem expand_of (id : TypeId) (s : TypeTable × CodeBase) :
    (UnionType.of id).expand s = expandType id s >>= fun r =>
      .ok (UnionType.empty.union r.1, r.2) := by
  unfold UnionType.expand
  rw [UnionType.members_of, List.foldlM_cons, bind_apply, bind_apply]
  cases expandType id s <;> rfl

/-- One of some types is of the class, or none is. -/
theorem someOfClass_apply {t : TypeTable} {ids : List TypeId} (hids : ∀ j ∈ ids, j < t.size)
    (b : CodeBase) (owner : ClassName) :
    ∃ r, someOfClass ids owner (t, b) = .ok (r, t, b) ∧
      (r = true ↔ ∃ j ∈ ids, ∃ d, t.classOf? j = some d ∧ d.fold = owner.fold) := by
  induction ids with
  | nil => exact ⟨false, rfl, by simp⟩
  | cons j ids ih =>
    obtain ⟨hj, hids⟩ := List.forall_mem_cons.1 hids
    obtain ⟨r, hrun, hr⟩ := ih hids
    obtain ⟨e, he⟩ := TypeTable.exists_entry hj
    have hclass : t.classOf? j = e.type.className? := by
      rw [TypeTable.classOf?, TypeTable.get?_eq he, Option.bind_some]
    refine ⟨(e.type.className?.any fun d => d.sameClass owner) || r, ?_, ?_⟩
    · rw [someOfClass, List.anyM_cons]
      refine bind_eq_ok.2 ⟨e.type.className?.any fun d => d.sameClass owner, (t, b), ?_, ?_⟩
      · rw [bind_apply, fetch_apply he]
        dsimp only [bind, Except.bind]
        cases e.type.className? <;> rfl
      · cases e.type.className?.any fun d => d.sameClass owner with
        | true => rfl
        | false => exact hrun
    · rw [Bool.or_eq_true, hr, List.exists_mem_cons_iff, hclass]
      cases e.type.className? <;> simp [QualifiedName.sameClass]

/-- A type has a class among its ancestors when the class is one of those that it expands to. -/
theorem hasAncestor_of {s : TypeTable × CodeBase} {t : TypeTable} {b : CodeBase} {id : TypeId}
    {u : UnionType} (hrun : expandType id s = .ok (u, t, b)) (hu : ∀ j ∈ u.members, j < t.size)
    (owner : ClassName) :
    ∃ r, (UnionType.of id).hasAncestor owner s = .ok (r, t, b) ∧
      (r = true ↔ ∃ j ∈ u.members, ∃ d, t.classOf? j = some d ∧ d.fold = owner.fold) := by
  have hmem : ∀ j, j ∈ (UnionType.empty.union u).members ↔ j ∈ u.members := by simp
  obtain ⟨r, hany, hr⟩ := someOfClass_apply (fun j hj => hu j ((hmem j).1 hj)) b owner
  refine ⟨r, ?_, by simp only [hr, hmem]⟩
  rw [hasAncestor_eq, bind_apply, expand_of, hrun]
  exact hany

/-- With or without memory, a type has the same classes among its ancestors. -/
theorem hasAncestor_eq_anew {t : TypeTable} {b : CodeBase} (h : CacheFresh (t, b))
    (hb : b.SelfContained) (id : TypeId) (owner : ClassName) :
    ∃ cache, (UnionType.of id).hasAncestor owner (t, b) =
      (reachesClass id owner (t, b)).map fun r => (r.1, r.2.1.withCache cache, r.2.2) := by
  obtain ⟨cache, hanew⟩ := expandType_eq_anew h hb id
  refine ⟨cache, ?_⟩
  rw [hasAncestor_eq, reachesClass, bind_apply, bind_apply, expand_of, hanew]
  cases hrun : expandWithin maxExpansionDepth id (t, b) with
  | error v => rfl
  | ok r =>
    obtain ⟨u, t₁, b₁⟩ := r
    obtain ⟨hgrows, hloads⟩ := (steady_expandWithin maxExpansionDepth id).grows h.canonical
      h.loadable hrun
    exact (steady_someOfClass _ owner).frame t₁ b₁ cache hgrows.canonical hloads.loadable

/-- Whether a class is among the ancestors of another one, expanded anew. -/
def descends (child ancestor : ClassName) : ExpandM CodeBase Bool := do
  reachesClass (← types (TypeM.classType child)) ancestor

theorem steady_classType {child : ClassName}
    (hname : (QualifiedName.make child.space child.name).WellFormed) :
    Steady (types (TypeM.classType child) : ExpandM CodeBase TypeId) := by
  have hkind : (TypeKind.object (.make child.space child.name) []).WellNamed := hname
  unfold TypeM.classType TypeM.classTypeWith TypeM.make
  -- a name is refused whatever the table holds
  split
  · exact steady_throw _
  · split
    · exact steady_throw _
    · split
      · exact steady_throw _
      · split
        · exact steady_throw _
        · exact steady_intern hkind false

theorem steady_descends {child : ClassName} (ancestor : ClassName)
    (hname : (QualifiedName.make child.space child.name).WellFormed) :
    Steady (descends child ancestor) :=
  (steady_classType hname).bind fun id _ => steady_reachesClass id ancestor

theorem reads_descends (child ancestor : ClassName) : Reads (descends child ancestor) :=
  (reads_types _).bind fun id => reads_reachesClass id ancestor

end ExpandM

namespace CodeBase

/-- With or without memory, a class is a subclass of the same classes. -/
theorem isSubclassOf_eq_anew {t : TypeTable} {b : CodeBase} (h : CacheFresh (t, b))
    (hb : b.SelfContained) {child : ClassName} (ancestor : ClassName)
    (hname : (QualifiedName.make child.space child.name).WellFormed) :
    (isSubclassOf child ancestor (t, b)).map Prod.fst =
      if child.fold = ancestor.fold ∨ b.isRegistered child = false then .ok false
      else (ExpandM.descends child ancestor (t, b)).map Prod.fst := by
  rw [isSubclassOf_apply hb]
  split
  · rfl
  · rw [ExpandM.descends, ExpandM.bind_apply, ExpandM.types_apply]
    cases hrun : TypeM.classType child t with
    | error v => rfl
    | ok r =>
      obtain ⟨id, t₁⟩ := r
      have hfresh : CacheFresh (t₁, b) :=
        (ExpandM.steady_classType hname).keepsFresh (t, b) (t₁, b) id h
          (ExpandM.types_eq_ok.2 ⟨hrun, rfl⟩)
      obtain ⟨cache, hanew⟩ := ExpandM.hasAncestor_eq_anew hfresh hb id ancestor
      show ((UnionType.of id).hasAncestor ancestor (t₁, b)).map Prod.fst =
        (ExpandM.reachesClass id ancestor (t₁, b)).map Prod.fst
      rw [hanew]
      cases ExpandM.reachesClass id ancestor (t₁, b) <;> rfl

/-- Code bases with the same classes by name tell the same subclasses, whatever is remembered. -/
theorem isSubclassOf_congr {t : TypeTable} {b b' : CodeBase} (h : CacheFresh (t, b))
    (hb : b.SelfContained) (hb' : b'.SelfContained) (hclass : ∀ c, b'.class? c = b.class? c)
    {child : ClassName} (ancestor : ClassName)
    (hname : (QualifiedName.make child.space child.name).WellFormed) :
    (isSubclassOf child ancestor (t, b)).map Prod.fst =
      (isSubclassOf child ancestor (t.withCache {}, b')).map Prod.fst := by
  have hdeclared : b'.declared? = b.declared? := by
    funext c
    rw [hb.declared?_eq, hb'.declared?_eq, hclass]
  have hregistered : b'.isRegistered child = b.isRegistered child := by
    have hsome := congrArg Option.isSome (hclass child)
    rwa [class?, class?, Option.isSome_map, Option.isSome_map,
      ← hb.loadable.classes.contains_eq_isSome, ← hb'.loadable.classes.contains_eq_isSome] at hsome
  have hempty : CacheFresh (t.withCache {}, b') :=
    CacheFresh.of_empty (h.canonical.withCache {}) hb'.loadable rfl
  rw [isSubclassOf_eq_anew h hb ancestor hname, isSubclassOf_eq_anew hempty hb' ancestor hname,
    hregistered, (ExpandM.steady_descends ancestor hname).frame t b' {} h.canonical hb'.loadable,
    ExpandM.reads_descends child ancestor t hb hb' hdeclared]
  cases ExpandM.descends child ancestor (t, b) <;> rfl

end CodeBase

namespace Request

/-- No class is announced. -/
def Immediate : Request → Prop
  | .announce .. => False
  | _ => True

theorem Immediate.honest {r : Request} (h : r.Immediate) : r.Honest := by
  cases r with
  | announce name d => exact h.elim
  | _ => trivial

/-- What a request does to a self-contained code base. -/
def effect (b : CodeBase) : Request → CodeBase
  | .register r => b.register r
  | .lookUp q => b.lookUp q
  | _ => b

theorem base_eq_effect {r : Request} (hr : r.Immediate) {t t₁ : TypeTable} {b b₁ : CodeBase}
    (hb : b.SelfContained) (h : r.run (t, b) = .ok ((), t₁, b₁)) : b₁ = r.effect b := by
  cases r with
  | announce name d => exact hr.elim
  | register r =>
    cases h
    rfl
  | lookUp q =>
    cases h
    rfl
  | type r =>
    obtain ⟨id, s, hrun, h⟩ := ExpandM.bind_eq_ok.1 h
    cases h
    exact (ExpandM.reads_types r.run).base_eq hb hrun
  | isSubclassOf child ancestor =>
    obtain ⟨found, s, hrun, h⟩ := ExpandM.bind_eq_ok.1 h
    cases h
    exact (CodeBase.leavesBase_isSubclassOf child ancestor).base_eq hb hrun
  | expand id =>
    obtain ⟨u, s, hrun, h⟩ := ExpandM.bind_eq_ok.1 h
    cases h
    exact (ExpandM.leavesBase_expandType id).base_eq hb hrun

theorem selfContained_effect {b : CodeBase} (hb : b.SelfContained) (r : Request) :
    (r.effect b).SelfContained := by
  cases r with
  | register r => exact hb.register r
  | lookUp q => exact hb.sameClasses (hb.sameClasses_lookUp q)
  | _ => exact hb

/-- Where no class is announced, the code base after a session is what the registrations and the
look-ups make of it. -/
theorem base_eq_foldl_effect {requests : List Request} (hall : ∀ r ∈ requests, r.Immediate)
    {t t₁ : TypeTable} {b b₁ : CodeBase} (hb : b.SelfContained)
    (h : requests.forM run (t, b) = .ok ((), t₁, b₁)) :
    b₁ = requests.foldl (fun b r => r.effect b) b := by
  induction requests generalizing t b with
  | nil =>
    cases h
    rfl
  | cons r requests ih =>
    obtain ⟨⟨⟩, ⟨t', b'⟩, hrun, h⟩ := ExpandM.bind_eq_ok.1 h
    obtain rfl := base_eq_effect (hall r List.mem_cons_self) hb hrun
    exact ih (fun r' hr' => hall r' (List.mem_cons_of_mem r hr')) (selfContained_effect hb r) h

theorem selfContained_foldl_effect (requests : List Request) {b : CodeBase}
    (hb : b.SelfContained) : (requests.foldl (fun b r => r.effect b) b).SelfContained := by
  induction requests generalizing b with
  | nil => exact hb
  | cons r requests ih => exact ih (selfContained_effect hb r)

end Request

end UnionInference
