import UnionInference.Proofs.CodeBase.ExpansionCache
import UnionInference.Proofs.Types.Listing

/-!
Sessions: requests, one after the other, to one table of types and one code base. Types are asked
for, elements registered, announced and taken back, members and classes looked up and types
expanded, in any order. Main statement: whatever was asked before, expanding a type from memory
finds what expanding it anew finds, and is refused where that is refused.
-/

namespace UnionInference

/-- A question to a code base. Answering may load classes and hand members down. -/
inductive LookUp where
  | hasClass (name : ClassName)
  | method (owner : ClassName) (name : String)
  | property (owner : ClassName) (name : String)
  | constant (owner : ClassName) (name : String)
  | methodsOf (owner : ClassName)
  | propertiesOf (owner : ClassName)
  | constantsOf (owner : ClassName)
  | hydrate (name : ClassName)
  | hydrateAll

/-- The code base after a question. -/
def CodeBase.lookUp (b : CodeBase) : LookUp → CodeBase
  | .hasClass name => (hasClass name b).2
  | .method owner name => (method? owner name b).2
  | .property owner name => (property? owner name b).2
  | .constant owner name => (constant? owner name b).2
  | .methodsOf owner => (methodsOf owner b).2
  | .propertiesOf owner => (propertiesOf owner b).2
  | .constantsOf owner => (constantsOf owner b).2
  | .hydrate name => (hydrate name b).2
  | .hydrateAll => (hydrateAll b).2

/-- A request to a table of types and a code base that are used together. -/
inductive Request where
  | type (r : TypeRequest)
  | register (r : Registration)
  | announce (name : ClassName) (d : ClassDefinition)
  | lookUp (q : LookUp)
  | isSubclassOf (child ancestor : ClassName)
  | expand (id : TypeId)

namespace Request

/-- Carries out a request and leaves its answer out. -/
def run : Request → ExpandM CodeBase Unit
  | .type r => do let _ ← ExpandM.types r.run
  | .register r => modify fun s => (s.1, s.2.register r)
  | .announce name d => modify fun s => (s.1, s.2.announce name d)
  | .lookUp q => modify fun s => (s.1, s.2.lookUp q)
  | .isSubclassOf child ancestor => do let _ ← CodeBase.isSubclassOf child ancestor
  | .expand id => do let _ ← expandType id

/-- A class is announced by a definition of that class. -/
def Honest : Request → Prop
  | .announce name d => d.decl.name.fold = name.fold
  | _ => True

/-- The types that a request makes have names by which types can be told apart. -/
def WellNamed : Request → Prop
  | .type r => ∀ kind, r.kind? = some kind → kind.WellNamed
  | .isSubclassOf child _ => (QualifiedName.make child.space child.name).WellFormed
  | _ => True

end Request

variable {t t' : TypeTable} {b b' : CodeBase}

/-! ### One request -/

/-- A question leaves what classes declare as it is. -/
theorem CodeBase.Loadable.lookUp (h : b.Loadable) (q : LookUp) : b.Loads (b.lookUp q) := by
  cases q with
  | hasClass name => exact (h.hasClass name).1
  | hydrate name => exact Loadable.hydrateWithin _ name h
  | hydrateAll =>
    show b.Loads (b.classNames.forM hydrate b).2
    rw [forM_eq_foldl]
    generalize b.classNames = names
    induction names generalizing b with
    | nil => exact Loads.refl h
    | cons name names ih =>
      have hfirst : b.Loads (hydrate name b).2 := Loadable.hydrateWithin _ name h
      exact hfirst.trans (ih hfirst.loadable)
  | method owner name => exact h.prepare owner
  | property owner name => exact h.prepare owner
  | constant owner name => exact h.prepare owner
  | methodsOf owner => exact h.prepare owner
  | propertiesOf owner => exact h.prepare owner
  | constantsOf owner => exact h.prepare owner

namespace ExpandM

variable {α β : Type}

/-- Work that keeps what is remembered fresh. -/
def KeepsFresh (p : ExpandM CodeBase α) : Prop :=
  ∀ (s s' : TypeTable × CodeBase) (a : α), CacheFresh s → p s = .ok (a, s') → CacheFresh s'

theorem Steady.keepsFresh {p : ExpandM CodeBase α} (hp : Steady p) : KeepsFresh p := by
  rintro ⟨t, b⟩ ⟨t', b'⟩ a hs h
  obtain ⟨hgrows, hloads⟩ := hp.grows hs.canonical hs.loadable h
  exact hs.step hgrows.canonical hgrows.keeps (hp.cache_eq hs.canonical hs.loadable h) hloads.moves

theorem KeepsFresh.bind {p : ExpandM CodeBase α} {f : α → ExpandM CodeBase β} (hp : KeepsFresh p)
    (hf : ∀ a, KeepsFresh (f a)) : KeepsFresh (p >>= f) := by
  intro s s' r hs h
  obtain ⟨a, s₁, hrun, h⟩ := bind_eq_ok.1 h
  exact hf a s₁ s' r (hp s s₁ a hs hrun) h

theorem keepsFresh_expandType (id : TypeId) :
    KeepsFresh (expandType id : ExpandM CodeBase UnionType) :=
  fun _ s' u hs h => (hs.expandType id).2 u s' h

theorem keepsFresh_type {r : TypeRequest} (hr : ∀ kind, r.kind? = some kind → kind.WellNamed) :
    KeepsFresh (types r.run : ExpandM CodeBase TypeId) := by
  rintro ⟨t, b⟩ ⟨t', b'⟩ id hs h
  obtain ⟨hrun, rfl⟩ := types_eq_ok.1 h
  have hgrows := hs.canonical.grows_of_run typeSort_wellNamed hs.canonical.named hr hrun
  refine hs.step hgrows.canonical hgrows.keeps ?_ (CodeBase.Loads.refl hs.loadable).moves
  rcases TypeRequest.run_cases hrun with rfl | ⟨kind, nullable, hintern, -⟩
  · rfl
  · exact TypeM.cache_of_intern hintern

theorem keepsFresh_expand (u : UnionType) :
    KeepsFresh (u.expand : ExpandM CodeBase UnionType) := by
  unfold UnionType.expand
  generalize UnionType.empty = result
  generalize u.members = ids
  induction ids generalizing result with
  | nil => exact (steady_pure result).keepsFresh
  | cons id ids ih =>
    rw [List.foldlM_cons]
    exact ((keepsFresh_expandType id).bind fun _ => (steady_pure _).keepsFresh).bind ih

theorem keepsFresh_hasAncestor (u : UnionType) (owner : ClassName) :
    KeepsFresh (u.hasAncestor owner : ExpandM CodeBase Bool) := by
  refine (keepsFresh_expand u).bind fun expanded => ?_
  induction expanded.members with
  | nil => exact (steady_pure false).keepsFresh
  | cons id ids ih =>
    refine KeepsFresh.bind ?_ fun found => ?_
    · refine (steady_fetch id).keepsFresh.bind fun ty => ?_
      split
      · exact (steady_pure _).keepsFresh
      · exact (steady_pure _).keepsFresh
    · split
      · exact (steady_pure _).keepsFresh
      · exact ih

theorem keepsFresh_isSubclassOf {child : ClassName} (ancestor : ClassName)
    (hname : (QualifiedName.make child.space child.name).WellFormed) :
    KeepsFresh (CodeBase.isSubclassOf child ancestor) := by
  rintro ⟨t, b⟩ s' a hs h
  unfold CodeBase.isSubclassOf at h
  split at h
  · cases h
    exact hs
  · have hloads := (hs.loadable.hasClass child).1
    have hloaded : CacheFresh (t, (CodeBase.hasClass child b).2) :=
      hs.step hs.canonical (TypeTable.Extends.refl t) rfl hloads.moves
    change (if (CodeBase.hasClass child b).1 then _ else _ : ExpandM CodeBase Bool)
      (t, (CodeBase.hasClass child b).2) = _ at h
    split at h
    · have hr : ∀ kind, (TypeRequest.classType child []).kind? = some kind → kind.WellNamed := by
        rintro kind ⟨⟩
        exact hname
      exact (keepsFresh_type hr).bind (fun id => keepsFresh_hasAncestor (.of id) ancestor)
        _ s' a hloaded h
    · cases h
      exact hloaded

/-- Every request keeps what is remembered fresh. -/
theorem keepsFresh_run {r : Request} (hr : r.Honest) (hn : r.WellNamed) : KeepsFresh r.run := by
  have hcode : ∀ (f : CodeBase → CodeBase), (∀ b : CodeBase, b.Loadable → b.Moves (f b)) →
      KeepsFresh (modify fun s => (s.1, f s.2) : ExpandM CodeBase Unit) := by
    rintro f hf ⟨t, b⟩ s' a hs h
    cases h
    exact hs.step hs.canonical (TypeTable.Extends.refl t) rfl (hf b hs.loadable)
  cases r with
  | type r => exact (keepsFresh_type hn).bind fun _ => (steady_pure ()).keepsFresh
  | register r => exact hcode _ fun b hb => hb.register r
  | announce name d => exact hcode _ fun b hb => hb.announce hr
  | lookUp q => exact hcode _ fun b hb => (hb.lookUp q).moves
  | isSubclassOf child ancestor =>
    exact (keepsFresh_isSubclassOf ancestor hn).bind fun _ => (steady_pure ()).keepsFresh
  | expand id => exact (keepsFresh_expandType id).bind fun _ => (steady_pure ()).keepsFresh

end ExpandM

/-! ### Whole sessions -/

/-- Requests one after the other keep what is remembered fresh. -/
theorem keepsFresh_session {requests : List Request}
    (hall : ∀ r ∈ requests, r.Honest ∧ r.WellNamed) :
    ExpandM.KeepsFresh (requests.forM Request.run) := by
  induction requests with
  | nil => exact (ExpandM.steady_pure ()).keepsFresh
  | cons r requests ih =>
    have hr := hall r List.mem_cons_self
    exact (ExpandM.keepsFresh_run hr.1 hr.2).bind fun _ =>
      ih fun r' hr' => hall r' (List.mem_cons_of_mem r hr')

/-- Nothing is remembered at the start. -/
theorem cacheFresh_start (nullCasts hydrateLazily : Bool) :
    CacheFresh (.initial nullCasts, .create hydrateLazily) := by
  have hempty := TypeTable.cache_initial nullCasts
  refine CacheFresh.of_empty (TypeTable.canonical_initial nullCasts)
    (CodeBase.fresh_create hydrateLazily).loadable hempty

/-- What is remembered is never out of date: after any requests, expanding a type from memory finds
what expanding it anew finds, and is refused as that is refused. -/
theorem expandType_eq_expandWithin {nullCasts hydrateLazily : Bool} {requests : List Request}
    (hhonest : ∀ r ∈ requests, r.Honest) (hnamed : ∀ r ∈ requests, r.WellNamed)
    {s : TypeTable × CodeBase}
    (hrun : requests.forM Request.run (.initial nullCasts, .create hydrateLazily) = .ok ((), s))
    (id : TypeId) :
    (expandType id s).map Prod.fst = (expandWithin maxExpansionDepth id s).map Prod.fst := by
  have hfresh := keepsFresh_session (fun r hr => ⟨hhonest r hr, hnamed r hr⟩) _ s ()
    (cacheFresh_start nullCasts hydrateLazily) hrun
  exact (hfresh.expandType id).1

/-! ### A class that is loaded while it is expanded -/

namespace Request

theorem run_type {r : TypeRequest} {id : TypeId} (h : r.run t = .ok (id, t')) :
    (Request.type r).run (t, b) = .ok ((), t', b) :=
  ExpandM.bind_eq_ok.2 ⟨id, (t', b), ExpandM.types_eq_ok.2 ⟨h, rfl⟩, rfl⟩

theorem run_expand {id : TypeId} {s s' : TypeTable × CodeBase} {u : UnionType}
    (h : expandType id s = .ok (u, s')) : (Request.expand id).run s = .ok ((), s') :=
  ExpandM.bind_eq_ok.2 ⟨u, s', h, rfl⟩

theorem forM_append {rs rs' : List Request} {s s₁ s₂ : TypeTable × CodeBase}
    (h : rs.forM run s = .ok ((), s₁)) (h' : rs'.forM run s₁ = .ok ((), s₂)) :
    (rs ++ rs').forM run s = .ok ((), s₂) := by
  rw [List.forM_eq_forM] at h h' ⊢
  rw [List.forM_append]
  exact ExpandM.bind_eq_ok.2 ⟨(), s₁, h, h'⟩

end Request

/-- A class with a parent, whose types come first after the built-in ones. -/
def heir : ClassDefinition where
  decl := { name := .make "\\" "Heir", parent := some (.make "\\" "Base"), type := .ofList [31, 32] }

/-- The code base in which the class is announced. -/
def heirBase : CodeBase := (CodeBase.create true).announce heir.decl.name heir

/-- The class is announced and then expanded. -/
def heirRequests : List Request :=
  [.type (.classType (.make "\\" "Heir") []), .type (.classType (.make "\\" "Base") []),
    .announce heir.decl.name heir, .expand 31]

theorem declared?_heirBase (c : ClassName) :
    heirBase.declared? c = if heir.decl.name.fold = c.fold then some heir.decl.type else none := by
  show Option.map ClassDecl.type (Option.or ((CodeBase.create true).class? c) (Option.map _
    ((({} : Std.HashMap QualifiedName PendingClass).insert _ _)[c.fold]?))) = _
  rw [CodeBase.class?_create, Std.HashMap.getElem?_insert, Std.HashMap.getElem?_empty]
  by_cases hc : heir.decl.name.fold = c.fold
  · rw [if_pos hc, if_pos (beq_iff_eq.2 hc)]
    rfl
  · rw [if_neg hc, if_neg (mt beq_iff_eq.1 hc)]
    rfl

/-- Expanding the announced class loads it and finds its parent. -/
theorem expandWithin_heir {names : List (String × TypeId)} {k₁ k₂ : String}
    (h : t.Lists [⟨⟨.object (.make "\\" "Heir") [], false⟩, k₁⟩,
      ⟨⟨.object (.make "\\" "Base") [], false⟩, k₂⟩] names) (n : Nat) :
    ∃ b, expandWithin (n + 2) 31 (t, heirBase) = .ok ((UnionType.of 31).union (.of 32), t, b) := by
  have hb : heirBase.Loadable := ((CodeBase.fresh_create true).loadable.announce rfl).loadable
  have hheir := h.entry (i := 31) (e := ⟨⟨.object (.make "\\" "Heir") [], false⟩, k₁⟩) rfl
  have hbase := h.entry (i := 32) (e := ⟨⟨.object (.make "\\" "Base") [], false⟩, k₂⟩) rfl
  obtain ⟨hdeclared, hloads⟩ := hb.declaredType (.make "\\" "Heir")
  rw [ExpandM.expandWithin_object hheir rfl, hdeclared, declared?_heirBase, if_pos (by decide)]
  generalize (CodeBase.declaredType (.make "\\" "Heir") heirBase).2 = b₁ at hloads
  have hparent := (hloads.loadable.declaredType (.make "\\" "Base")).1
  rw [hloads.declared, declared?_heirBase, if_neg (by decide)] at hparent
  refine ⟨(CodeBase.declaredType (.make "\\" "Base") b₁).2, ?_⟩
  refine ExpandM.bind_eq_ok.2 ⟨.of 31, (t, b₁), rfl, ?_⟩
  refine ExpandM.bind_eq_ok.2 ⟨(UnionType.of 31).union (.of 32), _, ?_, rfl⟩
  refine ExpandM.bind_eq_ok.2 ⟨32, (t, b₁), rfl, ?_⟩
  refine ExpandM.bind_eq_ok.2 ⟨_, _, ExpandM.fetch_apply hbase b₁, ?_⟩
  refine ExpandM.bind_eq_ok.2 ⟨.of 32, _, ?_, rfl⟩
  rw [ExpandM.expandWithin_object hbase rfl, hparent]

theorem run_heirRequests :
    ∃ s, heirRequests.forM Request.run (.initial false, .create true) = .ok ((), s) := by
  have hl := TypeTable.lists_initial false
  have hc := TypeTable.cache_initial false
  generalize TypeTable.initial false = t₀ at hl hc ⊢
  obtain ⟨t₁, h₁, l₁, c₁⟩ := hl.intern_new (TypeTable.writes_object _ (.make "\\" "Heir") false)
    (by decide) rfl
  obtain ⟨t₂, h₂, l₂, c₂⟩ := l₁.intern_new (TypeTable.writes_object _ (.make "\\" "Base") false)
    (by decide) rfl
  have hnone : (t₂.cache.sync heirBase.generation).entries[31]? = none := by
    rw [c₂, c₁, hc]
    exact Std.HashMap.getElem?_empty
  have hsync : (t₂.syncCache heirBase.generation).Lists _ _ := ⟨l₂.entries, l₂.byKey⟩
  obtain ⟨b, hexpand⟩ := expandWithin_heir hsync 18
  obtain ⟨s, hlast⟩ : ∃ s, (Request.expand 31).run (t₂, heirBase) = .ok ((), s) :=
    ⟨_, Request.run_expand (expandType_of_none hnone hexpand)⟩
  refine ⟨s, ?_⟩
  refine ExpandM.bind_eq_ok.2 ⟨(), (t₁, .create true), Request.run_type h₁, ?_⟩
  refine ExpandM.bind_eq_ok.2 ⟨(), (t₂, .create true), Request.run_type h₂, ?_⟩
  refine ExpandM.bind_eq_ok.2 ⟨(), (t₂, heirBase), rfl, ?_⟩
  exact ExpandM.bind_eq_ok.2 ⟨(), s, hlast, rfl⟩

/-- A class that was announced, and loaded only when it was expanded, expands as before. -/
theorem expandType_eq_expandWithin_heir :
    ∃ s, heirRequests.forM Request.run (.initial false, .create true) = .ok ((), s) ∧
      (expandType 31 s).map Prod.fst = (expandWithin maxExpansionDepth 31 s).map Prod.fst := by
  obtain ⟨s, hrun⟩ := run_heirRequests
  refine ⟨s, hrun, expandType_eq_expandWithin ?_ ?_ hrun 31⟩
  · simp [heirRequests, Request.Honest]
  · have hheir : (QualifiedName.make "\\" "Heir").WellFormed :=
      ⟨["Heir".toList], by decide, by decide, by decide⟩
    have hbase : (QualifiedName.make "\\" "Base").WellFormed :=
      ⟨["Base".toList], by decide, by decide, by decide⟩
    refine List.forall_mem_cons.2 ⟨?_, List.forall_mem_cons.2 ⟨?_, ?_⟩⟩
    · rintro kind ⟨⟩
      exact hheir
    · rintro kind ⟨⟩
      exact hbase
    · simp [Request.WellNamed]

/-! ### A class that is written like an array

The nullable arrays of objects of the class `\A` are written like the nullable objects of a class
named `\A[]`. When an expansion makes the latter, they take over the text of the former. -/

/-- A class whose parent is written like an array. -/
def lookalike : ClassDecl where
  name := .make "\\" "X"
  parent := some (.make "\\" "A[]")
  type := .ofList [31, 32]

/-- The code base with this class. -/
def lookalikeBase : CodeBase := .registered true [.classDecl lookalike]

/-- The class is registered and types are asked for. -/
def lookalikeTypes : List Request :=
  [.type (.classType (.make "\\" "X") []), .type (.classType (.make "\\" "A[]") []),
    .register (.classDecl lookalike), .type (.classType (.make "\\" "A") []),
    .type (.array .mixed 33 true), .type (.make "\\" "X" [] true)]

/-- Then two types are expanded: the nullable arrays of `\A` and the nullable objects of the class.
-/
def lookalikeRequests : List Request := lookalikeTypes ++ [.expand 34, .expand 35]

/-- The types that are asked for, from place 31 on. -/
def lookalikeRows : List TypeEntry :=
  [⟨⟨.object (.make "\\" "X") [], false⟩, "\\X"⟩, ⟨⟨.object (.make "\\" "A[]") [], false⟩, "\\A[]"⟩,
    ⟨⟨.object (.make "\\" "A") [], false⟩, "\\A"⟩, ⟨⟨.array .mixed 33, true⟩, "?\\A[]"⟩,
    ⟨⟨.object (.make "\\" "X") [], true⟩, "?\\X"⟩]

/-- Where they are found. -/
def lookalikeNames : List (String × TypeId) :=
  [("?\\X", 35), ("?\\x", 35), ("?\\A[]", 34), ("?\\A[]", 34), ("\\A", 33), ("\\a", 33),
    ("\\A[]", 32), ("\\a[]", 32), ("\\X", 31), ("\\x", 31)]

theorem declaredType_lookalikeBase (c : ClassName) : CodeBase.declaredType c lookalikeBase =
    (if lookalike.name.fold = c.fold then some lookalike.type else none, lookalikeBase) := by
  have hfresh : lookalikeBase.Fresh := CodeBase.fresh_registered true _
  have hclass : lookalikeBase.class? c =
      if lookalike.name.fold = c.fold then some lookalike else none := by
    rw [← CodeBase.class?_create true c]
    exact CodeBase.class?_addClass OrderedTable.valid_empty _ c
  rw [hfresh.declaredType, hclass]
  split <;> rfl

section

variable {rows : List TypeEntry} {names : List (String × TypeId)} {id : TypeId}

/-- Other classes have no ancestors. -/
theorem expandWithin_other {name : ClassName} {nullable : Bool} {key : String}
    (he : t.entries[id]? = some ⟨⟨.object name [], nullable⟩, key⟩)
    (hne : lookalike.name.fold ≠ name.fold) (n : Nat) :
    expandWithin (n + 1) id (t, lookalikeBase) = .ok (.of id, t, lookalikeBase) := by
  rw [ExpandM.expandWithin_object he rfl, declaredType_lookalikeBase, if_neg hne]

/-- The arrays expand to whatever is found under their text. -/
theorem expandWithin_arrays (h : t.Lists (lookalikeRows ++ rows) names)
    (hid : names.lookup "?\\A[]" = some id) (n : Nat) :
    expandWithin (n + 2) 34 (t, lookalikeBase) = .ok (.of id, t, lookalikeBase) := by
  have harray := h.entry (i := 34) (e := ⟨⟨.array .mixed 33, true⟩, "?\\A[]"⟩) rfl
  have helement := h.entry (i := 33) (e := ⟨⟨.object (.make "\\" "A") [], false⟩, "\\A"⟩) rfl
  have hfound : TypeM.intern (.array .mixed 33) true t = .ok (id, t) :=
    h.intern_found (h.writes_array 33 rfl true) (by decide) hid
  rw [ExpandM.expandWithin_array harray rfl helement rfl]
  refine ExpandM.bind_eq_ok.2 ⟨.of 33, _, expandWithin_other helement (by decide) n, ?_⟩
  refine ExpandM.types_eq_ok.2 ⟨TypeM.bind_eq_ok.2 ⟨[id], t, ?_, rfl⟩, rfl⟩
  exact TypeM.bind_eq_ok.2 ⟨id, t, hfound, rfl⟩

theorem withNull_object {name : ClassName} {key : String}
    (he : t.entries[id]? = some ⟨⟨.object name [], false⟩, key⟩) :
    TypeM.withNull id true t = TypeM.intern (.object name []) true t := by
  have hfetch : TypeM.fetch id t = .ok (⟨.object name [], false⟩, t) :=
    TypeM.fetch_eq_ok.2 ⟨rfl, _, he, rfl⟩
  rw [TypeM.withNull, TypeM.bind_apply, hfetch]
  rfl

/-- Expanding the nullable objects of the class makes those of its parent. -/
theorem expandWithin_lookalike (h : t.Lists lookalikeRows lookalikeNames) (n : Nat) :
    ∃ t', expandWithin (n + 2) 35 (t, lookalikeBase) =
        .ok ((UnionType.of 35).union (.of 36), t', lookalikeBase) ∧
      t'.Lists (lookalikeRows ++ [⟨⟨.object (.make "\\" "A[]") [], true⟩, "?\\A[]"⟩])
        (("?\\A[]", 36) :: ("?\\a[]", 36) :: lookalikeNames) ∧ t'.cache = t.cache := by
  obtain ⟨t', hnew, hlists, hcache⟩ :=
    h.intern_new (TypeTable.writes_object t (.make "\\" "A[]") true) (by decide) rfl
  refine ⟨t', ?_, hlists, hcache⟩
  have hfound : TypeM.intern (.object (.make "\\" "X") []) true t = .ok (35, t) :=
    h.intern_found (TypeTable.writes_object t (.make "\\" "X") true) (by decide) rfl
  have hself : TypeM.withNull 31 true t = .ok (35, t) :=
    (withNull_object (h.entry (i := 31) rfl)).trans hfound
  have hparent : TypeM.withNull 32 true t = .ok (36, t') :=
    (withNull_object (h.entry (i := 32) rfl)).trans hnew
  have hobject := h.entry (i := 35) (e := ⟨⟨.object (.make "\\" "X") [], true⟩, "?\\X"⟩) rfl
  have hentry := hlists.entry (i := 36)
    (e := ⟨⟨.object (.make "\\" "A[]") [], true⟩, "?\\A[]"⟩) rfl
  rw [ExpandM.expandWithin_object hobject rfl, declaredType_lookalikeBase, if_pos (by decide)]
  -- the class itself adds nothing, and the parent adds its nullable objects
  refine ExpandM.bind_eq_ok.2 ⟨.of 35, (t, lookalikeBase), ?_, ?_⟩
  · exact ExpandM.bind_eq_ok.2 ⟨35, _, ExpandM.types_eq_ok.2 ⟨hself, rfl⟩, rfl⟩
  · refine ExpandM.bind_eq_ok.2 ⟨(UnionType.of 35).union (.of 36), (t', lookalikeBase), ?_, rfl⟩
    refine ExpandM.bind_eq_ok.2 ⟨36, _, ExpandM.types_eq_ok.2 ⟨hparent, rfl⟩, ?_⟩
    refine ExpandM.bind_eq_ok.2 ⟨_, _, ExpandM.fetch_apply hentry _, ?_⟩
    refine ExpandM.bind_eq_ok.2 ⟨.of 36, (t', lookalikeBase), ?_, rfl⟩
    exact expandWithin_other hentry (by decide) n

/-- A type that was not remembered is remembered after its expansion. -/
theorem run_expand_remembers {t₁ : TypeTable} {u : UnionType}
    (hnone : (t.cache.sync b.generation).entries[id]? = none)
    (hrun : expandWithin maxExpansionDepth id (t.syncCache b.generation, b) = .ok (u, t₁, b))
    (hcache : t₁.cache = t.cache.sync b.generation) (hlists : t₁.Lists rows names) :
    ∃ t', (Request.expand id).run (t, b) = .ok ((), t', b) ∧ t'.Lists rows names ∧
      t'.cache = ⟨b.generation, (t.cache.sync b.generation).entries.insert id u⟩ := by
  refine ⟨(t₁.syncCache b.generation).remember id u,
    Request.run_expand (expandType_of_none hnone hrun), ⟨hlists.entries, hlists.byKey⟩, ?_⟩
  have hgen := t.cache.generation_sync b.generation
  show ExpansionCache.mk (t₁.cache.sync b.generation).generation
    ((t₁.cache.sync b.generation).entries.insert id u) = _
  rw [hcache, ExpansionCache.sync_of_generation hgen, hgen]

end

theorem run_lookalikeTypes :
    ∃ t, lookalikeTypes.forM Request.run (.initial false, .create true) =
        .ok ((), t, lookalikeBase) ∧ t.Lists lookalikeRows lookalikeNames ∧ t.cache = {} := by
  have hl := TypeTable.lists_initial false
  have hc := TypeTable.cache_initial false
  generalize TypeTable.initial false = t₀ at hl hc ⊢
  obtain ⟨t₁, h₁, l₁, c₁⟩ := hl.intern_new (TypeTable.writes_object _ (.make "\\" "X") false)
    (by decide) rfl
  obtain ⟨t₂, h₂, l₂, c₂⟩ := l₁.intern_new (TypeTable.writes_object _ (.make "\\" "A[]") false)
    (by decide) rfl
  obtain ⟨t₃, h₃, l₃, c₃⟩ := l₂.intern_new (TypeTable.writes_object _ (.make "\\" "A") false)
    (by decide) rfl
  obtain ⟨t₄, h₄, l₄, c₄⟩ := l₃.intern_new (l₃.writes_array 33 rfl true) (by decide) rfl
  obtain ⟨t₅, h₅, l₅, c₅⟩ := l₄.intern_new (TypeTable.writes_object _ (.make "\\" "X") true)
    (by decide) rfl
  refine ⟨t₅, ?_, l₅, ?_⟩
  · refine ExpandM.bind_eq_ok.2 ⟨(), (t₁, .create true), Request.run_type h₁, ?_⟩
    refine ExpandM.bind_eq_ok.2 ⟨(), (t₂, .create true), Request.run_type h₂, ?_⟩
    refine ExpandM.bind_eq_ok.2 ⟨(), (t₂, lookalikeBase), rfl, ?_⟩
    refine ExpandM.bind_eq_ok.2 ⟨(), (t₃, lookalikeBase), Request.run_type h₃, ?_⟩
    refine ExpandM.bind_eq_ok.2 ⟨(), (t₄, lookalikeBase), Request.run_type h₄, ?_⟩
    exact ExpandM.bind_eq_ok.2 ⟨(), (t₅, lookalikeBase), Request.run_type h₅, rfl⟩
  · rw [c₅, c₄, c₃, c₂, c₁, hc]

/-- The arrays are expanded and remembered. -/
theorem run_expand_arrays (hlists : t.Lists lookalikeRows lookalikeNames) (hcache : t.cache = {}) :
    ∃ t', (Request.expand 34).run (t, lookalikeBase) = .ok ((), t', lookalikeBase) ∧
      t'.Lists lookalikeRows lookalikeNames ∧
      t'.cache = ⟨lookalikeBase.generation, ({} : Std.HashMap TypeId UnionType).insert 34 (.of 34)⟩ := by
  have hsync : (t.syncCache lookalikeBase.generation).Lists lookalikeRows lookalikeNames :=
    ⟨hlists.entries, hlists.byKey⟩
  have hempty : t.cache.sync lookalikeBase.generation = ⟨lookalikeBase.generation, {}⟩ := by
    rw [hcache]
    rfl
  have hnone : (t.cache.sync lookalikeBase.generation).entries[34]? = none := by
    rw [hempty]
    exact Std.HashMap.getElem?_empty
  have hstep := run_expand_remembers hnone (expandWithin_arrays hsync rfl 18) rfl hsync
  rwa [hempty] at hstep

/-- The second expansion takes the text of the arrays over, and leaves them remembered. -/
theorem run_expand_lookalike (hlists : t.Lists lookalikeRows lookalikeNames)
    (hcache : t.cache =
      ⟨lookalikeBase.generation, ({} : Std.HashMap TypeId UnionType).insert 34 (.of 34)⟩) :
    ∃ t' names, (Request.expand 35).run (t, lookalikeBase) = .ok ((), t', lookalikeBase) ∧
      t'.Lists (lookalikeRows ++ [⟨⟨.object (.make "\\" "A[]") [], true⟩, "?\\A[]"⟩]) names ∧
      names.lookup "?\\A[]" = some 36 ∧ t'.cache.generation = lookalikeBase.generation ∧
      t'.cache.entries[34]? = some (.of 34) := by
  have hkept : t.cache.sync lookalikeBase.generation = t.cache :=
    ExpansionCache.sync_of_generation (by rw [hcache])
  have hnone : (t.cache.sync lookalikeBase.generation).entries[35]? = none := by
    rw [hkept, hcache, Std.HashMap.getElem?_insert, Std.HashMap.getElem?_empty]
    rfl
  obtain ⟨t₁, hexpand, hlists₁, hcache₁⟩ := expandWithin_lookalike hlists 18
  have hrun : expandWithin maxExpansionDepth 35 (t.syncCache lookalikeBase.generation, lookalikeBase) =
      .ok ((UnionType.of 35).union (.of 36), t₁, lookalikeBase) := by
    rw [TypeTable.syncCache, hkept]
    exact hexpand
  obtain ⟨t', hstep, hlists', hcache'⟩ :=
    run_expand_remembers hnone hrun (hcache₁.trans hkept.symm) hlists₁
  refine ⟨t', _, hstep, hlists', rfl, by rw [hcache'], ?_⟩
  rw [hcache', hkept, hcache, Std.HashMap.getElem?_insert, Std.HashMap.getElem?_insert]
  rfl

/-- Where names do not tell types apart, what is remembered can be out of date. -/
theorem expandType_ne_expandWithin_lookalike :
    ∃ s, (∀ r ∈ lookalikeRequests, r.Honest) ∧
      lookalikeRequests.forM Request.run (.initial false, .create true) = .ok ((), s) ∧
      (expandType 34 s).map Prod.fst = .ok (.of 34) ∧
      (expandWithin maxExpansionDepth 34 s).map Prod.fst = .ok (.of 36) ∧
      UnionType.of 34 ≠ .of 36 := by
  obtain ⟨t, hrun, hlists, hcache⟩ := run_lookalikeTypes
  obtain ⟨t₁, hrun₁, hlists₁, hcache₁⟩ := run_expand_arrays hlists hcache
  obtain ⟨t₂, names, hrun₂, hlists₂, hlookup, hgen, hcached⟩ := run_expand_lookalike hlists₁ hcache₁
  refine ⟨(t₂, lookalikeBase), ?_, ?_, ?_, ?_, by decide⟩
  · simp [lookalikeRequests, lookalikeTypes, Request.Honest]
  · refine Request.forM_append hrun ?_
    refine ExpandM.bind_eq_ok.2 ⟨(), (t₁, lookalikeBase), hrun₁, ?_⟩
    exact ExpandM.bind_eq_ok.2 ⟨(), (t₂, lookalikeBase), hrun₂, rfl⟩
  · rw [expandType_apply, ExpansionCache.sync_of_generation hgen, hcached]
    rfl
  · rw [show maxExpansionDepth = 18 + 2 from rfl, expandWithin_arrays hlists₂ hlookup 18]
    rfl

end UnionInference
