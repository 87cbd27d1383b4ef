import UnionInference.Proofs.CodeBase.Copies
import UnionInference.Proofs.CodeBase.Inheritance

/-!
What questions add to a code base in which nothing is loaded on demand: behind the members that a
class has, copies of members that its ancestors have, and marks on the classes that have received
theirs. Where every member can be traced to the class that declares it, nothing is handed to that
class, not even on a cycle of classes, because it has a member under the same key already; so what
is added are inherited members.
-/

namespace UnionInference

namespace OrderedTable

variable {κ ν : Type} [BEq κ] [Hashable κ]

/-- The second table has the entries of the first one in their places, and then others that satisfy
a condition. -/
def GrowsBy (p : κ → ν → Prop) (t t' : OrderedTable κ ν) : Prop :=
  ∃ added, t'.toList = t.toList ++ added ∧ ∀ e ∈ added, p e.1 e.2

namespace GrowsBy

variable {p : κ → ν → Prop} {t t₁ t₂ : OrderedTable κ ν}

theorem refl (p : κ → ν → Prop) (t : OrderedTable κ ν) : GrowsBy p t t :=
  ⟨[], (List.append_nil _).symm, fun _ h => nomatch h⟩

theorem trans (h₁ : GrowsBy p t t₁) (h₂ : GrowsBy p t₁ t₂) : GrowsBy p t t₂ := by
  obtain ⟨added, hadded, hp⟩ := h₁
  obtain ⟨added', hadded', hp'⟩ := h₂
  refine ⟨added ++ added', by rw [hadded', hadded, List.append_assoc], fun e he => ?_⟩
  rcases List.mem_append.1 he with he | he
  · exact hp e he
  · exact hp' e he

theorem mono {q : κ → ν → Prop} (h : GrowsBy p t t₁) (hpq : ∀ k v, p k v → q k v) :
    GrowsBy q t t₁ := by
  obtain ⟨added, hadded, hp⟩ := h
  exact ⟨added, hadded, fun e he => hpq e.1 e.2 (hp e he)⟩

theorem mem {e : κ × ν} (h : GrowsBy p t t₁) (he : e ∈ t.toList) : e ∈ t₁.toList := by
  obtain ⟨added, hadded, -⟩ := h
  rw [hadded]
  exact List.mem_append_left added he

theorem get?_eq_some [LawfulBEq κ] {k : κ} {v : ν} (h : GrowsBy p t t₁) (ht : t.Valid)
    (ht₁ : t₁.Valid) (hk : t.get? k = some v) : t₁.get? k = some v :=
  ht₁.get?_eq_some_iff.2 (h.mem (ht.get?_eq_some_iff.1 hk))

end GrowsBy

end OrderedTable

/-! ### Copies of members -/

open ClassMember

namespace MemberTables

variable {μ : Type} [ClassMember μ] {ms ms₁ ms₂ : MemberTables μ}
  {above : ClassName → ClassName → Prop} {c d : ClassName} {k : String} {m : μ}

/-- The member is the copy, for a class, of one that a class above it has under the key. -/
def HandedDown (above : ClassName → ClassName → Prop) (ms : MemberTables μ) (c : ClassName)
    (k : String) (m : μ) : Prop :=
  ∃ a m₀ c', above a c ∧ (k, m₀) ∈ (ms.table a).toList ∧ c'.fold = c.fold ∧ m = moveTo m₀ c'

/-- The classes have the members that they had, in their places, and then copies of members that
the classes above them had. -/
structure Supplements (above : ClassName → ClassName → Prop) (ms ms₁ : MemberTables μ) :
    Prop where
  valid : ms₁.Valid
  grows : ∀ c, (ms.table c).GrowsBy (ms.HandedDown above c) (ms₁.table c)

theorem Supplements.refl (hv : ms.Valid) : ms.Supplements above ms := ⟨hv, fun _ => .refl _ _⟩

theorem adopt_eq_append (owner : ClassName) (inherited own : List (String × μ)) :
    ∃ added, adopt owner own inherited = own ++ added ∧
      ∀ e ∈ added, ∃ m, (e.1, m) ∈ inherited ∧ e.2 = moveTo m owner := by
  induction inherited generalizing own with
  | nil => exact ⟨[], (List.append_nil own).symm, fun _ h => nomatch h⟩
  | cons x xs ih =>
    rw [adopt, List.foldl_cons]
    split
    · -- the class has a member under this key
      obtain ⟨added, hadded, hnew⟩ := ih own
      refine ⟨added, hadded, fun e he => ?_⟩
      obtain ⟨m, hm, hcopy⟩ := hnew e he
      exact ⟨m, List.mem_cons_of_mem x hm, hcopy⟩
    · obtain ⟨added, hadded, hnew⟩ := ih (own ++ [(x.1, moveTo x.2 owner)])
      refine ⟨(x.1, moveTo x.2 owner) :: added, hadded.trans (List.append_assoc ..), ?_⟩
      rintro e (_ | ⟨_, he⟩)
      · exact ⟨x.2, List.mem_cons_self, rfl⟩
      · obtain ⟨m, hm, hcopy⟩ := hnew e he
        exact ⟨m, List.mem_cons_of_mem x hm, hcopy⟩

/-- Handing members down to a class from one above it adds copies of them. -/
theorem Supplements.inherit (hv : ms.Valid) {source target : ClassName}
    (habove : ∀ c, target.fold = c.fold → above source c) :
    ms.Supplements above (ms.inherit source target) := by
  refine ⟨hv.inherit source target, fun c => ?_⟩
  by_cases hc : target.fold = c.fold
  · obtain ⟨added, hadded, hnew⟩ :=
      adopt_eq_append target (ms.table source).toList (ms.table target).toList
    rw [← hv.toList_table_inherit] at hadded
    rw [← table_congr _ hc, ← table_congr _ hc]
    refine ⟨added, hadded, fun e he => ?_⟩
    obtain ⟨m, hm, hcopy⟩ := hnew e he
    exact ⟨source, m, target, habove c hc, hm, hc, hcopy⟩
  · rw [table_inherit_of_ne hc]
    exact .refl _ _

/-! #### Own members -/

/-- Where a class above holds a member that the class itself declares, the class has one under the
key too. -/
def Owns (above : ClassName → ClassName → Prop) (ms : MemberTables μ) (c : ClassName) : Prop :=
  ∀ a, above a c → ∀ e ∈ (ms.table a).toList, (definedAs e.2).owner.fold = c.fold →
    e.1 ∈ (ms.table c).keys

/-- Every member can be traced: the class that declares it has a member under its key. -/
def Traceable (ms : MemberTables μ) : Prop :=
  ∀ (c : ClassName), ∀ e ∈ (ms.table c).toList, e.1 ∈ (ms.table (definedAs e.2).owner).keys

theorem Traceable.owns (h : ms.Traceable) (c : ClassName) : ms.Owns above c := by
  intro a _ e he hown
  rw [← table_congr ms hown]
  exact h a e he

theorem traceable_empty : ({} : MemberTables μ).Traceable := by
  intro c e he
  simp [table, table?, OrderedTable.toList, OrderedTable.empty] at he

theorem keys_add (hv : ms.Valid) (m : μ) (c : ClassName) {k : String}
    (h : k ∈ (ms.table c).keys) : k ∈ ((ms.add m).table c).keys := by
  by_cases hc : (name m).owner.fold = c.fold
  · rw [← table_congr _ hc] at h ⊢
    rw [add, table_setTable_self]
    obtain ⟨e, he, rfl⟩ := List.mem_map.1 h
    by_cases hk : e.1 = key μ (name m).name
    · exact List.mem_map.2 ⟨_, (hv _).mem_insert_iff.2 (.inl rfl), hk.symm⟩
    · exact List.mem_map_of_mem ((hv _).mem_insert_iff.2 (.inr ⟨hk, he⟩))
  · rwa [add, table_setTable_of_ne _ hc]

/-- A member that its own class declares can be traced to itself. -/
theorem Traceable.add (hv : ms.Valid) (ht : ms.Traceable) (hm : isInherited m = false) :
    (ms.add m).Traceable := by
  intro c e he
  by_cases hc : (name m).owner.fold = c.fold
  · rw [← table_congr _ hc, MemberTables.add, table_setTable_self,
      (hv (name m).owner).mem_insert_iff] at he
    rcases he with rfl | ⟨-, he⟩
    · have hown : (name m).owner.fold = (definedAs m).owner.fold := by
        simpa [isInherited, QualifiedName.sameClass] using hm
      rw [← table_congr _ hown, MemberTables.add, table_setTable_self]
      exact List.mem_map.2 ⟨_, (hv _).mem_insert_iff.2 (.inl rfl), rfl⟩
    · exact keys_add hv m _ (ht _ e he)
  · rw [MemberTables.add, table_setTable_of_ne _ hc] at he
    exact keys_add hv m _ (ht c e he)

/-! #### Copies of copies -/

variable [MemberSort μ]

/-- A copy of a copy is a copy. -/
theorem Supplements.handedDown (h : ms.Supplements above ms₁)
    (htrans : ∀ a d c, above a d → above d c → above a c) (hm : ms₁.HandedDown above c k m) :
    ms.HandedDown above c k m := by
  obtain ⟨d, m₁, c', hd, hm₁, hc', rfl⟩ := hm
  obtain ⟨added, hadded, hnew⟩ := h.grows d
  rw [hadded] at hm₁
  rcases List.mem_append.1 hm₁ with hold | hcopied
  · exact ⟨d, m₁, c', hd, hold, hc', rfl⟩
  · obtain ⟨a, m₀, d', ha, hm₀, -, hm₁⟩ := hnew _ hcopied
    refine ⟨a, m₀, c', htrans a d c ha hd, hm₀, hc', ?_⟩
    rw [show m₁ = moveTo m₀ d' from hm₁, MemberSort.moveTo_moveTo]

theorem Supplements.trans (htrans : ∀ a d c, above a d → above d c → above a c)
    (h₁ : ms.Supplements above ms₁) (h₂ : ms₁.Supplements above ms₂) : ms.Supplements above ms₂ :=
  ⟨h₂.valid, fun c => (h₁.grows c).trans ((h₂.grows c).mono fun _ _ => h₁.handedDown htrans)⟩

/-- A copy can be traced to where its original can be traced to. -/
theorem Supplements.traceable (h : ms.Supplements above ms₁) (ht : ms.Traceable) :
    ms₁.Traceable := by
  have hkeys : ∀ c k, k ∈ (ms.table c).keys → k ∈ (ms₁.table c).keys := by
    intro c k hk
    obtain ⟨e, he, rfl⟩ := List.mem_map.1 hk
    exact List.mem_map_of_mem ((h.grows c).mem he)
  intro c e he
  obtain ⟨added, hadded, hnew⟩ := h.grows c
  rw [hadded] at he
  rcases List.mem_append.1 he with hold | hcopied
  · exact hkeys _ _ (ht c e hold)
  · obtain ⟨a, m₀, c', -, hm₀, -, hcopy⟩ := hnew e hcopied
    rw [hcopy, MemberSort.definedAs_moveTo]
    exact hkeys _ _ (ht a (e.1, m₀) hm₀)

end MemberTables

/-! ### The code base -/

namespace CodeBase

variable {b b₁ b₂ : CodeBase} {c : ClassName}

/-- Nothing is loaded on demand, and the tables are valid. -/
structure Orderly (b : CodeBase) : Prop where
  selfContained : b.SelfContained
  tabled : b.Tabled

theorem orderly_create (hydrateLazily : Bool) : (create hydrateLazily).Orderly :=
  ⟨(fresh_create hydrateLazily).selfContained, (fresh_create hydrateLazily).tabled⟩

theorem isAncestor_of_classes (h : b₁.classes = b.classes) : b₁.IsAncestor = b.IsAncestor := by
  have hsources : b₁.sourcesOf = b.sourcesOf := by
    funext c
    rw [sourcesOf, sourcesOf, class?, class?, h]
    congr 1
    funext s
    rw [isRegistered, isRegistered, h]
  unfold IsAncestor IsSource
  rw [hsources]

theorem Feeds.isAncestor {s : ClassName} (h : b.Feeds s c) : b.IsAncestor s c := by
  obtain ⟨hreg, decl, hdecl, hs⟩ := h
  refine .single (isSource_of_mem (List.mem_filter.2 ⟨?_, hreg⟩))
  rw [hdecl, Option.map_some, Option.getD_some, ← sources_eq_lineage]
  exact hs

/-- The second code base is the first one with more marks, and with copies of members that the
ancestors of a class have. -/
structure Supplements (b b₁ : CodeBase) : Prop where
  classes : b₁.classes = b.classes
  pending : b₁.pending = b.pending
  resolver : b₁.resolver = b.resolver
  functions : b₁.functions = b.functions
  globals : b₁.globals = b.globals
  hydrateLazily : b₁.hydrateLazily = b.hydrateLazily
  undo : b₁.undo = b.undo
  generation : b₁.generation = b.generation
  events : b₁.events = b.events
  methods : b.methods.Supplements b.IsAncestor b₁.methods
  properties : b.properties.Supplements b.IsAncestor b₁.properties
  constants : b.constants.Supplements b.IsAncestor b₁.constants
  marks : ∀ k, b.hydrated.contains k = true → b₁.hydrated.contains k = true

theorem Supplements.refl (h : b.Orderly) : b.Supplements b :=
  ⟨rfl, rfl, rfl, rfl, rfl, rfl, rfl, rfl, rfl, .refl h.tabled.methods, .refl h.tabled.properties,
    .refl h.tabled.constants, fun _ hk => hk⟩

theorem Supplements.isAncestor (h : b.Supplements b₁) : b₁.IsAncestor = b.IsAncestor :=
  isAncestor_of_classes h.classes

theorem Supplements.trans (h₁ : b.Supplements b₁) (h₂ : b₁.Supplements b₂) : b.Supplements b₂ where
  classes := h₂.classes.trans h₁.classes
  pending := h₂.pending.trans h₁.pending
  resolver := h₂.resolver.trans h₁.resolver
  functions := h₂.functions.trans h₁.functions
  globals := h₂.globals.trans h₁.globals
  hydrateLazily := h₂.hydrateLazily.trans h₁.hydrateLazily
  undo := h₂.undo.trans h₁.undo
  generation := h₂.generation.trans h₁.generation
  events := h₂.events.trans h₁.events
  methods := h₁.methods.trans (fun _ _ _ => .trans) (h₁.isAncestor ▸ h₂.methods)
  properties := h₁.properties.trans (fun _ _ _ => .trans) (h₁.isAncestor ▸ h₂.properties)
  constants := h₁.constants.trans (fun _ _ _ => .trans) (h₁.isAncestor ▸ h₂.constants)
  marks k hk := h₂.marks k (h₁.marks k hk)

theorem Supplements.orderly (hb : b.Orderly) (h : b.Supplements b₁) : b₁.Orderly where
  selfContained := hb.selfContained.sameClasses ⟨h.classes, h.pending, h.resolver, h.generation⟩
  tabled :=
    { classes := h.classes ▸ hb.tabled.classes
      spelling := h.classes ▸ hb.tabled.spelling
      methods := h.methods.valid
      properties := h.properties.valid
      constants := h.constants.valid }

/-- The members of all three sorts can be traced. -/
structure Traceable (b : CodeBase) : Prop where
  methods : b.methods.Traceable
  properties : b.properties.Traceable
  constants : b.constants.Traceable

theorem traceable_create (hydrateLazily : Bool) : (create hydrateLazily).Traceable :=
  ⟨MemberTables.traceable_empty, MemberTables.traceable_empty, MemberTables.traceable_empty⟩

theorem Supplements.traceable (h : b.Supplements b₁) (ht : b.Traceable) : b₁.Traceable :=
  ⟨h.methods.traceable ht.methods, h.properties.traceable ht.properties,
    h.constants.traceable ht.constants⟩

/-- Registering an element that is declared where it stands. -/
theorem Traceable.put (ht : b.Traceable) (hb : b.Tabled) {x : Element} (hx : x.isInherited = false) :
    (b.put x).Traceable := by
  cases x with
  | method m => exact { ht with methods := ht.methods.add hb.methods hx }
  | property p => exact { ht with properties := ht.properties.add hb.properties hx }
  | classConstant c => exact { ht with constants := ht.constants.add hb.constants hx }
  | classDecl | function | globalConstant => exact { ht with }

theorem Supplements.mark (hb : b.Orderly) (c : ClassName) : b.Supplements (b.mark c) :=
  { Supplements.refl hb with
    marks := fun k hk => by simp [CodeBase.mark, hk] }

theorem Supplements.inherit (hb : b.Orderly) {source target : ClassName}
    (h : b.Feeds source target) : b.Supplements (b.inherit source target) :=
  { Supplements.refl hb with
    methods := .inherit hb.tabled.methods fun _ => h.isAncestor.congr_right
    properties := .inherit hb.tabled.properties fun _ => h.isAncestor.congr_right
    constants := .inherit hb.tabled.constants fun _ => h.isAncestor.congr_right }

/-- Filling a class only supplements the code base. -/
theorem Orderly.supplements_hydrateWithin (hb : b.Orderly) (n : Nat) (c : ClassName) :
    b.Supplements (hydrateWithin n c b).2 :=
  SelfContained.hydrateWithin_induction (P := fun b₁ => b.Supplements b₁)
    (fun _ h => (h.orderly hb).selfContained)
    (fun _ c h => h.trans (.mark (h.orderly hb) c))
    (fun _ _ _ hfeeds h => h.trans (.inherit (h.orderly hb) hfeeds)) n c (.refl hb)

theorem Orderly.hydrate (hb : b.Orderly) (c : ClassName) : b.Supplements (hydrate c b).2 :=
  hb.supplements_hydrateWithin b.hydrationBound c

theorem Orderly.prepare (hb : b.Orderly) (c : ClassName) : b.Supplements (prepare c b).2 := by
  rw [hb.selfContained.prepare_eq]
  split
  · exact hb.hydrate c
  · exact .refl hb

/-- The class is filled first, where classes are filled on demand, and then it must be registered. -/
theorem getClass_apply (c : ClassName) (b : CodeBase) :
    getClass c b =
      let filled := if b.hydrateLazily then (hydrate c b).2 else b
      match filled.class? c with
      | some decl => .ok (decl, filled)
      | none => .error (.unknownClass c) := by
  have hfound : ∀ b : CodeBase, (match b.class? c with
      | some decl => (pure decl : StateT CodeBase Checked ClassDecl)
      | none => throw (Violation.unknownClass c)) b =
        match b.class? c with
        | some decl => .ok (decl, b)
        | none => .error (.unknownClass c) := by
    intro b
    cases b.class? c <;> rfl
  show (if b.hydrateLazily then _ else _ : StateT CodeBase Checked ClassDecl) b = _
  cases b.hydrateLazily with
  | false => exact hfound b
  | true => exact hfound (hydrate c b).2

theorem Orderly.getClass (hb : b.Orderly) {c : ClassName} {decl : ClassDecl}
    (h : getClass c b = .ok (decl, b₁)) : b.Supplements b₁ := by
  rw [getClass_apply] at h
  dsimp only at h
  split at h
  · cases h
    split
    · exact hb.hydrate c
    · exact .refl hb
  · cases h

end CodeBase

end UnionInference
