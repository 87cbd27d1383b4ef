import UnionInference.Proofs.CodeBase.Elements
import UnionInference.Proofs.CodeBase.SelfContained

/-!
Registered members and copies. Whatever is looked up and filled in between, the members that were
registered stay, and all others are copies: members that another class declares, and that class has
one registered under the same name. So no copy can be taken for a member of the class itself, on a
cycle of classes neither, and forgetting the copies brings back what was registered.
-/

namespace UnionInference

open ClassMember

/-! ### Members of one sort -/

section

variable {μ : Type} [ClassMember μ] {own ms : MemberTables μ}

/-- The second tables have the members of the first ones, all declared where they stand, and copies
of them. -/
structure Carries (own ms : MemberTables μ) : Prop where
  validOwn : own.Valid
  valid : ms.Valid
  /-- What is registered is declared by the class that has it. -/
  declared : ∀ (c : ClassName) (n : String) (m : μ), own.get? c n = some m →
    (definedAs m).owner.fold = c.fold ∧ isInherited m = false
  /-- What is registered is there. -/
  keeps : ∀ (c : ClassName) (n : String) (m : μ), own.get? c n = some m → ms.get? c n = some m
  /-- What is there was registered or is a copy. -/
  copies : ∀ (c : ClassName) (n : String) (m : μ), ms.get? c n = some m →
    own.get? c n = some m ∨ isInherited m = true
  /-- The class that declares a member has one registered under that name. -/
  origin : ∀ (c : ClassName) (n : String) (m : μ), ms.get? c n = some m →
    (own.get? (definedAs m).owner n).isSome = true

theorem get?_congr (ms : MemberTables μ) {c d : ClassName} (h : c.fold = d.fold) (n : String) :
    ms.get? c n = ms.get? d n := by
  rw [MemberTables.get?, MemberTables.get?, MemberTables.table_congr ms h]

theorem isInherited_eq_false {m : μ} :
    isInherited m = false ↔ (name m).owner.fold = (definedAs m).owner.fold := by
  simp [isInherited, QualifiedName.sameClass]

theorem Carries.empty : Carries ({} : MemberTables μ) {} where
  validOwn := MemberTables.valid_empty
  valid := MemberTables.valid_empty
  declared c n m h := by
    rw [MemberTables.get?_empty] at h
    cases h
  keeps _ _ _ h := h
  copies _ _ _ h := .inl h
  origin c n m h := by
    rw [MemberTables.get?_empty] at h
    cases h

/-- Forgetting the copies brings back what was registered. -/
theorem Carries.filter_get? (h : Carries own ms) (c : ClassName) (n : String) :
    (ms.get? c n).filter (fun m => !isInherited m) = own.get? c n := by
  cases hm : ms.get? c n with
  | none =>
    cases ho : own.get? c n with
    | none => rfl
    | some m =>
      rw [h.keeps c n m ho] at hm
      cases hm
  | some m =>
    rw [Option.filter_some]
    rcases h.copies c n m hm with ho | hcopy
    · rw [ho, (h.declared c n m ho).2]
      rfl
    · rw [hcopy]
      cases ho : own.get? c n with
      | none => rfl
      | some m' =>
        obtain rfl : m = m' := by
          rw [h.keeps c n m' ho] at hm
          exact (Option.some.inj hm).symm
        rw [(h.declared c n m ho).2] at hcopy
        cases hcopy

/-- Registering a member that its own class declares. -/
theorem Carries.add (h : Carries own ms) {m : μ} (hm : isInherited m = false) :
    Carries (own.add m) (ms.add m) := by
  have hown := isInherited_eq_false.1 hm
  have hmono : ∀ (c : ClassName) (n : String), (own.get? c n).isSome = true →
      ((own.add m).get? c n).isSome = true := by
    intro c n hc
    rw [h.validOwn.get?_add]
    split
    · rfl
    · exact hc
  refine ⟨h.validOwn.add m, h.valid.add m, ?_, ?_, ?_, ?_⟩
  · intro c n m' hm'
    rw [h.validOwn.get?_add] at hm'
    split at hm'
    · next hsame =>
      cases hm'
      exact ⟨hown.symm.trans hsame.1, hm⟩
    · exact h.declared c n m' hm'
  · intro c n m' hm'
    rw [h.validOwn.get?_add] at hm'
    rw [h.valid.get?_add]
    split at hm'
    · next hsame => rw [if_pos hsame, hm']
    · next hother => rw [if_neg hother, h.keeps c n m' hm']
  · intro c n m' hm'
    rw [h.valid.get?_add] at hm'
    rw [h.validOwn.get?_add]
    split at hm'
    · next hsame => exact .inl (by rw [if_pos hsame, hm'])
    · next hother =>
      rw [if_neg hother]
      exact h.copies c n m' hm'
  · intro c n m' hm'
    rw [h.valid.get?_add] at hm'
    split at hm'
    · next hsame =>
      cases hm'
      rw [h.validOwn.get?_add, if_pos ⟨hown, hsame.2⟩]
      rfl
    · exact hmono _ n (h.origin c n m' hm')

variable [MemberSort μ]

/-- Handing members down makes copies only: the class that declares a member has one of its own
under that name. -/
theorem Carries.inherit (h : Carries own ms) (source target : ClassName) :
    Carries own (ms.inherit source target) where
  validOwn := h.validOwn
  valid := h.valid.inherit source target
  declared := h.declared
  keeps c n m hm := by
    rw [h.valid.get?_inherit]
    split
    · next hc =>
      rw [get?_congr ms hc, h.keeps c n m hm]
      rfl
    · exact h.keeps c n m hm
  copies c n m hm := by
    rw [h.valid.get?_inherit] at hm
    split at hm
    · next hc =>
      rw [get?_congr ms hc] at hm
      rcases Option.or_eq_some_iff.1 hm with hm | ⟨hnone, hm⟩
      · exact h.copies c n m hm
      · obtain ⟨m', hsource, rfl⟩ := Option.map_eq_some_iff.1 hm
        refine .inr (Bool.not_eq_false _ ▸ fun hself => ?_)
        -- declared by the receiving class, it would have been there
        rw [isInherited_eq_false, MemberSort.owner_moveTo, MemberSort.definedAs_moveTo] at hself
        obtain ⟨m₀, hm₀⟩ := Option.isSome_iff_exists.1 (h.origin source n m' hsource)
        rw [get?_congr own (hself.symm.trans hc)] at hm₀
        rw [h.keeps c n m₀ hm₀] at hnone
        cases hnone
    · exact h.copies c n m hm
  origin c n m hm := by
    rw [h.valid.get?_inherit] at hm
    split at hm
    · rcases Option.or_eq_some_iff.1 hm with hm | ⟨-, hm⟩
      · exact h.origin target n m hm
      · obtain ⟨m', hsource, rfl⟩ := Option.map_eq_some_iff.1 hm
        rw [MemberSort.definedAs_moveTo]
        exact h.origin source n m' hsource
    · exact h.origin c n m hm

end

/-! ### Whole code bases -/

namespace CodeBase

variable {b₀ b : CodeBase}

/-- The second code base is the first one up to copies of members and marks. -/
structure Follows (b₀ b : CodeBase) : Prop where
  classes : b.classes = b₀.classes
  pending : b.pending = b₀.pending
  resolver : b.resolver = b₀.resolver
  generation : b.generation = b₀.generation
  functions : b.functions = b₀.functions
  globals : b.globals = b₀.globals
  undo : b.undo = b₀.undo
  hydrateLazily : b.hydrateLazily = b₀.hydrateLazily
  methods : Carries b₀.methods b.methods
  properties : Carries b₀.properties b.properties
  constants : Carries b₀.constants b.constants

theorem follows_create (hydrateLazily : Bool) :
    (create hydrateLazily).Follows (create hydrateLazily) :=
  ⟨rfl, rfl, rfl, rfl, rfl, rfl, rfl, rfl, .empty, .empty, .empty⟩

namespace Follows

theorem sameClasses (h : b₀.Follows b) : b₀.SameClasses b :=
  ⟨h.classes, h.pending, h.resolver, h.generation⟩

theorem tabled (h : b₀.Follows b) (h₀ : b₀.Fresh) : b.Tabled where
  classes := h.classes ▸ h₀.classes
  spelling := h.classes ▸ h₀.spelling
  methods := h.methods.valid
  properties := h.properties.valid
  constants := h.constants.valid

/-- Forgetting the copies brings back what was registered. -/
theorem filter_element? (h : b₀.Follows b) (e : UndoEntry) :
    (b.element? e).filter (fun x => !x.isInherited) = b₀.element? e := by
  cases e with
  | method name =>
    refine (map_filter_isInherited (fun _ => rfl) _).symm.trans ?_
    rw [h.methods.filter_get?]
    rfl
  | property name =>
    refine (map_filter_isInherited (fun _ => rfl) _).symm.trans ?_
    rw [h.properties.filter_get?]
    rfl
  | classConstant name =>
    refine (map_filter_isInherited (fun _ => rfl) _).symm.trans ?_
    rw [h.constants.filter_get?]
    rfl
  | classDecl name =>
    show ((b.class? name).map Element.classDecl).filter _ = (b₀.class? name).map Element.classDecl
    rw [class?, class?, h.classes]
    cases b₀.classes.get? name.fold <;> rfl
  | function name =>
    show ((b.function? name).map Element.function).filter _ =
      (b₀.function? name).map Element.function
    rw [function?, function?, h.functions]
    cases b₀.functions[name.fold]? <;> rfl
  | globalConstant name =>
    show ((b.global? name).map Element.globalConstant).filter _ =
      (b₀.global? name).map Element.globalConstant
    rw [global?, global?, h.globals]
    cases b₀.globals[name.foldSpace]? <;> rfl

/-- Registering an element that is declared where it stands. -/
theorem put (h : b₀.Follows b) {x : Element} (hx : x.isInherited = false) :
    (b₀.put x).Follows (b.put x) := by
  have hundo : (b.put x).undo = (b₀.put x).undo := by rw [undo_put, undo_put, h.undo]
  cases x with
  | classDecl c =>
    refine { h with classes := ?_, generation := congrArg (· + 1) h.generation, undo := hundo }
    show b.classes.insert c.name.fold ⟨((b.classes.get? c.name.fold).map _).getD c.name, c⟩ = _
    rw [h.classes]
    rfl
  | method m => exact { h with undo := hundo, methods := h.methods.add hx }
  | property p => exact { h with undo := hundo, properties := h.properties.add hx }
  | classConstant c => exact { h with undo := hundo, constants := h.constants.add hx }
  | function f =>
    exact { h with
      functions := congrArg (·.insert f.name.fold f) h.functions
      undo := hundo }
  | globalConstant c =>
    exact { h with
      globals := congrArg (·.insert c.name.foldSpace c) h.globals
      undo := hundo }

theorem foldl_put (h : b₀.Follows b) {xs : List Element} (hxs : ∀ x ∈ xs, x.isInherited = false) :
    (xs.foldl CodeBase.put b₀).Follows (xs.foldl CodeBase.put b) := by
  induction xs generalizing b₀ b with
  | nil => exact h
  | cons x xs ih =>
    exact ih (h.put (hxs x List.mem_cons_self)) fun y hy => hxs y (List.mem_cons_of_mem x hy)

/-- Questions make copies and marks only. -/
theorem lookUp (h : b₀.Follows b) (h₀ : b₀.SelfContained) (q : LookUp) :
    b₀.Follows (b.lookUp q) := by
  refine SelfContained.lookUp_induction (fun b hb => h₀.sameClasses hb.sameClasses)
    (fun b c hb => { hb with }) (fun b s c _ hb => ?_) h q
  exact { hb with
    methods := hb.methods.inherit s c
    properties := hb.properties.inherit s c
    constants := hb.constants.inherit s c }

end Follows

end CodeBase

end UnionInference
