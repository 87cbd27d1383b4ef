import UnionInference.Proofs.CodeBase.Copies

/-!
Code bases with the same elements by name. The order of their tables may differ, and so may what
they recorded and how often they changed; but every question by name has the same answer in both,
and after it they still have the same elements by name.
-/

namespace UnionInference

namespace CodeBase

variable {b b' : CodeBase}

/-- The code bases have the same elements by name and the same marks. -/
structure Mirrors (b b' : CodeBase) : Prop where
  left : b.SelfContained
  right : b'.SelfContained
  tabledLeft : b.Tabled
  tabledRight : b'.Tabled
  element? : ∀ e, b'.element? e = b.element? e
  hydrated : ∀ c : ClassName, b'.hydrated.contains c.fold = b.hydrated.contains c.fold
  hydrateLazily : b'.hydrateLazily = b.hydrateLazily

theorem Fresh.mirrors (h : b.Fresh) (h' : b'.Fresh) (he : ∀ e, b'.element? e = b.element? e)
    (hlazily : b'.hydrateLazily = b.hydrateLazily) : b.Mirrors b' where
  left := h.selfContained
  right := h'.selfContained
  tabledLeft := h.tabled
  tabledRight := h'.tabled
  element? := he
  hydrated c := by rw [h.hydrated, h'.hydrated]
  hydrateLazily := hlazily

theorem element?_mark (b : CodeBase) (c : ClassName) (e : UndoEntry) :
    (b.mark c).element? e = b.element? e := by
  cases e <;> rfl

theorem Tabled.mark (h : b.Tabled) (c : ClassName) : (b.mark c).Tabled := { h with }

theorem Tabled.inherit (h : b.Tabled) (source target : ClassName) :
    (b.inherit source target).Tabled :=
  { h with
    methods := h.methods.inherit source target
    properties := h.properties.inherit source target
    constants := h.constants.inherit source target }

/-- Code bases with the same classes by name have equally many of them. -/
theorem Tabled.size_classes_eq (h : b.Tabled) (h' : b'.Tabled)
    (hclass : ∀ c, b'.class? c = b.class? c) : b'.classes.size = b.classes.size := by
  have hsub : ∀ {b b' : CodeBase}, b.Tabled → b'.Tabled → (∀ c, b'.class? c = b.class? c) →
      ∀ k ∈ b.classes.keys, k ∈ b'.classes.keys := by
    intro b b' h h' hclass k hk
    obtain ⟨e, he, rfl⟩ := List.mem_map.1 hk
    -- a key is the name under which its class can be asked for
    have hspelling := h.spelling e he
    have hthere : (b.class? e.2.spelling).isSome = true := by
      rw [class?, hspelling, Option.isSome_map, h.classes.get?_eq_some_iff.2 he]
      rfl
    rw [← hclass, class?, hspelling, Option.isSome_map, ← h'.classes.contains_eq_isSome] at hthere
    exact h'.classes.contains_iff.1 hthere
  have hperm : b'.classes.keys.Perm b.classes.keys :=
    (List.perm_ext_iff_of_nodup h'.classes.nodup_keys h.classes.nodup_keys).2 fun k =>
      ⟨hsub h' h (fun c => (hclass c).symm) k, hsub h h' hclass k⟩
  simpa [OrderedTable.keys, OrderedTable.toList, OrderedTable.size] using hperm.length_eq

namespace Mirrors

theorem class? (h : b.Mirrors b') (c : ClassName) : b'.class? c = b.class? c :=
  Option.map_injective (fun _ _ => Element.classDecl.inj) (h.element? (.classDecl c))

theorem methods (h : b.Mirrors b') (c : ClassName) (n : String) :
    b'.methods.get? c n = b.methods.get? c n :=
  Option.map_injective (fun _ _ => Element.method.inj) (h.element? (.method ⟨c, n⟩))

theorem properties (h : b.Mirrors b') (c : ClassName) (n : String) :
    b'.properties.get? c n = b.properties.get? c n :=
  Option.map_injective (fun _ _ => Element.property.inj) (h.element? (.property ⟨c, n⟩))

theorem constants (h : b.Mirrors b') (c : ClassName) (n : String) :
    b'.constants.get? c n = b.constants.get? c n :=
  Option.map_injective (fun _ _ => Element.classConstant.inj) (h.element? (.classConstant ⟨c, n⟩))

theorem function? (h : b.Mirrors b') (name : FunctionName) :
    b'.function? name = b.function? name :=
  Option.map_injective (fun _ _ => Element.function.inj) (h.element? (.function name))

theorem global? (h : b.Mirrors b') (name : ConstantName) : b'.global? name = b.global? name :=
  Option.map_injective (fun _ _ => Element.globalConstant.inj) (h.element? (.globalConstant name))

theorem isRegistered (h : b.Mirrors b') (c : ClassName) :
    b'.isRegistered c = b.isRegistered c := by
  rw [h.tabledRight.isRegistered_eq, h.tabledLeft.isRegistered_eq, h.class?]

theorem hydrationBound (h : b.Mirrors b') : b'.hydrationBound = b.hydrationBound := by
  rw [CodeBase.hydrationBound, CodeBase.hydrationBound, h.left.loadable.resolver,
    h.right.loadable.resolver, h.left.pending, h.right.pending,
    h.tabledLeft.size_classes_eq h.tabledRight h.class?]

theorem mark (h : b.Mirrors b') (c : ClassName) : (b.mark c).Mirrors (b'.mark c) where
  left := h.left.sameClasses ⟨rfl, rfl, rfl, rfl⟩
  right := h.right.sameClasses ⟨rfl, rfl, rfl, rfl⟩
  tabledLeft := h.tabledLeft.mark c
  tabledRight := h.tabledRight.mark c
  element? e := by rw [element?_mark, element?_mark, h.element?]
  hydrated d := by
    show (b'.hydrated.insert c.fold).contains d.fold = (b.hydrated.insert c.fold).contains d.fold
    rw [Std.HashSet.contains_insert, Std.HashSet.contains_insert, h.hydrated]
  hydrateLazily := h.hydrateLazily

theorem inherit (h : b.Mirrors b') (source target : ClassName) :
    (b.inherit source target).Mirrors (b'.inherit source target) where
  left := h.left.sameClasses ⟨rfl, rfl, rfl, rfl⟩
  right := h.right.sameClasses ⟨rfl, rfl, rfl, rfl⟩
  tabledLeft := h.tabledLeft.inherit source target
  tabledRight := h.tabledRight.inherit source target
  element? e := by
    cases e with
    | method name =>
      show ((b'.methods.inherit source target).get? _ _).map Element.method =
        ((b.methods.inherit source target).get? _ _).map Element.method
      rw [h.tabledRight.methods.get?_inherit, h.tabledLeft.methods.get?_inherit, h.methods,
        h.methods, h.methods]
    | property name =>
      show ((b'.properties.inherit source target).get? _ _).map Element.property =
        ((b.properties.inherit source target).get? _ _).map Element.property
      rw [h.tabledRight.properties.get?_inherit, h.tabledLeft.properties.get?_inherit,
        h.properties, h.properties, h.properties]
    | classConstant name =>
      show ((b'.constants.inherit source target).get? _ _).map Element.classConstant =
        ((b.constants.inherit source target).get? _ _).map Element.classConstant
      rw [h.tabledRight.constants.get?_inherit, h.tabledLeft.constants.get?_inherit, h.constants,
        h.constants, h.constants]
    | classDecl name => exact h.element? (.classDecl name)
    | function name => exact h.element? (.function name)
    | globalConstant name => exact h.element? (.globalConstant name)
  hydrated := h.hydrated
  hydrateLazily := h.hydrateLazily

/-- Filling a class in both code bases. -/
theorem hydrateWithin (n : Nat) : ∀ (c : ClassName) {b b' : CodeBase}, b.Mirrors b' →
    (CodeBase.hydrateWithin n c b).2.Mirrors (CodeBase.hydrateWithin n c b').2 := by
  induction n with
  | zero => exact fun _ _ _ h => h
  | succ n ih =>
    intro c b b' h
    have hstep : ∀ (s : ClassName) {b b' : CodeBase}, b.Mirrors b' →
        (handDown n c b s).Mirrors (handDown n c b' s) := by
      intro s b b' h
      unfold handDown
      rw [h.left.hasClass, h.right.hasClass, h.isRegistered]
      split
      · exact (ih s h).inherit s c
      · exact h
    have hrun : ∀ (ss : List ClassName) {b b' : CodeBase}, b.Mirrors b' →
        (ss.foldl (handDown n c) b).Mirrors (ss.foldl (handDown n c) b') := by
      intro ss
      induction ss with
      | nil => exact fun h => h
      | cons s ss ih' => exact fun h => ih' (hstep s h)
    rw [hydrateWithin_succ, hydrateWithin_succ, h.hydrated, h.class?]
    split
    · exact h
    · split
      · exact h
      · exact hrun _ (h.mark c)

theorem hydrate (h : b.Mirrors b') (c : ClassName) :
    (CodeBase.hydrate c b).2.Mirrors (CodeBase.hydrate c b').2 := by
  have hfill := hydrateWithin b.hydrationBound c h
  show (CodeBase.hydrateWithin b.hydrationBound c b).2.Mirrors
    (CodeBase.hydrateWithin b'.hydrationBound c b').2
  rw [h.hydrationBound]
  exact hfill

theorem prepare (h : b.Mirrors b') (c : ClassName) :
    (CodeBase.prepare c b).2.Mirrors (CodeBase.prepare c b').2 := by
  rw [h.left.prepare_eq, h.right.prepare_eq, h.isRegistered, h.hydrateLazily]
  split
  · exact h.hydrate c
  · exact h

end Mirrors

/-! ### Answers -/

/-- The code bases give the same answer to every question by name. -/
structure AnswersAs (b b' : CodeBase) : Prop where
  hasClass : ∀ c, (CodeBase.hasClass c b').1 = (CodeBase.hasClass c b).1
  getClass : ∀ c, (CodeBase.getClass c b').map Prod.fst = (CodeBase.getClass c b).map Prod.fst
  method : ∀ c n, (CodeBase.method? c n b').1 = (CodeBase.method? c n b).1
  property : ∀ c n, (CodeBase.property? c n b').1 = (CodeBase.property? c n b).1
  constant : ∀ c n, (CodeBase.constant? c n b').1 = (CodeBase.constant? c n b).1
  function : ∀ name, b'.function? name = b.function? name
  global : ∀ name, b'.global? name = b.global? name

/-- A class that must be registered is filled first, where classes are filled on demand. -/
theorem map_fst_getClass (c : ClassName) (b : CodeBase) :
    (CodeBase.getClass c b).map Prod.fst =
      match (if b.hydrateLazily then (CodeBase.hydrate c b).2 else b).class? c with
      | some decl => .ok decl
      | none => .error (.unknownClass c) := by
  have hfound : ∀ b : CodeBase, Except.map Prod.fst ((match b.class? c with
      | some decl => (pure decl : StateT CodeBase Checked ClassDecl)
      | none => throw (Violation.unknownClass c)) b) =
        match b.class? c with
        | some decl => .ok decl
        | none => .error (.unknownClass c) := by
    intro b
    cases b.class? c <;> rfl
  show Except.map _ ((if b.hydrateLazily then _ else _ : StateT CodeBase Checked ClassDecl) b) = _
  cases b.hydrateLazily with
  | false => exact hfound b
  | true => exact hfound (CodeBase.hydrate c b).2

theorem Mirrors.answersAs (h : b.Mirrors b') : b.AnswersAs b' where
  hasClass c := by rw [h.left.hasClass, h.right.hasClass, h.isRegistered]
  getClass c := by
    have hfilled := (h.hydrate c).class? c
    rw [map_fst_getClass, map_fst_getClass, h.hydrateLazily, apply_ite (CodeBase.class? · c),
      apply_ite (CodeBase.class? · c), hfilled, h.class?]
  method c n := (h.prepare c).methods c n
  property c n := (h.prepare c).properties c n
  constant c n := (h.prepare c).constants c n
  function := h.function?
  global := h.global?

end CodeBase

namespace Request

/-- A question that is not about all classes at once. -/
def Asks : Request → Prop
  | .register _ | .announce .. | .lookUp .hydrateAll => False
  | _ => True

theorem Asks.immediate {q : Request} (h : q.Asks) : q.Immediate := by
  cases q with
  | announce name d => exact h.elim
  | _ => trivial

/-- The same question to both code bases. -/
theorem mirrors_effect {b b' : CodeBase} (h : b.Mirrors b') {q : Request} (hq : q.Asks) :
    (q.effect b).Mirrors (q.effect b') := by
  cases q with
  | register r => exact hq.elim
  | lookUp q =>
    cases q with
    | hasClass c =>
      show (CodeBase.hasClass c b).2.Mirrors (CodeBase.hasClass c b').2
      rw [h.left.hasClass, h.right.hasClass]
      exact h
    | hydrate c => exact h.hydrate c
    | hydrateAll => exact hq.elim
    | method c n => exact h.prepare c
    | property c n => exact h.prepare c
    | constant c n => exact h.prepare c
    | methodsOf c => exact h.prepare c
    | propertiesOf c => exact h.prepare c
    | constantsOf c => exact h.prepare c
  | _ => exact h

/-- The same questions to both code bases. -/
theorem mirrors_foldl_effect {questions : List Request} (hall : ∀ q ∈ questions, q.Asks)
    {b b' : CodeBase} (h : b.Mirrors b') :
    (questions.foldl (fun b q => q.effect b) b).Mirrors
      (questions.foldl (fun b q => q.effect b) b') := by
  induction questions generalizing b b' with
  | nil => exact h
  | cons q questions ih =>
    exact ih (fun q' hq' => hall q' (List.mem_cons_of_mem q hq'))
      (mirrors_effect h (hall q List.mem_cons_self))

end Request

end UnionInference
