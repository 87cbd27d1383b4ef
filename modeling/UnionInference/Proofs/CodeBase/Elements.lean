import UnionInference.Proofs.CodeBase.Registration

/-!
Elements by name. Classes, members, functions and constants are told apart by their kind and by
their names as the tables hold them, so one question covers all six tables: what stands under an
entry. Registering an element changes the answer for its own entry alone, and so does taking an
entry out.
-/

namespace UnionInference

/-! ### Members by name -/

namespace MemberTables

open ClassMember

variable {μ : Type} [ClassMember μ] {ms : MemberTables μ}

theorem Valid.get?_remove (h : ms.Valid) (name : MemberName) (c : ClassName) (n : String) :
    (ms.remove name).2.get? c n =
      if name.owner.fold = c.fold ∧ key μ name.name = key μ n then none else ms.get? c n := by
  unfold MemberTables.remove
  dsimp only
  by_cases hpresent : (ms.table name.owner).contains (key μ name.name) = true
  · rw [if_pos hpresent, get?, get?]
    by_cases hc : name.owner.fold = c.fold
    · rw [← table_congr _ hc, table_setTable_self, (h _).get?_erase, ← table_congr ms hc]
      simp [hc]
    · rw [table_setTable_of_ne _ hc, if_neg (not_and_of_not_left _ hc)]
  · rw [if_neg hpresent]
    -- nothing stands there, so nothing has to be removed
    split
    · next hsame =>
      rw [(h _).contains_eq_isSome, Bool.not_eq_true, Option.isSome_eq_false_iff,
        Option.isNone_iff_eq_none] at hpresent
      rw [get?, ← table_congr ms hsame.1, ← hsame.2, hpresent]
    · rfl

theorem Valid.fst_remove (h : ms.Valid) (name : MemberName) :
    (ms.remove name).1 = (ms.get? name.owner name.name).isSome := by
  unfold MemberTables.remove get?
  rw [← (h name.owner).contains_eq_isSome]
  dsimp only
  split
  · next hc => exact hc.symm
  · next hc => exact (Bool.not_eq_true _ ▸ hc).symm

theorem Valid.get?_dropInherited (h : ms.Valid) (c : ClassName) (n : String) :
    ms.dropInherited.get? c n = (ms.get? c n).filter fun m => !isInherited m := by
  have htable : ms.dropInherited.table c = (ms.table c).filter fun _ m => !isInherited m := by
    rw [table, table, table?, table?, MemberTables.dropInherited, Std.HashMap.getElem?_map]
    cases ms.tables[c.fold]? <;> rfl
  rw [get?, htable, (h c).get?_filter, get?]

/-- A class receives what it has not itself. -/
theorem Valid.get?_inherit (h : ms.Valid) (source target c : ClassName) (n : String) :
    (ms.inherit source target).get? c n =
      if target.fold = c.fold then
        (ms.get? target n).or ((ms.get? source n).map fun m => moveTo m target)
      else ms.get? c n := by
  by_cases hc : target.fold = c.fold
  · rw [if_pos hc, (h.inherit source target).get?_eq_lookup, h.get?_eq_lookup, h.get?_eq_lookup,
      ← lookup_adopt, ← h.toList_table_inherit, table_congr _ hc]
  · rw [if_neg hc, get?, get?, table_inherit_of_ne hc]

end MemberTables

/-! ### Elements -/

/-- An element of the program, of any kind. -/
inductive Element where
  | classDecl (c : ClassDecl)
  | method (m : Method)
  | property (p : Property)
  | classConstant (c : ClassConstant)
  | function (f : FunctionDecl)
  | globalConstant (c : GlobalConstant)

namespace Element

/-- The kind and the name under which the element is recorded. -/
def entry : Element → UndoEntry
  | .classDecl c => .classDecl c.name
  | .method m => .method m.name
  | .property p => .property p.name
  | .classConstant c => .classConstant c.name
  | .function f => .function f.name
  | .globalConstant c => .globalConstant c.name

/-- Whether the element is a member that another class declared. -/
def isInherited : Element → Bool
  | .method m => ClassMember.isInherited m
  | .property p => ClassMember.isInherited p
  | .classConstant c => ClassMember.isInherited c
  | _ => false

end Element

/-- The entry with its name as the tables hold it: two entries mean the same element when these are
equal. -/
def UndoEntry.key : UndoEntry → UndoEntry
  | .classDecl name => .classDecl name.fold
  | .method name => .method ⟨name.owner.fold, Text.fold name.name⟩
  | .property name => .property ⟨name.owner.fold, name.name⟩
  | .classConstant name => .classConstant ⟨name.owner.fold, name.name⟩
  | .function name => .function name.fold
  | .globalConstant name => .globalConstant name.foldSpace

namespace CodeBase

/-- Registers an element. -/
def put (b : CodeBase) : Element → CodeBase
  | .classDecl c => b.addClass c
  | .method m => b.addMethod m
  | .property p => b.addProperty p
  | .classConstant c => b.addConstant c
  | .function f => b.addFunction f
  | .globalConstant c => b.addGlobal c

/-- What stands under an entry. -/
def element? (b : CodeBase) : UndoEntry → Option Element
  | .classDecl name => (b.class? name).map .classDecl
  | .method name => (b.methods.get? name.owner name.name).map .method
  | .property name => (b.properties.get? name.owner name.name).map .property
  | .classConstant name => (b.constants.get? name.owner name.name).map .classConstant
  | .function name => (b.function? name).map .function
  | .globalConstant name => (b.global? name).map .globalConstant

/-- The tables are valid, and each class stands under the key of its name. -/
structure Tabled (b : CodeBase) : Prop where
  classes : b.classes.Valid
  spelling : ∀ e ∈ b.classes.toList, e.2.spelling.fold = e.1
  methods : b.methods.Valid
  properties : b.properties.Valid
  constants : b.constants.Valid

variable {b : CodeBase}

theorem Fresh.tabled (h : b.Fresh) : b.Tabled :=
  ⟨h.classes, h.spelling, h.methods, h.properties, h.constants⟩

theorem Fresh.put (h : b.Fresh) (x : Element) : (b.put x).Fresh := by
  cases x with
  | classDecl c => exact h.addClass c
  | method m => exact h.addMethod m
  | property p => exact h.addProperty p
  | classConstant c => exact h.addConstant c
  | function f => exact { h with }
  | globalConstant c => exact { h with }

theorem undo_put (b : CodeBase) (x : Element) :
    (b.put x).undo = b.undo.map fun l => l.record x.entry := by
  cases x <;> rfl

theorem hydrateLazily_put (b : CodeBase) (x : Element) :
    (b.put x).hydrateLazily = b.hydrateLazily := by
  cases x <;> rfl

/-- Registering an element shows under its own entry alone. -/
theorem Tabled.element?_put (h : b.Tabled) (x : Element) (e : UndoEntry) :
    (b.put x).element? e = if x.entry.key = e.key then some x else b.element? e := by
  cases x with
  | classDecl c =>
    cases e with
    | classDecl name =>
      show ((b.addClass c).class? name).map Element.classDecl = _
      rw [class?_addClass h.classes]
      simp only [Element.entry, UndoEntry.key, UndoEntry.classDecl.injEq]
      split <;> rfl
    | _ => exact (if_neg (by rintro ⟨⟩)).symm
  | method m =>
    cases e with
    | method name =>
      show ((b.methods.add m).get? name.owner name.name).map Element.method = _
      rw [h.methods.get?_add]
      simp only [Element.entry, UndoEntry.key, UndoEntry.method.injEq, MemberName.mk.injEq]
      refine (apply_ite _ _ _ _).trans (if_congr Iff.rfl rfl rfl)
    | _ => exact (if_neg (by rintro ⟨⟩)).symm
  | property p =>
    cases e with
    | property name =>
      show ((b.properties.add p).get? name.owner name.name).map Element.property = _
      rw [h.properties.get?_add]
      simp only [Element.entry, UndoEntry.key, UndoEntry.property.injEq, MemberName.mk.injEq]
      refine (apply_ite _ _ _ _).trans (if_congr Iff.rfl rfl rfl)
    | _ => exact (if_neg (by rintro ⟨⟩)).symm
  | classConstant c =>
    cases e with
    | classConstant name =>
      show ((b.constants.add c).get? name.owner name.name).map Element.classConstant = _
      rw [h.constants.get?_add]
      simp only [Element.entry, UndoEntry.key, UndoEntry.classConstant.injEq, MemberName.mk.injEq]
      refine (apply_ite _ _ _ _).trans (if_congr Iff.rfl rfl rfl)
    | _ => exact (if_neg (by rintro ⟨⟩)).symm
  | function f =>
    cases e with
    | function name =>
      show ((b.functions.insert f.name.fold f)[name.fold]?).map Element.function = _
      rw [Std.HashMap.getElem?_insert]
      simp only [Element.entry, UndoEntry.key, UndoEntry.function.injEq, beq_iff_eq]
      exact apply_ite _ _ _ _
    | _ => exact (if_neg (by rintro ⟨⟩)).symm
  | globalConstant c =>
    cases e with
    | globalConstant name =>
      show ((b.globals.insert c.name.foldSpace c)[name.foldSpace]?).map Element.globalConstant = _
      rw [Std.HashMap.getElem?_insert]
      simp only [Element.entry, UndoEntry.key, UndoEntry.globalConstant.injEq, beq_iff_eq]
      exact apply_ite _ _ _ _
    | _ => exact (if_neg (by rintro ⟨⟩)).symm

theorem element?_create (hydrateLazily : Bool) (e : UndoEntry) :
    (create hydrateLazily).element? e = none := by
  cases e with
  | classDecl name => simp [element?, class?_create]
  | method name | property name | classConstant name =>
    simp [element?, create, MemberTables.get?_empty]
  | function name => simp [element?, create, function?]
  | globalConstant name => simp [element?, create, global?]

/-! ### Taking elements out -/

theorem Tabled.isRegistered_eq (h : b.Tabled) (name : ClassName) :
    b.isRegistered name = (b.class? name).isSome := by
  rw [isRegistered, h.classes.contains_eq_isSome, class?, Option.isSome_map]

theorem Tabled.removeEntry (h : b.Tabled) (e : UndoEntry) : (b.removeEntry e).2.Tabled := by
  cases e with
  | classDecl name =>
    rw [removeEntry_classDecl]
    split
    · exact { h with
        classes := h.classes.erase _
        spelling := fun e he => h.spelling e (h.classes.mem_erase_iff.1 he).2 }
    · exact h
  | method name => exact { h with methods := h.methods.remove name }
  | property name => exact { h with properties := h.properties.remove name }
  | classConstant name => exact { h with constants := h.constants.remove name }
  | function name => exact { h with }
  | globalConstant name => exact { h with }

/-- An entry tells whether it was there when it is taken out. -/
theorem Tabled.fst_removeEntry (h : b.Tabled) (e : UndoEntry) :
    (b.removeEntry e).1 = (b.element? e).isSome := by
  cases e with
  | classDecl name =>
    rw [removeEntry_classDecl, h.isRegistered_eq, element?, Option.isSome_map]
    cases b.class? name <;> rfl
  | method name => exact (h.methods.fst_remove name).trans Option.isSome_map.symm
  | property name => exact (h.properties.fst_remove name).trans Option.isSome_map.symm
  | classConstant name => exact (h.constants.fst_remove name).trans Option.isSome_map.symm
  | function name =>
    exact Std.HashMap.contains_eq_isSome_getElem?.trans Option.isSome_map.symm
  | globalConstant name =>
    exact Std.HashMap.contains_eq_isSome_getElem?.trans Option.isSome_map.symm

theorem Tabled.element?_removeClass (h : b.Tabled) (name name' : ClassName) :
    (b.removeEntry (.classDecl name)).2.element? (.classDecl name') =
      if name.fold = name'.fold then none else b.element? (.classDecl name') := by
  rw [removeEntry_classDecl, h.isRegistered_eq]
  simp only [element?]
  split
  · show (((b.classes.erase name.fold).get? name'.fold).map ClassEntry.decl).map _ = _
    rw [h.classes.get?_erase, class?]
    by_cases hn : name.fold = name'.fold <;> simp [hn]
  · next habsent =>
    split
    · next hn =>
      -- the class was not there
      have hnone : b.class? name = none := by simpa using habsent
      rw [class?, ← hn, ← class?, hnone]
      rfl
    · rfl

/-- Taking an entry out shows under this entry alone. -/
theorem Tabled.element?_removeEntry (h : b.Tabled) (e e' : UndoEntry) :
    (b.removeEntry e).2.element? e' = if e.key = e'.key then none else b.element? e' := by
  cases e with
  | classDecl name =>
    cases e' with
    | classDecl name' =>
      rw [h.element?_removeClass]
      simp only [UndoEntry.key, UndoEntry.classDecl.injEq]
    | _ =>
      rw [removeEntry_classDecl, h.isRegistered_eq]
      refine Eq.trans ?_ (if_neg (by rintro ⟨⟩)).symm
      split <;> rfl
  | method name =>
    cases e' with
    | method name' =>
      show ((b.methods.remove name).2.get? name'.owner name'.name).map Element.method = _
      rw [h.methods.get?_remove]
      simp only [UndoEntry.key, UndoEntry.method.injEq, MemberName.mk.injEq]
      exact (apply_ite _ _ _ _).trans (if_congr Iff.rfl rfl rfl)
    | _ => exact (if_neg (by rintro ⟨⟩)).symm
  | property name =>
    cases e' with
    | property name' =>
      show ((b.properties.remove name).2.get? name'.owner name'.name).map Element.property = _
      rw [h.properties.get?_remove]
      simp only [UndoEntry.key, UndoEntry.property.injEq, MemberName.mk.injEq]
      exact (apply_ite _ _ _ _).trans (if_congr Iff.rfl rfl rfl)
    | _ => exact (if_neg (by rintro ⟨⟩)).symm
  | classConstant name =>
    cases e' with
    | classConstant name' =>
      show ((b.constants.remove name).2.get? name'.owner name'.name).map Element.classConstant = _
      rw [h.constants.get?_remove]
      simp only [UndoEntry.key, UndoEntry.classConstant.injEq, MemberName.mk.injEq]
      exact (apply_ite _ _ _ _).trans (if_congr Iff.rfl rfl rfl)
    | _ => exact (if_neg (by rintro ⟨⟩)).symm
  | function name =>
    cases e' with
    | function name' =>
      show ((b.functions.erase name.fold)[name'.fold]?).map Element.function = _
      rw [Std.HashMap.getElem?_erase]
      simp only [UndoEntry.key, UndoEntry.function.injEq, beq_iff_eq]
      exact apply_ite _ _ _ _
    | _ => exact (if_neg (by rintro ⟨⟩)).symm
  | globalConstant name =>
    cases e' with
    | globalConstant name' =>
      show ((b.globals.erase name.foldSpace)[name'.foldSpace]?).map Element.globalConstant = _
      rw [Std.HashMap.getElem?_erase]
      simp only [UndoEntry.key, UndoEntry.globalConstant.injEq, beq_iff_eq]
      exact apply_ite _ _ _ _
    | _ => exact (if_neg (by rintro ⟨⟩)).symm

theorem Tabled.removeEntries (h : b.Tabled) (es : List UndoEntry) :
    (b.removeEntries es).2.Tabled :=
  removeEntries_induction (fun _ e h => h.removeEntry e) es h

theorem Tabled.element?_removeEntries (h : b.Tabled) (es : List UndoEntry) (e : UndoEntry) :
    (b.removeEntries es).2.element? e =
      if ∃ x ∈ es, x.key = e.key then none else b.element? e := by
  induction es generalizing b with
  | nil => simp [CodeBase.removeEntries]
  | cons x es ih =>
    show ((b.removeEntry x).2.removeEntries es).2.element? e = _
    rw [ih (h.removeEntry x), h.element?_removeEntry]
    by_cases hx : x.key = e.key
    · simp [hx]
    · simp [hx]

/-- Something is taken out if the first entry is there. -/
theorem Tabled.removeEntries_pos (h : b.Tabled) {e : UndoEntry} (es : List UndoEntry)
    (he : (b.element? e).isSome = true) : 0 < (b.removeEntries (e :: es)).1 := by
  show 0 < (b.removeEntry e).1.toNat + ((b.removeEntry e).2.removeEntries es).1
  rw [h.fst_removeEntry, he]
  exact Nat.add_pos_left Nat.one_pos _

theorem map_filter_isInherited {μ : Type} [ClassMember μ] {f : μ → Element}
    (hf : ∀ m, (f m).isInherited = ClassMember.isInherited m) (found : Option μ) :
    (found.filter fun m => !ClassMember.isInherited m).map f =
      (found.map f).filter fun x => !x.isInherited := by
  cases found with
  | none => rfl
  | some m =>
    simp only [Option.map_some, Option.filter_some, hf]
    split <;> rfl

/-- Forgetting inherited members leaves what is declared where it stands. -/
theorem Tabled.element?_resetInherited (h : b.Tabled) (e : UndoEntry) :
    b.resetInherited.element? e = (b.element? e).filter fun x => !x.isInherited := by
  cases e with
  | method name =>
    show (b.methods.dropInherited.get? name.owner name.name).map Element.method = _
    rw [h.methods.get?_dropInherited]
    exact map_filter_isInherited (fun _ => rfl) _
  | property name =>
    show (b.properties.dropInherited.get? name.owner name.name).map Element.property = _
    rw [h.properties.get?_dropInherited]
    exact map_filter_isInherited (fun _ => rfl) _
  | classConstant name =>
    show (b.constants.dropInherited.get? name.owner name.name).map Element.classConstant = _
    rw [h.constants.get?_dropInherited]
    exact map_filter_isInherited (fun _ => rfl) _
  | classDecl name =>
    show (b.class? name).map Element.classDecl = ((b.class? name).map Element.classDecl).filter _
    cases b.class? name <;> rfl
  | function name =>
    show (b.function? name).map Element.function = ((b.function? name).map Element.function).filter _
    cases b.function? name <;> rfl
  | globalConstant name =>
    show (b.global? name).map Element.globalConstant =
      ((b.global? name).map Element.globalConstant).filter _
    cases b.global? name <;> rfl

end CodeBase

end UnionInference
