import UnionInference.Proofs.CodeBase.Members

/-!
Code bases as registration leaves them: built from an empty one by registering elements and taking
files back, with no class announced, no resolver and no class that has received inherited members.
Each such request keeps all tables valid and every class under the key that its name folds to.
-/

namespace UnionInference

namespace MemberTables

variable {μ : Type} [ClassMember μ] {ms : MemberTables μ}

theorem Valid.add (h : ms.Valid) (m : μ) : (ms.add m).Valid :=
  h.setTable _ ((h _).insert _ m)

theorem table_add (ms : MemberTables μ) (m : μ) (c : ClassName) :
    (ms.add m).table c =
      if (ClassMember.name m).owner.fold = c.fold then
        (ms.table c).insert (ClassMember.key μ (ClassMember.name m).name) m
      else ms.table c := by
  unfold MemberTables.add
  dsimp only
  split
  · next hc => rw [← table_congr _ hc, table_setTable_self, table_congr ms hc]
  · next hc => exact table_setTable_of_ne _ hc

theorem get?_empty (c : ClassName) (n : String) : ({} : MemberTables μ).get? c n = none := by
  simp [get?, table, table?, OrderedTable.get?, OrderedTable.empty]

theorem Valid.get?_add (h : ms.Valid) (m : μ) (c : ClassName) (n : String) :
    (ms.add m).get? c n =
      if (ClassMember.name m).owner.fold = c.fold ∧
          ClassMember.key μ (ClassMember.name m).name = ClassMember.key μ n then some m
      else ms.get? c n := by
  rw [get?, get?, table_add]
  by_cases hc : (ClassMember.name m).owner.fold = c.fold
  · simp [hc, (h c).get?_insert]
  · simp [hc]

theorem Valid.remove (h : ms.Valid) (name : MemberName) : (ms.remove name).2.Valid := by
  unfold MemberTables.remove
  dsimp only
  split
  · exact h.setTable _ ((h _).erase _)
  · exact h

theorem Valid.dropInherited (h : ms.Valid) : ms.dropInherited.Valid := by
  intro c
  have hc := h c
  unfold table table? at hc ⊢
  unfold MemberTables.dropInherited
  dsimp only
  rw [Std.HashMap.getElem?_map]
  cases hs : ms.tables[c.fold]? with
  | none => exact OrderedTable.valid_empty
  | some t =>
    rw [hs, Option.getD_some] at hc
    rw [Option.map_some, Option.getD_some]
    exact hc.filter _

end MemberTables

/-- A request that registers an element, or takes back what a file registered. -/
inductive Registration where
  | classDecl (c : ClassDecl)
  | method (m : Method)
  | property (p : Property)
  | classConstant (c : ClassConstant)
  | definition (d : ClassDefinition)
  | function (f : FunctionDecl)
  | globalConstant (c : GlobalConstant)
  /-- Starts to follow which file registers what. -/
  | follow
  /-- Sets the file that is being read. -/
  | file (name : Option String)
  | takeBack (file : String)

namespace CodeBase

/-- The code base after a request. -/
def register (b : CodeBase) : Registration → CodeBase
  | .classDecl c => b.addClass c
  | .method m => b.addMethod m
  | .property p => b.addProperty p
  | .classConstant c => b.addConstant c
  | .definition d => b.addDefinition d
  | .function f => b.addFunction f
  | .globalConstant c => b.addGlobal c
  | .follow => b.enableUndo
  | .file name => b.setFile name
  | .takeBack file => (b.undoFile file).2

/-- The code base after requests to an empty one. -/
def registered (hydrateLazily : Bool) (requests : List Registration) : CodeBase :=
  requests.foldl register (create hydrateLazily)

/-- Nothing can be loaded on demand, no class has received inherited members, the tables are valid,
and each class stands under the key of its name. -/
structure Fresh (b : CodeBase) : Prop where
  pending : b.pending = {}
  resolver : b.resolver = none
  hydrated : ∀ k, b.hydrated.contains k = false
  classes : b.classes.Valid
  spelling : ∀ e ∈ b.classes.toList, e.2.spelling.fold = e.1
  methods : b.methods.Valid
  properties : b.properties.Valid
  constants : b.constants.Valid

theorem fresh_create (hydrateLazily : Bool) : (create hydrateLazily).Fresh where
  pending := rfl
  resolver := rfl
  hydrated _ := Std.HashSet.contains_empty
  classes := OrderedTable.valid_empty
  spelling _ he := absurd he List.not_mem_nil
  methods := MemberTables.valid_empty
  properties := MemberTables.valid_empty
  constants := MemberTables.valid_empty

theorem class?_create (hydrateLazily : Bool) (c : ClassName) :
    (create hydrateLazily).class? c = none := by
  simp [class?, create, OrderedTable.get?]

theorem class?_addMethod (b : CodeBase) (m : Method) (c : ClassName) :
    (b.addMethod m).class? c = b.class? c := rfl

theorem methods_addMethod (b : CodeBase) (m : Method) :
    (b.addMethod m).methods = b.methods.add m := rfl

theorem methods_addClass (b : CodeBase) (d : ClassDecl) : (b.addClass d).methods = b.methods := rfl

theorem class?_addClass {b : CodeBase} (h : b.classes.Valid) (d : ClassDecl) (c : ClassName) :
    (b.addClass d).class? c = if d.name.fold = c.fold then some d else b.class? c := by
  show Option.map ClassEntry.decl ((b.classes.insert _ _).get? c.fold) = _
  rw [h.get?_insert, class?]
  by_cases hc : d.name.fold = c.fold <;> simp [hc]

/-! ### Taking entries out -/

theorem removeEntry_classDecl (b : CodeBase) (name : ClassName) :
    b.removeEntry (.classDecl name) =
      if b.isRegistered name then (true, changed { b with classes := b.classes.erase name.fold })
      else (false, b) := rfl

/-- What taking one entry out keeps, taking out several keeps. -/
theorem removeEntries_induction {P : CodeBase → Prop}
    (hstep : ∀ (b : CodeBase) (e : UndoEntry), P b → P (b.removeEntry e).2) (es : List UndoEntry)
    {b : CodeBase} (h : P b) : P (b.removeEntries es).2 := by
  induction es generalizing b with
  | nil => exact h
  | cons e es ih => exact ih (hstep b e h)

/-- Both announce the same classes, load others and fill them in the same way, and have recorded the
same. -/
structure SameSettings (b b' : CodeBase) : Prop where
  pending : b'.pending = b.pending
  resolver : b'.resolver = b.resolver
  hydrateLazily : b'.hydrateLazily = b.hydrateLazily
  undo : b'.undo = b.undo

theorem SameSettings.trans {b b₁ b₂ : CodeBase} (h : b.SameSettings b₁) (h₁ : b₁.SameSettings b₂) :
    b.SameSettings b₂ :=
  ⟨h₁.pending.trans h.pending, h₁.resolver.trans h.resolver,
    h₁.hydrateLazily.trans h.hydrateLazily, h₁.undo.trans h.undo⟩

theorem sameSettings_removeEntry (b : CodeBase) (e : UndoEntry) :
    b.SameSettings (b.removeEntry e).2 := by
  cases e with
  | classDecl name =>
    rw [removeEntry_classDecl]
    split
    · exact ⟨rfl, rfl, rfl, rfl⟩
    · exact ⟨rfl, rfl, rfl, rfl⟩
  | _ => exact ⟨rfl, rfl, rfl, rfl⟩

/-- Entries are taken out of the tables alone. -/
theorem sameSettings_removeEntries (b : CodeBase) (es : List UndoEntry) :
    b.SameSettings (b.removeEntries es).2 :=
  removeEntries_induction (fun b' e h => h.trans (b'.sameSettings_removeEntry e)) es
    ⟨rfl, rfl, rfl, rfl⟩

namespace Fresh

variable {b : CodeBase}

theorem isRegistered_eq (h : b.Fresh) (c : ClassName) :
    b.isRegistered c = (b.class? c).isSome := by
  rw [isRegistered, h.classes.contains_eq_isSome, class?, Option.isSome_map]

theorem addClass (h : b.Fresh) (c : ClassDecl) : (b.addClass c).Fresh where
  pending := h.pending
  resolver := h.resolver
  hydrated k := by
    show (b.hydrated.erase c.name.fold).contains k = false
    rw [Std.HashSet.contains_erase, h.hydrated, Bool.and_false]
  classes := h.classes.insert _ _
  spelling e he := by
    obtain rfl | ⟨-, he⟩ := h.classes.mem_insert_iff.1 he
    · -- a class that is there keeps its first spelling
      cases hg : b.classes.get? c.name.fold with
      | none => simp
      | some entry =>
        simpa [hg] using h.spelling _ (h.classes.get?_eq_some_iff.1 hg)
    · exact h.spelling e he
  methods := h.methods
  properties := h.properties
  constants := h.constants

theorem addMethod (h : b.Fresh) (m : Method) : (b.addMethod m).Fresh :=
  { h with methods := h.methods.add m }

theorem addProperty (h : b.Fresh) (p : Property) : (b.addProperty p).Fresh :=
  { h with properties := h.properties.add p }

theorem addConstant (h : b.Fresh) (c : ClassConstant) : (b.addConstant c).Fresh :=
  { h with constants := h.constants.add c }

theorem foldl {α : Type} {f : CodeBase → α → CodeBase}
    (hf : ∀ (b : CodeBase) (a : α), b.Fresh → (f b a).Fresh) (h : b.Fresh) (as : List α) :
    (as.foldl f b).Fresh := by
  induction as generalizing b with
  | nil => exact h
  | cons a as ih => exact ih (hf b a h)

theorem addDefinition (h : b.Fresh) (d : ClassDefinition) : (b.addDefinition d).Fresh :=
  foldl (fun _ c hb => hb.addConstant c)
    (foldl (fun _ p hb => hb.addProperty p)
      (foldl (fun _ m hb => hb.addMethod m) (h.addClass d.decl) d.methods) d.properties) d.constants

theorem removeEntry (h : b.Fresh) (e : UndoEntry) : (b.removeEntry e).2.Fresh := by
  cases e with
  | classDecl name =>
    rw [removeEntry_classDecl]
    split
    · exact { h with
        classes := h.classes.erase _
        spelling := fun e he => h.spelling e (h.classes.mem_erase_iff.1 he).2 }
    · exact h
  | method name => exact { h with methods := h.methods.remove name }
  | property name => exact { h with properties := h.properties.remove name }
  | classConstant name => exact { h with constants := h.constants.remove name }
  | function name => exact { h with }
  | globalConstant name => exact { h with }

theorem removeEntries (h : b.Fresh) (es : List UndoEntry) : (b.removeEntries es).2.Fresh :=
  removeEntries_induction (fun _ e h => h.removeEntry e) es h

theorem resetInherited (h : b.Fresh) : b.resetInherited.Fresh :=
  { h with
    hydrated := fun _ => Std.HashSet.contains_empty
    methods := h.methods.dropInherited
    properties := h.properties.dropInherited
    constants := h.constants.dropInherited }

theorem undoFile (h : b.Fresh) (file : String) : (b.undoFile file).2.Fresh := by
  unfold CodeBase.undoFile
  split
  · exact h
  · split
    · exact h
    · rename_i l _ _ entries l' _
      have hl : CodeBase.Fresh { b with undo := some l' } := { h with }
      have hr := hl.removeEntries entries
      dsimp only
      split
      · exact hr.resetInherited
      · exact hr

theorem register (h : b.Fresh) (r : Registration) : (b.register r).Fresh := by
  cases r with
  | classDecl c => exact h.addClass c
  | method m => exact h.addMethod m
  | property p => exact h.addProperty p
  | classConstant c => exact h.addConstant c
  | definition d => exact h.addDefinition d
  | function f => exact { h with }
  | globalConstant c => exact { h with }
  | follow => exact { h with }
  | file name => exact { h with }
  | takeBack file => exact h.undoFile file

end Fresh

/-- Registration leaves code bases fresh. -/
theorem fresh_registered (hydrateLazily : Bool) (requests : List Registration) :
    (registered hydrateLazily requests).Fresh :=
  Fresh.foldl (fun _ r hb => hb.register r) (fresh_create hydrateLazily) requests

end CodeBase

end UnionInference
