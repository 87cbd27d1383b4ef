import UnionInference.Proofs.CodeBase.Retraction
import UnionInference.Proofs.CodeBase.Upkeep

/-!
To which file a class is ascribed that is loaded on demand. What an announced class registers when
it is loaded is recorded under the file that is being read at that moment, not under the one, or
none, that was being read when the class was announced. So taking a file back takes the classes
along that were first looked up while the file was being read, and as their announcements are used
up they are not loaded again. Every other announced class, loaded or not, is there afterwards with
its members.
-/

namespace UnionInference

/-! ### What a definition registers -/

namespace ClassDefinition

/-- The class and its members. -/
def elements (d : ClassDefinition) : List Element := (Registration.definition d).elements

/-- What the definition registers under an entry: the last element of that name. -/
def element? (d : ClassDefinition) (e : UndoEntry) : Option Element :=
  (d.elements.filter fun x => x.entry.key = e.key).getLast?

/-- The definition registers something under the entry. -/
def Defines (d : ClassDefinition) (e : UndoEntry) : Prop := ∃ x ∈ d.elements, x.entry.key = e.key

/-- None of the elements has the name of one that the definition registers. -/
def Spares (d : ClassDefinition) (xs : List Element) : Prop := ∀ x ∈ xs, ¬ d.Defines x.entry

instance (d : ClassDefinition) (e : UndoEntry) : Decidable (d.Defines e) :=
  inferInstanceAs (Decidable (∃ x ∈ d.elements, x.entry.key = e.key))

instance (d : ClassDefinition) (xs : List Element) : Decidable (d.Spares xs) :=
  inferInstanceAs (Decidable (∀ x ∈ xs, ¬ d.Defines x.entry))

variable {d : ClassDefinition} {e : UndoEntry} {x : Element}

theorem mem_elements_of_element? (h : d.element? e = some x) :
    x ∈ d.elements ∧ x.entry.key = e.key := by
  obtain ⟨hx, hkey⟩ := List.mem_filter.1 (List.mem_of_getLast? h)
  exact ⟨hx, by simpa using hkey⟩

theorem defines_of_element? (h : d.element? e = some x) : d.Defines e :=
  ⟨x, mem_elements_of_element? h⟩

theorem Defines.congr {e' : UndoEntry} (h : d.Defines e) (hkey : e.key = e'.key) :
    d.Defines e' := by
  obtain ⟨x, hx, hx'⟩ := h
  exact ⟨x, hx, hx'.trans hkey⟩

theorem defines_classDecl (d : ClassDefinition) : d.Defines (.classDecl d.decl.name) :=
  ⟨.classDecl d.decl, List.mem_cons_self, rfl⟩

/-- The class stands under its own name alone. -/
theorem element?_classDecl {c : ClassName} (hc : d.decl.name.fold = c.fold) :
    d.element? (.classDecl c) = some (.classDecl d.decl) := by
  have hrest : ∀ x ∈ d.methods.map Element.method ++ d.properties.map Element.property ++
      d.constants.map Element.classConstant, ¬ x.entry.key = (UndoEntry.classDecl c).key := by
    simp only [List.mem_append, List.mem_map]
    rintro x ((⟨m, -, rfl⟩ | ⟨p, -, rfl⟩) | ⟨a, -, rfl⟩) ⟨⟩
  show (List.filter _ (Element.classDecl d.decl :: _)).getLast? = _
  rw [List.filter_cons_of_pos (by simpa [Element.entry, UndoEntry.key] using hc),
    List.filter_eq_nil_iff.2 fun x hx => by simpa using hrest x hx]
  rfl

end ClassDefinition

theorem MemberTables.Valid.get?_inherit_of_some {μ : Type} [ClassMember μ] {ms : MemberTables μ}
    (h : ms.Valid) (source target : ClassName) {c : ClassName} {n : String} {m : μ}
    (hm : ms.get? c n = some m) : (ms.inherit source target).get? c n = some m := by
  rw [h.get?_inherit]
  split
  · next hc =>
    have hsame : ms.get? target n = ms.get? c n := by
      rw [MemberTables.get?, MemberTables.get?, MemberTables.table_congr ms hc]
    rw [hsame, hm]
    rfl
  · exact hm

namespace CodeBase

variable {b b' b₁ : CodeBase} {d : ClassDefinition} {e : UndoEntry}

theorem addDefinition_eq (b : CodeBase) (d : ClassDefinition) :
    b.addDefinition d = d.elements.foldl put b := by
  rw [ClassDefinition.elements, Registration.elements, List.foldl_cons, List.foldl_append,
    List.foldl_append, List.foldl_map, List.foldl_map, List.foldl_map]
  rfl

theorem Tabled.put (h : b.Tabled) (x : Element) : (b.put x).Tabled := by
  have hfresh : Fresh { b with pending := {}, resolver := none, hydrated := {} } :=
    { h with pending := rfl, resolver := rfl, hydrated := fun _ => Std.HashSet.contains_empty }
  have htabled := (hfresh.put x).tabled
  cases x <;> exact { htabled with }

theorem Tabled.foldl_put (h : b.Tabled) (xs : List Element) : (xs.foldl CodeBase.put b).Tabled := by
  induction xs generalizing b with
  | nil => exact h
  | cons x xs ih => exact ih (h.put x)

/-- After elements are registered, the last one of a name stands under it. -/
theorem Tabled.element?_foldl_put (h : b.Tabled) (xs : List Element) (e : UndoEntry) :
    (xs.foldl CodeBase.put b).element? e =
      ((xs.filter fun x => x.entry.key = e.key).getLast?).or (b.element? e) := by
  induction xs generalizing b with
  | nil => rfl
  | cons x xs ih =>
    rw [List.foldl_cons, ih (h.put x), h.element?_put, List.filter_cons]
    by_cases hx : x.entry.key = e.key
    · rw [if_pos hx, if_pos (by simpa using hx), List.getLast?_cons]
      cases (xs.filter fun x => x.entry.key = e.key).getLast? <;> rfl
    · rw [if_neg hx, if_neg (by simpa using hx)]

/-! ### What is recorded -/

/-- The file that is being read, if files are followed. -/
def currentFile (b : CodeBase) : Option String := b.undo.bind UndoLog.current

/-- What is recorded under a file, oldest first. -/
def recorded (b : CodeBase) (file : String) : List UndoEntry :=
  (b.undo.map fun l => l.row file).getD []

theorem currentFile_put (b : CodeBase) (x : Element) : (b.put x).currentFile = b.currentFile := by
  rw [currentFile, undo_put, currentFile]
  cases b.undo with
  | none => rfl
  | some l => exact l.current_record x.entry

theorem recorded_put (b : CodeBase) (x : Element) (file : String) :
    (b.put x).recorded file =
      if b.currentFile = some file then b.recorded file ++ [x.entry] else b.recorded file := by
  rw [recorded, undo_put, recorded, currentFile]
  cases b.undo with
  | none => rfl
  | some l => exact l.row_record x.entry file

theorem currentFile_foldl_put (b : CodeBase) (xs : List Element) :
    (xs.foldl put b).currentFile = b.currentFile := by
  induction xs generalizing b with
  | nil => rfl
  | cons x xs ih => exact (ih (b.put x)).trans (b.currentFile_put x)

theorem recorded_foldl_put (b : CodeBase) (xs : List Element) (file : String) :
    (xs.foldl put b).recorded file =
      if b.currentFile = some file then b.recorded file ++ xs.map Element.entry
      else b.recorded file := by
  induction xs generalizing b with
  | nil => simp
  | cons x xs ih =>
    rw [List.foldl_cons, ih, currentFile_put, recorded_put]
    split <;> simp

theorem currentFile_addDefinition (b : CodeBase) (d : ClassDefinition) :
    (b.addDefinition d).currentFile = b.currentFile := by
  rw [addDefinition_eq, currentFile_foldl_put]

/-- Members stay where they stand when others are handed down. -/
theorem Tabled.element?_inherit (h : b.Tabled) (source target : ClassName) {x : Element}
    (hx : b.element? e = some x) : (b.inherit source target).element? e = some x := by
  cases e with
  | method name =>
    obtain ⟨m, hm, rfl⟩ := Option.map_eq_some_iff.1 hx
    exact Option.map_eq_some_iff.2 ⟨m, h.methods.get?_inherit_of_some source target hm, rfl⟩
  | property name =>
    obtain ⟨p, hp, rfl⟩ := Option.map_eq_some_iff.1 hx
    exact Option.map_eq_some_iff.2 ⟨p, h.properties.get?_inherit_of_some source target hp, rfl⟩
  | classConstant name =>
    obtain ⟨a, ha, rfl⟩ := Option.map_eq_some_iff.1 hx
    exact Option.map_eq_some_iff.2 ⟨a, h.constants.get?_inherit_of_some source target ha, rfl⟩
  | _ => exact hx

/-- Only going on to another file changes which file is being read. -/
theorem currentFile_register {r : Registration} (hfile : ∀ name, r ≠ .file name)
    (hback : ∀ name, r ≠ .takeBack name) : (b.register r).currentFile = b.currentFile := by
  cases r with
  | definition d => exact b.currentFile_addDefinition d
  | follow =>
    show (some (b.undo.getD .empty)).bind UndoLog.current = b.undo.bind UndoLog.current
    cases b.undo <;> rfl
  | file name => exact absurd rfl (hfile name)
  | takeBack name => exact absurd rfl (hback name)
  | classDecl c => exact b.currentFile_put (.classDecl c)
  | method m => exact b.currentFile_put (.method m)
  | property p => exact b.currentFile_put (.property p)
  | classConstant a => exact b.currentFile_put (.classConstant a)
  | function f => exact b.currentFile_put (.function f)
  | globalConstant a => exact b.currentFile_put (.globalConstant a)

/-- Taking a file back removes what is recorded under it, and perhaps inherited members. -/
theorem undoFile_cases (b : CodeBase) (file : String) :
    ∃ undo : Option UndoLog,
      (∀ other, recorded { b with undo } other = if other = file then [] else b.recorded other) ∧
      ((b.undoFile file).2 = (removeEntries { b with undo } (b.recorded file).reverse).2 ∨
        (b.undoFile file).2 =
          (removeEntries { b with undo } (b.recorded file).reverse).2.resetInherited) := by
  cases hundo : b.undo with
  | none =>
    have hnone : ∀ file, b.recorded file = [] := fun file => by rw [recorded, hundo]; rfl
    refine ⟨none, fun other => ?_, .inl ?_⟩
    · rw [hnone other, ite_self]
      rfl
    · have hsame : { b with undo := none } = b := by rw [← hundo]
      rw [undoFile, hundo, hnone file, hsame]
      rfl
  | some l =>
    cases hget : l.entries.get? file with
    | none =>
      have hnone : b.recorded file = [] := by
        rw [recorded, hundo]
        show (l.entries.get? file).getD [] = []
        rw [hget]
        rfl
      have hsame : { b with undo := some l } = b := by rw [← hundo]
      have hstay : (b.undoFile file).2 = b := by
        rw [undoFile, hundo]
        dsimp only [UndoLog.takeFile, MultiTable.take]
        rw [hget]
        rfl
      refine ⟨some l, fun other => ?_, .inl ?_⟩
      · rw [hsame]
        by_cases h : other = file
        · rw [if_pos h, h, hnone]
        · rw [if_neg h]
      · rw [hstay, hnone, hsame]
        rfl
    | some es =>
      have hes : b.recorded file = es := by
        rw [recorded, hundo]
        show (l.entries.get? file).getD [] = es
        rw [hget]
        rfl
      refine ⟨some { l with entries := l.entries.erase file }, fun other => ?_, ?_⟩
      · show ((l.entries.rows.erase file)[other]?).getD [] = _
        rw [Std.HashMap.getElem?_erase, recorded, hundo]
        by_cases h : other = file
        · simp [h]
        · rw [if_neg (by simpa using Ne.symm h), if_neg h]
          rfl
      · rw [undoFile, hundo, hes]
        dsimp only [UndoLog.takeFile, MultiTable.take]
        rw [hget]
        dsimp only [Option.map_some]
        split
        · exact .inr rfl
        · exact .inl rfl

theorem Tabled.undoFile (h : b.Tabled) (file : String) : (b.undoFile file).2.Tabled := by
  obtain ⟨undo, -, heq | heq⟩ := b.undoFile_cases file
  all_goals
    have hb : CodeBase.Tabled { b with undo } := { h with }
    have hrest := hb.removeEntries (b.recorded file).reverse
    rw [heq]
  · exact hrest
  · exact { hrest with
      methods := hrest.methods.dropInherited
      properties := hrest.properties.dropInherited
      constants := hrest.constants.dropInherited }

theorem resolver_undoFile (b : CodeBase) (file : String) :
    (b.undoFile file).2.resolver = b.resolver := by
  obtain ⟨undo, -, heq | heq⟩ := b.undoFile_cases file
  all_goals
    rw [heq]
    exact (sameSettings_removeEntries _ _).resolver

theorem recorded_undoFile (b : CodeBase) (file other : String) :
    (b.undoFile file).2.recorded other = if other = file then [] else b.recorded other := by
  obtain ⟨undo, hrows, heq | heq⟩ := b.undoFile_cases file
  all_goals
    rw [heq, ← hrows other]
    show Option.getD (Option.map _ (removeEntries _ _).2.undo) [] = _
    rw [(sameSettings_removeEntries _ _).undo]
    rfl

/-- What stands under an entry after a file is taken back. -/
theorem Tabled.element?_undoFile (h : b.Tabled) (file : String) (e : UndoEntry) :
    (b.undoFile file).2.element? e =
        (if ∃ x ∈ b.recorded file, x.key = e.key then none else b.element? e) ∨
      (b.undoFile file).2.element? e =
        Option.filter (fun x => !x.isInherited)
          (if ∃ x ∈ b.recorded file, x.key = e.key then none else b.element? e) := by
  obtain ⟨undo, -, heq⟩ := b.undoFile_cases file
  have hb : Tabled { b with undo := undo } := { h with }
  have hrest : (CodeBase.removeEntries { b with undo } (b.recorded file).reverse).2.element? e =
      if ∃ x ∈ b.recorded file, x.key = e.key then none else b.element? e := by
    rw [hb.element?_removeEntries, element?_withUndo]
    simp only [List.mem_reverse]
  rcases heq with heq | heq
  · exact .inl (by rw [heq, hrest])
  · exact .inr (by rw [heq, (hb.removeEntries _).element?_resetInherited, hrest])

end CodeBase

/-! ### A class that waits, and one that was loaded -/

namespace ClassDefinition

variable {d : ClassDefinition} {b b' b₁ : CodeBase} {file : Option String}

/-- Nothing that is loaded on demand later, apart from the class itself, has anything that the
definition registers. -/
structure Fenced (d : ClassDefinition) (b : CodeBase) : Prop where
  tabled : b.Tabled
  waiting : ∀ k p, b.pending[k]? = some p → k ≠ d.decl.name.fold → d.Spares p.definition.elements
  resolver : ∀ rows, b.resolver = some rows → ∀ e ∈ rows, ∀ d' ∈ e.definitions,
    d.Spares d'.elements

/-- A change beside what the definition registers. -/
structure Aside (d : ClassDefinition) (b b' : CodeBase) : Prop where
  fenced : d.Fenced b'
  pending : b'.pending[d.decl.name.fold]? = b.pending[d.decl.name.fold]?
  classDecl : b'.class? d.decl.name = b.class? d.decl.name
  element? : ∀ e x, d.Defines e → b.element? e = some x → b'.element? e = some x
  recorded : ∀ name e, d.Defines e → (e ∈ b'.recorded name ↔ e ∈ b.recorded name)

/-- The class is not registered, and nothing that the definition registers is recorded. -/
structure Unclaimed (d : ClassDefinition) (b : CodeBase) : Prop extends d.Fenced b where
  absent : b.class? d.decl.name = none
  unrecorded : ∀ name, ∀ e ∈ b.recorded name, ¬ d.Defines e

/-- The class waits to be loaded. -/
structure Waits (d : ClassDefinition) (b : CodeBase) : Prop extends d.Unclaimed b where
  announced : ∃ p, b.pending[d.decl.name.fold]? = some p ∧ p.definition = d

/-- The class was loaded while the file was being read: it is there with its members, and recorded
under this file alone. -/
structure Loaded (d : ClassDefinition) (file : Option String) (b : CodeBase) : Prop
    extends d.Fenced b where
  usedUp : b.pending[d.decl.name.fold]? = none
  present : ∀ e x, d.element? e = some x → b.element? e = some x
  claimed : ∀ name, ∀ e ∈ b.recorded name, d.Defines e → file = some name
  recorded : ∀ name, file = some name → UndoEntry.classDecl d.decl.name ∈ b.recorded name

/-! #### Changes beside the class -/

theorem Aside.trans (h : d.Aside b b₁) (h' : d.Aside b₁ b') : d.Aside b b' where
  fenced := h'.fenced
  pending := h'.pending.trans h.pending
  classDecl := h'.classDecl.trans h.classDecl
  element? e x he hx := h'.element? e x he (h.element? e x he hx)
  recorded name e he := (h'.recorded name e he).trans (h.recorded name e he)

namespace Fenced

theorem aside_refl (h : d.Fenced b) : d.Aside b b :=
  ⟨h, rfl, rfl, fun _ _ _ => id, fun _ _ _ => Iff.rfl⟩

theorem aside_put (h : d.Fenced b) {x : Element} (hx : ¬ d.Defines x.entry) :
    d.Aside b (b.put x) where
  fenced :=
    { tabled := h.tabled.put x
      waiting := by cases x <;> exact h.waiting
      resolver := by cases x <;> exact h.resolver }
  pending := by cases x <;> rfl
  classDecl := by
    have hclass := h.tabled.element?_put x (.classDecl d.decl.name)
    rw [if_neg fun hkey => hx (d.defines_classDecl.congr hkey.symm)] at hclass
    exact Option.map_injective (fun _ _ => Element.classDecl.inj) hclass
  element? e y he hy := by
    rw [h.tabled.element?_put, if_neg fun hkey => hx (he.congr hkey.symm)]
    exact hy
  recorded name e he := by
    rw [CodeBase.recorded_put]
    split
    · rw [List.mem_append, List.mem_singleton, or_iff_left]
      rintro rfl
      exact hx he
    · rfl

theorem aside_foldl_put (h : d.Fenced b) {xs : List Element} (hxs : d.Spares xs) :
    d.Aside b (xs.foldl CodeBase.put b) := by
  induction xs generalizing b with
  | nil => exact h.aside_refl
  | cons x xs ih =>
    have hx := h.aside_put (hxs x List.mem_cons_self)
    exact hx.trans (ih hx.fenced fun y hy => hxs y (List.mem_cons_of_mem x hy))

theorem aside_addDefinition (h : d.Fenced b) {d' : ClassDefinition} (hd : d.Spares d'.elements) :
    d.Aside b (b.addDefinition d') := by
  rw [CodeBase.addDefinition_eq]
  exact h.aside_foldl_put hd

theorem aside_log (h : d.Fenced b) (e : LoadEvent) : d.Aside b (b.log e) where
  fenced := ⟨{ h.tabled with }, h.waiting, h.resolver⟩
  pending := rfl
  classDecl := rfl
  element? := fun e _ _ hx => by cases e <;> exact hx
  recorded _ _ _ := Iff.rfl

theorem aside_mark (h : d.Fenced b) (c : ClassName) : d.Aside b (b.mark c) where
  fenced := ⟨h.tabled.mark c, h.waiting, h.resolver⟩
  pending := rfl
  classDecl := rfl
  element? e x _ hx := by rw [CodeBase.element?_mark, hx]
  recorded _ _ _ := Iff.rfl

theorem aside_inherit (h : d.Fenced b) (source target : ClassName) :
    d.Aside b (b.inherit source target) where
  fenced := ⟨h.tabled.inherit source target, h.waiting, h.resolver⟩
  pending := rfl
  classDecl := rfl
  element? := fun _ _ _ hx => h.tabled.element?_inherit source target hx
  recorded _ _ _ := Iff.rfl

/-- Another announced class is loaded. -/
theorem aside_load (h : d.Fenced b) {c : ClassName} {p : PendingClass}
    (hc : c.fold ≠ d.decl.name.fold) (hp : b.pending[c.fold]? = some p) :
    d.Aside b (b.load c p) := by
  have hspares := h.waiting _ p hp hc
  have herase : d.Aside b { b with pending := b.pending.erase c.fold } :=
    { fenced := ⟨{ h.tabled with }, fun k q hq => h.waiting k q (by
          rw [Std.HashMap.getElem?_erase] at hq
          split at hq
          · cases hq
          · exact hq), h.resolver⟩
      pending := by
        rw [Std.HashMap.getElem?_erase, if_neg (by simpa using hc)]
      classDecl := rfl
      element? := fun e _ _ hx => by cases e <;> exact hx
      recorded := fun _ _ _ => Iff.rfl }
  have hlog := herase.trans (herase.fenced.aside_log (.load p.announcedAs))
  exact hlog.trans (hlog.fenced.aside_addDefinition hspares)

/-- Another class is announced. -/
theorem aside_announce (h : d.Fenced b) {c : ClassName} {d' : ClassDefinition}
    (hc : c.fold ≠ d.decl.name.fold) (hd : d.Spares d'.elements) :
    d.Aside b (b.announce c d') where
  fenced := ⟨{ h.tabled with }, fun k p hp hk => by
    change (b.pending.insert c.fold ⟨c, d'⟩)[k]? = some p at hp
    rw [Std.HashMap.getElem?_insert] at hp
    split at hp
    · cases hp
      exact hd
    · exact h.waiting k p hp hk, h.resolver⟩
  pending := by
    show (b.pending.insert c.fold ⟨c, d'⟩)[d.decl.name.fold]? = _
    rw [Std.HashMap.getElem?_insert, if_neg (by simpa using hc)]
  classDecl := rfl
  element? := fun e _ _ hx => by cases e <;> exact hx
  recorded _ _ _ := Iff.rfl

/-- Another log with the same rows. -/
theorem aside_undo (h : d.Fenced b) {undo : Option UndoLog}
    (hrows : ∀ name, CodeBase.recorded { b with undo } name = b.recorded name) :
    d.Aside b { b with undo } where
  fenced := ⟨{ h.tabled with }, h.waiting, h.resolver⟩
  pending := rfl
  classDecl := rfl
  element? e x _ hx := by rw [CodeBase.element?_withUndo, hx]
  recorded name e _ := by rw [hrows]

/-- Registering other elements, following files and going on to another file. -/
theorem aside_register (h : d.Fenced b) {r : Registration} (hr : d.Spares r.elements)
    (hkeep : ∀ name, r ≠ .takeBack name) : d.Aside b (b.register r) := by
  cases r with
  | definition d' => exact h.aside_addDefinition hr
  | follow =>
    refine h.aside_undo fun name => ?_
    show ((some (b.undo.getD .empty)).map fun l => l.row name).getD [] = b.recorded name
    rw [CodeBase.recorded]
    cases b.undo with
    | none => simp [UndoLog.row, UndoLog.empty, MultiTable.get?]
    | some l => rfl
  | file other =>
    refine h.aside_undo fun name => ?_
    rw [CodeBase.recorded, CodeBase.recorded]
    cases b.undo <;> rfl
  | takeBack name => exact absurd rfl (hkeep name)
  | _ => exact h.aside_foldl_put hr

end Fenced

/-! #### What happens to the class -/

namespace Waits

theorem aside (h : d.Waits b) (hb : d.Aside b b') : d.Waits b' where
  toFenced := hb.fenced
  absent := hb.classDecl.trans h.absent
  unrecorded name e he hd := h.unrecorded name e ((hb.recorded name e hd).1 he) hd
  announced := by rw [hb.pending]; exact h.announced

/-- The class is loaded, and recorded under the file that is being read. -/
theorem loaded_load (h : d.Waits b) {c : ClassName} {p : PendingClass}
    (hc : c.fold = d.decl.name.fold) (hp : b.pending[c.fold]? = some p) :
    d.Loaded b.currentFile (b.load c p) := by
  obtain ⟨q, hq, hd⟩ := h.announced
  obtain rfl : q = p := Option.some.inj (hq.symm.trans (hc ▸ hp))
  let cleared := CodeBase.log { b with pending := b.pending.erase c.fold } (.load q.announcedAs)
  have hcleared : cleared.Tabled := { h.tabled with }
  have hload : b.load c q = d.elements.foldl CodeBase.put cleared := by
    rw [CodeBase.load, CodeBase.addDefinition_eq, hd]
  have hpending : (b.load c q).pending = b.pending.erase c.fold :=
    (CodeBase.sameClasses_addDefinition cleared q.definition).pending
  have hrecorded : ∀ name, (b.load c q).recorded name =
      if b.currentFile = some name then b.recorded name ++ d.elements.map Element.entry
      else b.recorded name := by
    rw [hload]
    exact CodeBase.recorded_foldl_put cleared d.elements
  refine ⟨⟨?_, fun k p hp => ?_, ?_⟩, ?_, fun e x hx => ?_, fun name e he hde => ?_,
    fun name hname => ?_⟩
  · rw [hload]
    exact hcleared.foldl_put d.elements
  · rw [hpending, Std.HashMap.getElem?_erase] at hp
    split at hp
    · cases hp
    · exact h.waiting k p hp
  · have hresolver := (CodeBase.sameClasses_addDefinition cleared q.definition).resolver
    rw [CodeBase.load, hresolver]
    exact h.resolver
  · rw [hpending, ← hc, Std.HashMap.getElem?_erase_self]
  · rw [hload, hcleared.element?_foldl_put]
    show (d.element? e).or _ = _
    rw [hx]
    rfl
  · rw [hrecorded] at he
    split at he
    · next hfile => exact hfile
    · exact absurd hde (h.unrecorded name e he)
  · rw [hrecorded, if_pos hname]
    exact List.mem_append_right _ List.mem_cons_self

end Waits

namespace Loaded

theorem aside (h : d.Loaded file b) (hb : d.Aside b b') : d.Loaded file b' where
  toFenced := hb.fenced
  usedUp := hb.pending.trans h.usedUp
  present e x hx := hb.element? e x (defines_of_element? hx) (h.present e x hx)
  claimed name e he hd := h.claimed name e ((hb.recorded name e hd).1 he) hd
  recorded name hname := (hb.recorded name _ d.defines_classDecl).2 (h.recorded name hname)

end Loaded

/-! #### Look-ups -/

/-- What changes beside the class keep, and what loading the class keeps, look-ups keep. -/
theorem lasting_of_aside {P : CodeBase → Prop} (hfenced : ∀ b, P b → d.Fenced b)
    (haside : ∀ b b', P b → d.Aside b b' → b'.currentFile = b.currentFile → P b')
    (hload : ∀ (b : CodeBase) (c : ClassName) (p : PendingClass), P b → c.fold = d.decl.name.fold →
      b.pending[c.fold]? = some p → P (b.load c p)) : CodeBase.Lasting P where
  log {b} e hb := haside b _ hb ((hfenced b hb).aside_log e) rfl
  load {b c p} hb _ hp := by
    by_cases hc : c.fold = d.decl.name.fold
    · exact hload b c p hb hc hp
    · exact haside b _ hb ((hfenced b hb).aside_load hc hp) (CodeBase.currentFile_addDefinition _ _)
  resolve {b rows} hb hrows e he d' hd' :=
    haside b _ hb
      ((hfenced b hb).aside_addDefinition ((hfenced b hb).resolver rows hrows e he d' hd'))
      (CodeBase.currentFile_addDefinition _ _)
  mark {b} c hb := haside b _ hb ((hfenced b hb).aside_mark c) rfl
  inherit {b} source target hb := haside b _ hb ((hfenced b hb).aside_inherit source target) rfl

theorem lasting_loaded (d : ClassDefinition) (file : Option String) :
    CodeBase.Lasting (d.Loaded file) :=
  lasting_of_aside (fun _ hb => hb.toFenced) (fun _ _ hb h _ => hb.aside h) fun b c p hb hc hp => by
    rw [hc, hb.usedUp] at hp
    cases hp

/-- The class waits, or it was loaded while the file was being read that still is. -/
theorem lasting_waits_or_loaded (d : ClassDefinition) (file : Option String) :
    CodeBase.Lasting fun b => b.currentFile = file ∧ (d.Waits b ∨ d.Loaded file b) :=
  lasting_of_aside (d := d) (fun _ hb => hb.2.elim (fun h => h.toFenced) fun h => h.toFenced)
    (fun _ _ hb h hfile => ⟨hfile.trans hb.1, hb.2.imp (fun hw => hw.aside h) fun hl => hl.aside h⟩)
    fun b c p hb hc hp => by
      obtain ⟨rfl, hwaits | hloaded⟩ := hb
      · exact ⟨CodeBase.currentFile_addDefinition _ _, .inr (hwaits.loaded_load hc hp)⟩
      · rw [hc, hloaded.usedUp] at hp
        cases hp

/-- The class is neither registered nor announced. -/
structure Gone (d : ClassDefinition) (b : CodeBase) : Prop extends d.Fenced b where
  usedUp : b.pending[d.decl.name.fold]? = none
  absent : b.class? d.decl.name = none

theorem lasting_gone (d : ClassDefinition) : CodeBase.Lasting d.Gone :=
  lasting_of_aside (fun _ hb => hb.toFenced)
    (fun _ _ hb h _ => ⟨h.fenced, h.pending.trans hb.usedUp, h.classDecl.trans hb.absent⟩)
    fun b c p hb hc hp => by
      rw [hc, hb.usedUp] at hp
      cases hp

theorem lasting_unclaimed (d : ClassDefinition) :
    CodeBase.Lasting fun b => d.Unclaimed b ∧ b.pending[d.decl.name.fold]? = none :=
  lasting_of_aside (fun _ hb => hb.1.toFenced)
    (fun _ _ hb h _ => ⟨⟨h.fenced, h.classDecl.trans hb.1.absent,
      fun name e he hd => hb.1.unrecorded name e ((h.recorded name e hd).1 he) hd⟩,
        h.pending.trans hb.2⟩)
    fun b c p hb hc hp => by
      rw [hc, hb.2] at hp
      cases hp

variable {c : ClassName}

theorem Loaded.isRegistered (h : d.Loaded file b) (hc : c.fold = d.decl.name.fold) :
    b.isRegistered c = true := by
  have hclass := h.present _ _ (element?_classDecl hc.symm)
  rw [h.tabled.isRegistered_eq]
  obtain ⟨decl, hdecl, -⟩ := Option.map_eq_some_iff.1 hclass
  rw [hdecl]
  rfl

theorem Loaded.hasClass (h : d.Loaded file b) (hc : c.fold = d.decl.name.fold) :
    (CodeBase.hasClass c b).1 = true ∧ d.Loaded file (CodeBase.hasClass c b).2 := by
  refine ⟨?_, (lasting_loaded d file).hasClass c h⟩
  show (CodeBase.loadClass b.resolver [] c b).1 = true
  rw [CodeBase.loadClass_apply, if_pos (h.isRegistered hc)]

theorem Waits.hasClass (h : d.Waits b) (hc : c.fold = d.decl.name.fold) :
    (CodeBase.hasClass c b).1 = true ∧ d.Loaded b.currentFile (CodeBase.hasClass c b).2 := by
  obtain ⟨p, hp, -⟩ := h.announced
  rw [← hc] at hp
  have habsent : b.isRegistered c = false := by
    rw [h.tabled.isRegistered_eq, CodeBase.class?, hc, ← CodeBase.class?, h.absent]
    rfl
  have hloaded := h.loaded_load hc hp
  rw [CodeBase.hasClass_of_pending habsent hp]
  exact ⟨hloaded.isRegistered hc, hloaded⟩

theorem Gone.hasClass (h : d.Gone b) (hc : c.fold = d.decl.name.fold) :
    (CodeBase.hasClass c b).1 = false := by
  have hgone := (lasting_gone d).hasClass c h
  rw [Bool.eq_false_iff]
  intro hfound
  have hregistered := CodeBase.isRegistered_of_hasClass hfound
  rw [hgone.tabled.isRegistered_eq, CodeBase.class?, hc, ← CodeBase.class?,
    hgone.absent] at hregistered
  cases hregistered

/-! #### Taking a file back -/

variable {name : String}

theorem Fenced.undoFile (h : d.Fenced b) (name : String) : d.Fenced (b.undoFile name).2 where
  tabled := h.tabled.undoFile name
  waiting := by rw [b.pending_undoFile name]; exact h.waiting
  resolver := by rw [b.resolver_undoFile name]; exact h.resolver

theorem class?_undoFile (h : d.Fenced b) (hclass : b.class? d.decl.name = none) :
    (b.undoFile name).2.class? d.decl.name = none := by
  have hnone : b.element? (.classDecl d.decl.name) = none := by
    rw [CodeBase.element?, hclass]
    rfl
  refine (Option.map_eq_none_iff (f := Element.classDecl)).1 ?_
  rcases h.tabled.element?_undoFile name (.classDecl d.decl.name) with heq | heq
  · exact heq.trans (by rw [hnone, ite_self])
  · exact heq.trans (by rw [hnone, ite_self]; rfl)

theorem Unclaimed.undoFile (h : d.Unclaimed b) (name : String) :
    d.Unclaimed (b.undoFile name).2 where
  toFenced := h.toFenced.undoFile name
  absent := class?_undoFile h.toFenced h.absent
  unrecorded other e he := by
    rw [CodeBase.recorded_undoFile] at he
    split at he
    · cases he
    · exact h.unrecorded other e he

theorem Waits.undoFile (h : d.Waits b) (name : String) : d.Waits (b.undoFile name).2 where
  toUnclaimed := h.toUnclaimed.undoFile name
  announced := by rw [b.pending_undoFile name]; exact h.announced

/-- A class that was loaded under another file stays, with its members. -/
theorem Loaded.undoFile_of_ne (h : d.Loaded file b) (hown : ∀ x ∈ d.elements, x.isInherited = false)
    (hname : file ≠ some name) : d.Loaded file (b.undoFile name).2 where
  toFenced := h.toFenced.undoFile name
  usedUp := by rw [b.pending_undoFile name]; exact h.usedUp
  present e x hx := by
    have hkeep : ¬ ∃ y ∈ b.recorded name, y.key = e.key := by
      rintro ⟨y, hy, hkey⟩
      exact hname (h.claimed name y hy ((defines_of_element? hx).congr hkey.symm))
    have hfound := h.present e x hx
    rcases h.tabled.element?_undoFile name e with heq | heq
    · rw [heq, if_neg hkeep, hfound]
    · rw [heq, if_neg hkeep, hfound]
      simp [hown x (mem_elements_of_element? hx).1]
  claimed other e he := by
    rw [CodeBase.recorded_undoFile] at he
    split at he
    · cases he
    · exact h.claimed other e he
  recorded other hother := by
    rw [CodeBase.recorded_undoFile, if_neg]
    · exact h.recorded other hother
    · rintro rfl
      exact hname hother

/-- A class that was loaded under the file goes with it. -/
theorem Loaded.undoFile_self (h : d.Loaded (some name) b) : d.Gone (b.undoFile name).2 where
  toFenced := h.toFenced.undoFile name
  usedUp := by rw [b.pending_undoFile name]; exact h.usedUp
  absent := by
    have hgone : ∃ x ∈ b.recorded name, x.key = (UndoEntry.classDecl d.decl.name).key :=
      ⟨_, h.recorded name rfl, rfl⟩
    refine (Option.map_eq_none_iff (f := Element.classDecl)).1 ?_
    rcases h.tabled.element?_undoFile name (.classDecl d.decl.name) with heq | heq
    · exact heq.trans (if_pos hgone)
    · exact heq.trans (by rw [if_pos hgone]; rfl)

end ClassDefinition

/-! ### Sessions -/

namespace Request

/-- The request registers and announces nothing that the definition registers. -/
def Leaves (d : ClassDefinition) : Request → Prop
  | .register r => d.Spares r.elements
  | .announce c d' => c.fold ≠ d.decl.name.fold ∧ d.Spares d'.elements
  | _ => True

/-- One of the requests, with the file being read, makes an announced class one that is not
announced any more. -/
def LoadsDuring (c : ClassName) (file : String) : List Request → TypeTable × CodeBase → Prop
  | [], _ => False
  | r :: rs, s => ∃ s', r.run s = .ok ((), s') ∧
      (s.2.currentFile = some file ∧ s.2.isPending c = true ∧ s'.2.isPending c = false ∨
        LoadsDuring c file rs s')

end Request

namespace ClassDefinition

variable {d : ClassDefinition} {c : ClassName} {file : Option String} {r : Request}
  {rs : List Request} {s s' : TypeTable × CodeBase}

theorem Unclaimed.run (h : d.Unclaimed s.2) (hfree : s.2.pending[d.decl.name.fold]? = none)
    (hr : r.Leaves d) (hrun : r.run s = .ok ((), s')) :
    d.Unclaimed s'.2 ∧ s'.2.pending[d.decl.name.fold]? = none := by
  have haside : ∀ {b b' : CodeBase}, d.Unclaimed b ∧ b.pending[d.decl.name.fold]? = none →
      d.Aside b b' → d.Unclaimed b' ∧ b'.pending[d.decl.name.fold]? = none := fun hb h =>
    ⟨⟨h.fenced, h.classDecl.trans hb.1.absent,
      fun name e he hd => hb.1.unrecorded name e ((h.recorded name e hd).1 he) hd⟩,
      h.pending.trans hb.2⟩
  refine (lasting_unclaimed d).run ?_ ?_ s s' () ⟨h, hfree⟩ hrun
  · rintro x rfl b hb
    by_cases hback : ∃ name, x = .takeBack name
    · obtain ⟨name, rfl⟩ := hback
      exact ⟨hb.1.undoFile name, by rw [CodeBase.pending_register]; exact hb.2⟩
    · exact haside hb (hb.1.toFenced.aside_register hr (not_exists.1 hback))
  · rintro c d' rfl b hb
    exact haside hb (hb.1.toFenced.aside_announce hr.1 hr.2)

theorem Loaded.run (h : d.Loaded file s.2) (hr : r.Leaves d)
    (hkeep : ∀ name, r ≠ .register (.takeBack name)) (hrun : r.run s = .ok ((), s')) :
    d.Loaded file s'.2 := by
  refine (lasting_loaded d file).run ?_ ?_ s s' () h hrun
  · rintro x rfl b hb
    exact hb.aside (hb.toFenced.aside_register hr fun name hx => hkeep name (congrArg _ hx))
  · rintro c d' rfl b hb
    exact hb.aside (hb.toFenced.aside_announce hr.1 hr.2)

/-- One request: the class waits on, or it is loaded under the file that is being read. -/
theorem Waits.run (h : d.Waits s.2) (hr : r.Leaves d)
    (hkeep : ∀ name, r ≠ .register (.takeBack name)) (hrun : r.run s = .ok ((), s')) :
    d.Waits s'.2 ∨ d.Loaded s.2.currentFile s'.2 := by
  by_cases hfile : ∃ name, r = .register (.file name)
  · obtain ⟨name, rfl⟩ := hfile
    cases hrun
    exact .inl (h.aside (h.toFenced.aside_register hr fun name hx => hkeep name (congrArg _ hx)))
  · have hstep : ∀ {b b' : CodeBase}, b.currentFile = s.2.currentFile ∧
        (d.Waits b ∨ d.Loaded s.2.currentFile b) → b'.currentFile = b.currentFile →
        (d.Fenced b → d.Aside b b') →
        b'.currentFile = s.2.currentFile ∧ (d.Waits b' ∨ d.Loaded s.2.currentFile b') :=
      fun hb hsame haside => ⟨hsame.trans hb.1,
        hb.2.imp (fun hw => hw.aside (haside hw.toFenced)) fun hl => hl.aside (haside hl.toFenced)⟩
    refine ((lasting_waits_or_loaded d s.2.currentFile).run ?_ ?_ s s' () ⟨rfl, .inl h⟩ hrun).2
    · rintro x rfl b hb
      refine hstep hb ?_ fun hf => hf.aside_register hr fun name hx => hkeep name (congrArg _ hx)
      exact CodeBase.currentFile_register (fun name hx => hfile ⟨name, congrArg _ hx⟩)
        fun name hx => hkeep name (congrArg _ hx)
    · rintro c d' rfl b hb
      exact hstep hb rfl fun hf => hf.aside_announce hr.1 hr.2

theorem Waits.isPending (h : d.Waits s.2) (hc : c.fold = d.decl.name.fold) :
    s.2.isPending c = true := by
  obtain ⟨p, hp, -⟩ := h.announced
  rw [CodeBase.isPending, Std.HashMap.contains_eq_isSome_getElem?, hc, hp]
  rfl

theorem Loaded.isPending (h : d.Loaded file s.2) (hc : c.fold = d.decl.name.fold) :
    s.2.isPending c = false := by
  rw [CodeBase.isPending, Std.HashMap.contains_eq_isSome_getElem?, hc, h.usedUp]
  rfl

/-- Requests one after the other before the class is announced. -/
theorem Unclaimed.session (h : d.Unclaimed s.2) (hfree : s.2.pending[d.decl.name.fold]? = none)
    (hrs : ∀ r ∈ rs, r.Leaves d) (hrun : rs.forM Request.run s = .ok ((), s')) :
    d.Unclaimed s'.2 := by
  induction rs generalizing s with
  | nil =>
    cases hrun
    exact h
  | cons r rs ih =>
    obtain ⟨hr, hrest⟩ := List.forall_mem_cons.1 hrs
    obtain ⟨_, s₁, hfirst, hrun⟩ := ExpandM.bind_eq_ok.1 hrun
    obtain ⟨h₁, hfree₁⟩ := h.run hfree hr hfirst
    exact ih h₁ hfree₁ hrest hrun

theorem Loaded.session (h : d.Loaded file s.2) (hc : c.fold = d.decl.name.fold)
    (hrs : ∀ r ∈ rs, r.Leaves d) (hkeep : ∀ name, .register (.takeBack name) ∉ rs)
    (hrun : rs.forM Request.run s = .ok ((), s')) :
    d.Loaded file s'.2 ∧ ∀ name, ¬ Request.LoadsDuring c name rs s := by
  induction rs generalizing s with
  | nil =>
    cases hrun
    exact ⟨h, fun _ => id⟩
  | cons r rs ih =>
    obtain ⟨hr, hrest⟩ := List.forall_mem_cons.1 hrs
    obtain ⟨_, s₁, hfirst, hrun⟩ := ExpandM.bind_eq_ok.1 hrun
    have h₁ := h.run hr (fun name heq => hkeep name (heq ▸ List.mem_cons_self)) hfirst
    obtain ⟨hend, hnever⟩ :=
      ih h₁ hrest (fun name hmem => hkeep name (List.mem_cons_of_mem r hmem)) hrun
    refine ⟨hend, ?_⟩
    rintro name ⟨s₂, hfirst', ⟨-, hpending, -⟩ | hlater⟩
    · rw [h.isPending hc] at hpending
      cases hpending
    · rw [hfirst] at hfirst'
      cases hfirst'
      exact hnever name hlater

/-- After the class is announced: at the end it waits and was never loaded, or it was loaded under
one file and is ascribed to it. -/
theorem Waits.session (h : d.Waits s.2) (hc : c.fold = d.decl.name.fold)
    (hrs : ∀ r ∈ rs, r.Leaves d) (hkeep : ∀ name, .register (.takeBack name) ∉ rs)
    (hrun : rs.forM Request.run s = .ok ((), s')) :
    (d.Waits s'.2 ∧ ∀ name, ¬ Request.LoadsDuring c name rs s) ∨
      ∃ file, d.Loaded file s'.2 ∧ ∀ name, Request.LoadsDuring c name rs s ↔ file = some name := by
  induction rs generalizing s with
  | nil =>
    cases hrun
    exact .inl ⟨h, fun _ => id⟩
  | cons r rs ih =>
    obtain ⟨hr, hrest⟩ := List.forall_mem_cons.1 hrs
    obtain ⟨_, s₁, hfirst, hrun⟩ := ExpandM.bind_eq_ok.1 hrun
    have hkeep' : ∀ name, .register (.takeBack name) ∉ rs :=
      fun name hmem => hkeep name (List.mem_cons_of_mem r hmem)
    have hsteps : ∀ name, Request.LoadsDuring c name (r :: rs) s ↔
        (s.2.currentFile = some name ∧ s.2.isPending c = true ∧ s₁.2.isPending c = false) ∨
          Request.LoadsDuring c name rs s₁ := by
      intro name
      constructor
      · rintro ⟨s₂, hfirst', hload⟩
        rw [hfirst] at hfirst'
        cases hfirst'
        exact hload
      · exact fun hload => ⟨s₁, hfirst, hload⟩
    rcases h.run hr (fun name heq => hkeep name (heq ▸ List.mem_cons_self)) hfirst with h₁ | h₁
    · have hstill : ∀ name, Request.LoadsDuring c name (r :: rs) s ↔
          Request.LoadsDuring c name rs s₁ := by
        intro name
        rw [hsteps, h₁.isPending hc]
        simp
      refine (ih h₁ hrest hkeep' hrun).imp ?_ ?_
      · exact fun ⟨hend, hnever⟩ => ⟨hend, fun name hload => hnever name ((hstill name).1 hload)⟩
      · exact fun ⟨file, hend, hload⟩ => ⟨file, hend, fun name => (hstill name).trans (hload name)⟩
    · -- this request loads it, and no later one can
      obtain ⟨hend, hnever⟩ := h₁.session hc hrest hkeep' hrun
      refine .inr ⟨_, hend, fun name => ?_⟩
      rw [hsteps, h.isPending hc, h₁.isPending hc]
      simp [hnever name]

/-! #### From the start to the answers -/

theorem unclaimed_start (hydrateLazily : Bool) {resolver : Option (List ResolverEntry)}
    (hresolver : ∀ rows ∈ resolver, ∀ e ∈ rows, ∀ d' ∈ e.definitions, d.Spares d'.elements) :
    d.Unclaimed { CodeBase.create hydrateLazily with resolver } where
  tabled := { (CodeBase.fresh_create hydrateLazily).tabled with }
  waiting k p hp := by
    change ({} : Std.HashMap QualifiedName PendingClass)[k]? = some p at hp
    rw [Std.HashMap.getElem?_empty] at hp
    cases hp
  resolver := hresolver
  absent := CodeBase.class?_create hydrateLazily d.decl.name
  unrecorded _ _ he := by cases he

theorem Unclaimed.waits_announce (h : d.Unclaimed b) (hc : c.fold = d.decl.name.fold) :
    d.Waits (b.announce c d) where
  tabled := { h.tabled with }
  waiting k p hp hk := by
    change (b.pending.insert c.fold ⟨c, d⟩)[k]? = some p at hp
    rw [Std.HashMap.getElem?_insert, hc, if_neg (by simpa using Ne.symm hk)] at hp
    exact h.waiting k p hp hk
  resolver := h.resolver
  absent := h.absent
  unrecorded := h.unrecorded
  announced := by
    refine ⟨⟨c, d⟩, ?_, rfl⟩
    show (b.pending.insert c.fold ⟨c, d⟩)[d.decl.name.fold]? = _
    rw [hc, Std.HashMap.getElem?_insert_self]

/-- A member of the class is found, whatever is loaded and handed down when it is asked for. -/
theorem Loaded.element?_prepare (h : d.Loaded file b) (owner : ClassName) {e : UndoEntry}
    {x : Element} (hx : d.element? e = some x) :
    (CodeBase.prepare owner b).2.element? e = some x :=
  ((lasting_loaded d file).prepare owner h).present e x hx

theorem Loaded.method? (h : d.Loaded file b) {owner : ClassName} {name : String} {m : Method}
    (hm : d.element? (.method ⟨owner, name⟩) = some (.method m)) :
    (CodeBase.method? owner name b).1 = some m :=
  Option.map_injective (fun _ _ => Element.method.inj) (h.element?_prepare owner hm)

theorem Loaded.property? (h : d.Loaded file b) {owner : ClassName} {name : String} {p : Property}
    (hp : d.element? (.property ⟨owner, name⟩) = some (.property p)) :
    (CodeBase.property? owner name b).1 = some p :=
  Option.map_injective (fun _ _ => Element.property.inj) (h.element?_prepare owner hp)

theorem Loaded.constant? (h : d.Loaded file b) {owner : ClassName} {name : String}
    {a : ClassConstant} (ha : d.element? (.classConstant ⟨owner, name⟩) = some (.classConstant a)) :
    (CodeBase.constant? owner name b).1 = some a :=
  Option.map_injective (fun _ _ => Element.classConstant.inj) (h.element?_prepare owner ha)

theorem Loaded.class? (h : d.Loaded file b) (hc : c.fold = d.decl.name.fold) :
    b.class? c = some d.decl :=
  Option.map_injective (fun _ _ => Element.classDecl.inj)
    (h.present _ _ (element?_classDecl hc.symm))

/-- After a file is taken back, the class exists exactly if it was not loaded under the file, and
then it is there as loaded. -/
theorem Waits.hasClass_undoFile (h : d.Waits s.2) (hc : c.fold = d.decl.name.fold)
    (hown : ∀ x ∈ d.elements, x.isInherited = false) (hrs : ∀ r ∈ rs, r.Leaves d)
    (hkeep : ∀ name, .register (.takeBack name) ∉ rs)
    (hrun : rs.forM Request.run s = .ok ((), s')) (name : String) :
    ((CodeBase.hasClass c (s'.2.undoFile name).2).1 = true ∧
        (∃ file, d.Loaded file (CodeBase.hasClass c (s'.2.undoFile name).2).2) ∧
        ¬ Request.LoadsDuring c name rs s) ∨
      (CodeBase.hasClass c (s'.2.undoFile name).2).1 = false ∧ Request.LoadsDuring c name rs s := by
  rcases h.session hc hrs hkeep hrun with ⟨hend, hnever⟩ | ⟨file, hend, hload⟩
  · have hfound := (hend.undoFile name).hasClass hc
    exact .inl ⟨hfound.1, ⟨_, hfound.2⟩, hnever name⟩
  · by_cases hname : file = some name
    · subst hname
      exact .inr ⟨hend.undoFile_self.hasClass hc, (hload name).2 rfl⟩
    · have hfound := (hend.undoFile_of_ne hown hname).hasClass hc
      exact .inl ⟨hfound.1, ⟨file, hfound.2⟩, fun h => hname ((hload name).1 h)⟩

end ClassDefinition

/-- A class that is loaded on demand, when a file is taken back. The class is announced, and then
other elements are registered and announced, classes and members looked up, types expanded and files
gone on to, in any order, before a file is taken back. The class is found exactly if it was not
loaded while this file was being read; and where it is found, so are its members. -/
theorem hasClass_undoFile_iff {d : ClassDefinition} {c : ClassName}
    (hc : c.fold = d.decl.name.fold) (hown : ∀ x ∈ d.elements, x.isInherited = false)
    {resolver : Option (List ResolverEntry)}
    (hresolver : ∀ rows ∈ resolver, ∀ e ∈ rows, ∀ d' ∈ e.definitions, d.Spares d'.elements)
    {before after : List Request} (hbefore : ∀ r ∈ before, r.Leaves d)
    (hafter : ∀ r ∈ after, r.Leaves d) (hkeep : ∀ name, .register (.takeBack name) ∉ after)
    {t t₀ t₁ : TypeTable} {b₀ b₁ : CodeBase} {hydrateLazily : Bool}
    (hrun₀ : before.forM Request.run (t, { CodeBase.create hydrateLazily with resolver }) =
      .ok ((), t₀, b₀))
    (hrun₁ : after.forM Request.run (t₀, b₀.announce c d) = .ok ((), t₁, b₁)) (file : String) :
    ((CodeBase.hasClass c (b₁.undoFile file).2).1 = true ↔
        ¬ Request.LoadsDuring c file after (t₀, b₀.announce c d)) ∧
      ((CodeBase.hasClass c (b₁.undoFile file).2).1 = true →
        ∃ b₂, CodeBase.hasClass c (b₁.undoFile file).2 = (true, b₂) ∧
          b₂.class? c = some d.decl ∧
          (∀ owner name m, d.element? (.method ⟨owner, name⟩) = some (.method m) →
            (CodeBase.method? owner name b₂).1 = some m) ∧
          (∀ owner name p, d.element? (.property ⟨owner, name⟩) = some (.property p) →
            (CodeBase.property? owner name b₂).1 = some p) ∧
          (∀ owner name a, d.element? (.classConstant ⟨owner, name⟩) = some (.classConstant a) →
            (CodeBase.constant? owner name b₂).1 = some a)) := by
  have hstart := ClassDefinition.unclaimed_start hydrateLazily hresolver
  have hfree : ({} : Std.HashMap QualifiedName PendingClass)[d.decl.name.fold]? = none :=
    Std.HashMap.getElem?_empty
  have hwaits := (hstart.session hfree hbefore hrun₀).waits_announce hc
  rcases hwaits.hasClass_undoFile (s := (t₀, b₀.announce c d)) hc hown hafter hkeep hrun₁ file with
    ⟨hfound, ⟨file', hloaded⟩, hnever⟩ | ⟨hlost, hload⟩
  · refine ⟨⟨fun _ => hnever, fun _ => hfound⟩, fun _ => ⟨_, Prod.ext hfound rfl, ?_⟩⟩
    exact ⟨hloaded.class? hc, fun _ _ _ => hloaded.method?, fun _ _ _ => hloaded.property?,
      fun _ _ _ => hloaded.constant?⟩
  · have hlost' : ¬ (CodeBase.hasClass c (b₁.undoFile file).2).1 = true := Bool.eq_false_iff.1 hlost
    exact ⟨⟨fun h => absurd h hlost', fun h => absurd hload h⟩, fun h => absurd h hlost'⟩

/-! ### A class that a file uses -/

/-- A class with a method. -/
def plugin : ClassDefinition where
  decl := { name := ⟨"\\", "Plugin"⟩, type := .empty }
  methods := [{ name := ⟨⟨"\\", "Plugin"⟩, "run"⟩ }]

/-- The class is looked up while no file is being read, and then a file is read. -/
def pluginFirst : List Request :=
  [.lookUp (.hasClass plugin.decl.name), .register (.file (some "user.php")),
    .register (.function spare)]

theorem leaves_pluginFirst : ∀ r ∈ pluginFirst, r.Leaves plugin := by
  have hfile : plugin.Spares [] := by decide
  have hspare : plugin.Spares [.function spare] := by decide
  simp only [pluginFirst, List.forall_mem_cons, List.not_mem_nil, false_imp_iff, implies_true,
    and_true]
  exact ⟨trivial, hfile, hspare⟩

theorem not_loadsDuring_pluginFirst (t : TypeTable) {b : CodeBase} (hb : b.currentFile = none) :
    ¬ Request.LoadsDuring plugin.decl.name "user.php" pluginFirst (t, b) := by
  rintro ⟨_, ⟨⟩, ⟨hfile, -⟩ |
    ⟨_, ⟨⟩, ⟨-, hpending, hloaded⟩ | ⟨_, ⟨⟩, ⟨-, hpending, hloaded⟩ | hnever⟩⟩⟩
  · rw [hb] at hfile
    cases hfile
  -- neither going on to a file nor registering a function loads anything
  · exact absurd (hpending.symm.trans hloaded) (by decide)
  · exact absurd (hpending.symm.trans hloaded) (by decide)
  · exact hnever

/-- A class that is looked up before the file is read is there when the file is taken back, and so
is its method. -/
theorem hasClass_undoFile_iff_plugin :
    ∃ b₀ b₁ b₂, [Request.register .follow].forM Request.run (.initial false, .create true) =
        .ok ((), .initial false, b₀) ∧
      pluginFirst.forM Request.run (.initial false, b₀.announce plugin.decl.name plugin) =
        .ok ((), .initial false, b₁) ∧
      CodeBase.hasClass plugin.decl.name (b₁.undoFile "user.php").2 = (true, b₂) ∧
      (CodeBase.method? plugin.decl.name "run" b₂).1 = plugin.methods.head? := by
  generalize TypeTable.initial false = t
  obtain ⟨b₀, hfile, hrun₀⟩ : ∃ b₀ : CodeBase, b₀.currentFile = none ∧
      [Request.register .follow].forM Request.run
        (t, { CodeBase.create true with resolver := none }) = .ok ((), t, b₀) := ⟨_, rfl, rfl⟩
  obtain ⟨b₁, hrun₁⟩ : ∃ b₁ : CodeBase, pluginFirst.forM Request.run
      (t, b₀.announce plugin.decl.name plugin) = .ok ((), t, b₁) := ⟨_, rfl⟩
  have hbefore : ∀ r ∈ [Request.register .follow], r.Leaves plugin :=
    List.forall_mem_singleton.2 (by decide : plugin.Spares [])
  have hown : ∀ x ∈ plugin.elements, x.isInherited = false := by decide
  obtain ⟨hiff, hmembers⟩ := hasClass_undoFile_iff (c := plugin.decl.name) rfl hown
    (fun _ hrows => by cases hrows) hbefore leaves_pluginFirst (by simp [pluginFirst]) hrun₀ hrun₁
    "user.php"
  obtain ⟨b₂, hfound, -, hmethod, -⟩ := hmembers (hiff.2 (not_loadsDuring_pluginFirst _ hfile))
  exact ⟨b₀, b₁, b₂, hrun₀, hrun₁, hfound, hmethod _ _ _ rfl⟩

/-- A class that was announced while no file was being read, and is looked up first while a file is
being read, is lost when the file is taken back. -/
theorem not_hasClass_undoFile_plugin :
    ∃ b₀ b₁, [Request.register .follow].forM Request.run (.initial false, .create true) =
        .ok ((), .initial false, b₀) ∧
      b₀.currentFile = none ∧
      [Request.register (.file (some "user.php")), .lookUp (.hasClass plugin.decl.name)].forM
          Request.run (.initial false, b₀.announce plugin.decl.name plugin) =
        .ok ((), .initial false, b₁) ∧
      (CodeBase.hasClass plugin.decl.name (b₁.undoFile "user.php").2).1 = false := by
  generalize TypeTable.initial false = t
  have hstart : plugin.Unclaimed ((CodeBase.create true).register .follow) :=
    { ClassDefinition.unclaimed_start true (fun _ hrows => by cases hrows) with
      tabled := { (CodeBase.fresh_create true).tabled with }
      unrecorded := fun name e he => by
        simp [CodeBase.recorded, CodeBase.register, CodeBase.enableUndo, UndoLog.row,
          UndoLog.empty, MultiTable.get?, CodeBase.create] at he }
  have hwaits := hstart.waits_announce (c := plugin.decl.name) rfl
  have hread := hwaits.aside (hwaits.toFenced.aside_register (r := .file (some "user.php"))
    (fun _ hx => by cases hx) (by simp))
  have hloaded : plugin.Loaded (some "user.php") _ :=
    (hread.hasClass (c := plugin.decl.name) rfl).2
  exact ⟨_, _, rfl, rfl, rfl, hloaded.undoFile_self.hasClass rfl⟩

end UnionInference
