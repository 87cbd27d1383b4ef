import UnionInference.Proofs.CodeBase.Mirror

/-!
Taking a file back. Every element is registered while some file, or none, is being read. Where all
elements of one name are ascribed to one file, taking this file back leaves a code base that answers
every question by name as if the elements of the file had never been registered, whatever was looked
up and filled in between.
-/

namespace UnionInference

/-! ### What registrations place -/

/-- An element with the file that was being read when it was registered. -/
structure Placement where
  file : Option String
  element : Element

namespace Registration

/-- The elements that are registered, in order. -/
def elements : Registration → List Element
  | .classDecl c => [.classDecl c]
  | .method m => [.method m]
  | .property p => [.property p]
  | .classConstant c => [.classConstant c]
  | .definition d =>
    .classDecl d.decl :: (d.methods.map .method ++ d.properties.map .property ++
      d.constants.map .classConstant)
  | .function f => [.function f]
  | .globalConstant c => [.globalConstant c]
  | .follow | .file _ | .takeBack _ => []

/-- The file that is being read afterwards. -/
def fileAfter (current : Option String) : Registration → Option String
  | .file name => name
  | _ => current

/-- Nothing is taken back, and members are declared by the class that they are registered for. -/
def Adds : Registration → Prop
  | .takeBack _ => False
  | r => ∀ x ∈ r.elements, x.isInherited = false

/-- The elements that are registered, each with its file. -/
def placements (current : Option String) : List Registration → List Placement
  | [] => []
  | r :: rs => r.elements.map (⟨current, ·⟩) ++ placements (r.fileAfter current) rs

/-- The registrations without those of elements that are ascribed to the file. -/
def without (file : String) (current : Option String) : List Registration → List Registration
  | [] => []
  | r :: rs =>
    let rest := without file (r.fileAfter current) rs
    if current = some file ∧ r.elements.isEmpty = false then rest else r :: rest

theorem fileAfter_eq {r : Registration} (h : r.elements.isEmpty = false) (current : Option String) :
    r.fileAfter current = current := by
  cases r with
  | file name => cases h
  | _ => rfl

theorem Adds.isInherited {r : Registration} (h : r.Adds) {x : Element} (hx : x ∈ r.elements) :
    x.isInherited = false := by
  cases r with
  | takeBack file => exact h.elim
  | _ => exact h x hx

theorem Adds.mem_without (file : String) (current : Option String) {rs : List Registration}
    (h : ∀ r ∈ rs, r.Adds) : ∀ r ∈ without file current rs, r.Adds := by
  induction rs generalizing current with
  | nil => exact h
  | cons r rs ih =>
    have hrest := fun current' => ih current' fun r' hr' => h r' (List.mem_cons_of_mem r hr')
    unfold without
    dsimp only
    split
    · exact hrest _
    · exact List.forall_mem_cons.2 ⟨h r List.mem_cons_self, hrest _⟩

/-- What is left is what is placed elsewhere. -/
theorem placements_without (file : String) (current : Option String) (rs : List Registration) :
    placements current (without file current rs) =
      (placements current rs).filter fun p => p.file ≠ some file := by
  induction rs generalizing current with
  | nil => rfl
  | cons r rs ih =>
    unfold without
    dsimp only
    rw [placements, List.filter_append, ← ih]
    split
    · next hr =>
      rw [fileAfter_eq hr.2, List.filter_eq_nil_iff.2, List.nil_append]
      intro p hp
      obtain ⟨x, -, rfl⟩ := List.mem_map.1 hp
      simpa using hr.1
    · next hr =>
      rw [placements, List.filter_eq_self.2]
      intro p hp
      obtain ⟨x, hx, rfl⟩ := List.mem_map.1 hp
      have hsome : r.elements.isEmpty = false := by
        rw [List.isEmpty_eq_false_iff]
        exact List.ne_nil_of_mem hx
      simpa [hsome] using hr

end Registration

/-- The registrations among requests. -/
def Request.registrations : List Request → List Registration
  | [] => []
  | .register r :: requests => r :: registrations requests
  | _ :: requests => registrations requests

/-! ### The log -/

namespace UndoLog

/-- The entries of a file, oldest first. -/
def row (l : UndoLog) (file : String) : List UndoEntry := (l.entries.get? file).getD []

theorem current_record (l : UndoLog) (e : UndoEntry) : (l.record e).current = l.current := by
  unfold record
  split <;> rfl

theorem row_record (l : UndoLog) (e : UndoEntry) (file : String) :
    (l.record e).row file = if l.current = some file then l.row file ++ [e] else l.row file := by
  unfold record
  split
  · next name hname =>
    show ((l.entries.rows.insert name (l.row name ++ [e]))[file]?).getD [] = _
    rw [Std.HashMap.getElem?_insert, hname]
    by_cases hf : name = file
    · simp [hf]
    · simp [hf, row, MultiTable.get?]
  · next hnone => simp [hnone]

theorem takeFile_of_row {l : UndoLog} {file : String} (h : l.row file ≠ []) :
    ∃ l', l.takeFile file = (some (l.row file).reverse, l') := by
  refine ⟨_, Prod.ext ?_ rfl⟩
  unfold row at h ⊢
  show (l.entries.get? file).map List.reverse = _
  cases hrow : l.entries.get? file with
  | none =>
    rw [hrow] at h
    exact absurd rfl h
  | some es => rfl

end UndoLog

namespace CodeBase

variable {b b₀ b' : CodeBase} {hydrateLazily : Bool} {current : Option String}
  {ps : List Placement}

/-! ### What a code base holds -/

/-- Elements are registered one after the other, or files are followed, or the file changes. -/
theorem register_cases {r : Registration} (h : r.Adds) :
    ((∀ b : CodeBase, b.register r = r.elements.foldl put b) ∧
        ∀ current, r.fileAfter current = current) ∨
      r = .follow ∨ ∃ name, r = .file name := by
  cases r with
  | follow => exact .inr (.inl rfl)
  | file name => exact .inr (.inr ⟨name, rfl⟩)
  | takeBack file => exact h.elim
  | definition d =>
    refine .inl ⟨fun b => ?_, fun _ => rfl⟩
    rw [Registration.elements, List.foldl_cons, List.foldl_append, List.foldl_append,
      List.foldl_map, List.foldl_map, List.foldl_map]
    rfl
  | _ => exact .inl ⟨fun _ => rfl, fun _ => rfl⟩

/-- The code base holds what was placed, the last element under each name, and tells for each file
what was placed while it was being read. -/
structure Holds (b : CodeBase) (hydrateLazily : Bool) (current : Option String)
    (ps : List Placement) : Prop where
  fresh : b.Fresh
  lazily : b.hydrateLazily = hydrateLazily
  element? : ∀ e, b.element? e =
    ((ps.filter fun p => p.element.entry.key = e.key).getLast?).map Placement.element
  log : ∃ l, b.undo = some l ∧ l.current = current ∧
    ∀ file, l.row file = (ps.filter fun p => p.file = some file).map fun p => p.element.entry

theorem holds_start (hydrateLazily : Bool) :
    ((create hydrateLazily).register .follow).Holds hydrateLazily none [] where
  fresh := (fresh_create hydrateLazily).register .follow
  lazily := rfl
  element? e := by
    have hsame : ((create hydrateLazily).register .follow).element? e =
        (create hydrateLazily).element? e := by cases e <;> rfl
    rw [hsame, element?_create]
    rfl
  log := ⟨.empty, rfl, rfl, fun file => by simp [UndoLog.row, UndoLog.empty, MultiTable.get?]⟩

namespace Holds

theorem put (h : b.Holds hydrateLazily current ps) (x : Element) :
    (b.put x).Holds hydrateLazily current (ps ++ [⟨current, x⟩]) where
  fresh := h.fresh.put x
  lazily := (b.hydrateLazily_put x).trans h.lazily
  element? e := by
    rw [h.fresh.tabled.element?_put, List.filter_append]
    by_cases hx : x.entry.key = e.key
    · simp [hx]
    · simp [hx, h.element?]
  log := by
    obtain ⟨l, hundo, hcurrent, hrow⟩ := h.log
    refine ⟨l.record x.entry, ?_, (l.current_record _).trans hcurrent, fun file => ?_⟩
    · rw [undo_put, hundo]
      rfl
    · rw [l.row_record, hcurrent, hrow, List.filter_append, List.map_append]
      by_cases hf : current = some file <;> simp [hf]

theorem foldl_put (h : b.Holds hydrateLazily current ps) (xs : List Element) :
    (xs.foldl CodeBase.put b).Holds hydrateLazily current (ps ++ xs.map (⟨current, ·⟩)) := by
  induction xs generalizing b ps with
  | nil => simpa using h
  | cons x xs ih => simpa using ih (h.put x)

/-- One registration. -/
theorem register (h : b.Holds hydrateLazily current ps) {r : Registration} (hr : r.Adds) :
    (b.register r).Holds hydrateLazily (r.fileAfter current)
      (ps ++ r.elements.map (⟨current, ·⟩)) := by
  rcases register_cases hr with ⟨heq, hfile⟩ | rfl | ⟨name, rfl⟩
  · rw [heq, hfile]
    exact h.foldl_put r.elements
  · -- files are followed already
    have hsame : b.register .follow = b := by
      obtain ⟨l, hundo, -⟩ := h.log
      show { b with undo := some (b.undo.getD .empty) } = b
      rw [hundo, Option.getD_some, ← hundo]
    rw [hsame, Registration.elements, List.map_nil, List.append_nil]
    exact h
  · obtain ⟨l, hundo, -, hrow⟩ := h.log
    rw [Registration.elements, List.map_nil, List.append_nil]
    refine ⟨h.fresh.register (.file name), h.lazily, fun e => ?_, l.setFile name, ?_, rfl, hrow⟩
    · rw [← h.element?]
      cases e <;> rfl
    · show b.undo.map _ = _
      rw [hundo]
      rfl

/-- Registrations one after the other. -/
theorem foldl_register (h : b.Holds hydrateLazily current ps) {rs : List Registration}
    (hrs : ∀ r ∈ rs, r.Adds) :
    ∃ current', (rs.foldl CodeBase.register b).Holds hydrateLazily current'
      (ps ++ Registration.placements current rs) := by
  induction rs generalizing b current ps with
  | nil => exact ⟨current, by simpa [Registration.placements] using h⟩
  | cons r rs ih =>
    have hrest := ih (h.register (hrs r List.mem_cons_self)) fun r' hr' =>
      hrs r' (List.mem_cons_of_mem r hr')
    rwa [List.append_assoc] at hrest

end Holds

/-! ### Sessions -/

theorem Follows.register (h : b₀.Follows b) {r : Registration} (hr : r.Adds) :
    (b₀.register r).Follows (b.register r) := by
  rcases register_cases hr with ⟨heq, -⟩ | rfl | ⟨name, rfl⟩
  · rw [heq, heq]
    exact h.foldl_put fun x hx => hr.isInherited hx
  · exact { h with undo := congrArg (fun l : Option UndoLog => some (l.getD .empty)) h.undo }
  · exact { h with undo := congrArg (Option.map fun l : UndoLog => l.setFile name) h.undo }

/-- Whatever is asked in between, a session registers what its registrations alone register. -/
theorem Follows.foldl_effect (h : b₀.Follows b) (h₀ : b₀.SelfContained) {requests : List Request}
    (hadds : ∀ r ∈ Request.registrations requests, r.Adds) :
    ((Request.registrations requests).foldl CodeBase.register b₀).Follows
      (requests.foldl (fun b r => r.effect b) b) := by
  induction requests generalizing b₀ b with
  | nil => exact h
  | cons r requests ih =>
    cases r with
    | register r =>
      obtain ⟨hr, hrest⟩ := List.forall_mem_cons.1 hadds
      exact ih (h.register hr) (h₀.register r) hrest
    | lookUp q => exact ih (h.lookUp h₀ q) h₀ hadds
    | _ => exact ih h h₀ hadds

/-! ### Taking back -/

/-- A class that is not known has only the members that are registered for it. -/
theorem Fresh.prepare_of_unknown (h : b.Fresh) {c : ClassName} (hc : b.class? c = none) :
    (prepare c b).2 = b := by
  rw [h.selfContained.prepare_eq, h.isRegistered_eq, hc]
  rfl

theorem Fresh.method?_of_unknown (h : b.Fresh) {c : ClassName} (hc : b.class? c = none)
    (n : String) : (method? c n b).1 = b.methods.get? c n :=
  congrArg (fun b => b.methods.get? c n) (h.prepare_of_unknown hc)

theorem element?_withUndo (b : CodeBase) (undo : Option UndoLog) (e : UndoEntry) :
    CodeBase.element? { b with undo } e = b.element? e := by
  cases e <;> rfl

theorem SelfContained.removeEntries (h : b.SelfContained) (es : List UndoEntry) :
    (b.removeEntries es).2.SelfContained :=
  ⟨(h.loadable.removeEntries es).loadable, (b.sameSettings_removeEntries es).pending.trans h.pending⟩

theorem Tabled.fresh_resetInherited (h : b.Tabled) (hb : b.SelfContained) :
    b.resetInherited.Fresh where
  pending := hb.pending
  resolver := hb.loadable.resolver
  hydrated _ := Std.HashSet.contains_empty
  classes := h.classes
  spelling := h.spelling
  methods := h.methods.dropInherited
  properties := h.properties.dropInherited
  constants := h.constants.dropInherited

/-- Taking back a file that placed something, where all that was placed is still there. -/
theorem Holds.undoFile_eq (h₀ : b₀.Holds hydrateLazily current ps) (ht : b.Tabled)
    (hundo : b.undo = b₀.undo)
    (hthere : ∀ e, (b₀.element? e).isSome = true → (b.element? e).isSome = true) {file : String}
    (hfile : ∃ p ∈ ps, p.file = some file) :
    ∃ l, (b.undoFile file).2 = (CodeBase.removeEntries { b with undo := some l }
      ((ps.filter fun p => p.file = some file).map fun p =>
        p.element.entry).reverse).2.resetInherited := by
  obtain ⟨l, hlog, -, hrow⟩ := h₀.log
  rw [← hrow]
  have hne : l.row file ≠ [] := by
    obtain ⟨p, hp, hpf⟩ := hfile
    rw [hrow]
    exact List.ne_nil_of_mem (List.mem_map_of_mem (List.mem_filter.2 ⟨hp, by simpa using hpf⟩))
  obtain ⟨l', htake⟩ := UndoLog.takeFile_of_row hne
  -- the entry that is taken out first is there
  have hpos : 0 < (CodeBase.removeEntries { b with undo := some l' } (l.row file).reverse).1 := by
    obtain ⟨e, es, hes⟩ := List.exists_cons_of_ne_nil (mt List.reverse_eq_nil_iff.1 hne)
    have he : e ∈ l.row file := List.mem_reverse.1 (hes ▸ List.mem_cons_self)
    rw [hrow] at he
    obtain ⟨p, hp, rfl⟩ := List.mem_map.1 he
    rw [hes]
    have ht' : CodeBase.Tabled { b with undo := some l' } := { ht with }
    refine ht'.removeEntries_pos es ?_
    rw [element?_withUndo]
    refine hthere _ ?_
    rw [h₀.element?, Option.isSome_map, Option.isSome_iff_ne_none, Ne, List.getLast?_eq_none_iff]
    exact List.ne_nil_of_mem (List.mem_filter.2 ⟨(List.mem_filter.1 hp).1, by simp⟩)
  refine ⟨l', ?_⟩
  rw [CodeBase.undoFile, hundo, hlog]
  dsimp only
  rw [htake]
  dsimp only
  rw [if_pos hpos]

/-- What is left is declared where it stands, and has a name under which the file placed nothing. -/
theorem Holds.element?_undoFile (h₀ : b₀.Holds hydrateLazily current ps) (ht : b.Tabled)
    (hundo : b.undo = b₀.undo)
    (hthere : ∀ e, (b₀.element? e).isSome = true → (b.element? e).isSome = true) {file : String}
    (hfile : ∃ p ∈ ps, p.file = some file) (e : UndoEntry) :
    (b.undoFile file).2.element? e =
      if ∃ p ∈ ps, p.file = some file ∧ p.element.entry.key = e.key then none
      else (b.element? e).filter fun x => !x.isInherited := by
  obtain ⟨l, heq⟩ := h₀.undoFile_eq ht hundo hthere hfile
  have ht' : CodeBase.Tabled { b with undo := some l } := { ht with }
  rw [heq, (ht'.removeEntries _).element?_resetInherited, ht'.element?_removeEntries,
    element?_withUndo]
  have hiff : (∃ x ∈ ((ps.filter fun p => p.file = some file).map fun p =>
      p.element.entry).reverse, x.key = e.key) ↔
      ∃ p ∈ ps, p.file = some file ∧ p.element.entry.key = e.key := by
    simp [and_assoc]
  simp only [hiff]
  split <;> rfl

/-- Taking a file back takes out the elements of all names that the file placed, and forgets all
copies. -/
theorem Follows.undoFile (h : b₀.Follows b) (h₀ : b₀.Holds hydrateLazily current ps) {file : String}
    (hfile : ∃ p ∈ ps, p.file = some file) :
    (b.undoFile file).2.Fresh ∧ (b.undoFile file).2.hydrateLazily = hydrateLazily ∧
      ∀ e, (b.undoFile file).2.element? e =
        if ∃ p ∈ ps, p.file = some file ∧ p.element.entry.key = e.key then none
        else b₀.element? e := by
  have ht := h.tabled h₀.fresh
  have hthere : ∀ e, (b₀.element? e).isSome = true → (b.element? e).isSome = true := by
    intro e he
    rw [← h.filter_element?] at he
    exact Option.isSome_of_isSome_filter _ _ he
  refine ⟨?_, ?_, fun e => ?_⟩
  · obtain ⟨l, heq⟩ := h₀.undoFile_eq ht h.undo hthere hfile
    have ht' : CodeBase.Tabled { b with undo := some l } := { ht with }
    have hself : CodeBase.SelfContained { b with undo := some l } :=
      h₀.fresh.selfContained.sameClasses ⟨h.classes, h.pending, h.resolver, h.generation⟩
    rw [heq]
    exact (ht'.removeEntries _).fresh_resetInherited (hself.removeEntries _)
  · obtain ⟨l, heq⟩ := h₀.undoFile_eq ht h.undo hthere hfile
    rw [heq]
    exact (sameSettings_removeEntries _ _).hydrateLazily.trans (h.hydrateLazily.trans h₀.lazily)
  · rw [h₀.element?_undoFile ht h.undo hthere hfile, h.filter_element?]

/-- Where every name is ascribed to one file, this leaves what is held without the file. -/
theorem Follows.mirrors_undoFile (h : b₀.Follows b) (h₀ : b₀.Holds hydrateLazily current ps)
    {file : String} (hfile : ∃ p ∈ ps, p.file = some file)
    (hone : ∀ p ∈ ps, ∀ q ∈ ps, p.element.entry.key = q.element.entry.key → p.file = q.file)
    {current' : Option String}
    (h' : b'.Holds hydrateLazily current' (ps.filter fun p => p.file ≠ some file)) :
    b'.Mirrors (b.undoFile file).2 := by
  obtain ⟨hfresh, hlazily, helement⟩ := h.undoFile h₀ hfile
  refine h'.fresh.mirrors hfresh (fun e => ?_) (hlazily.trans h'.lazily.symm)
  rw [helement, h'.element?, h₀.element?, List.filter_filter]
  split
  · next hplaced =>
    -- all elements of the name are the file's
    obtain ⟨p, hp, hpf, hpe⟩ := hplaced
    rw [List.filter_eq_nil_iff.2]
    · rfl
    · intro q hq hboth
      simp only [Bool.and_eq_true, decide_eq_true_eq] at hboth
      exact hboth.2 ((hone q hq p hp (hboth.1.trans hpe.symm)).trans hpf)
  · next hother =>
    have hsame : ps.filter (fun p => p.element.entry.key = e.key) =
        ps.filter fun p => p.element.entry.key = e.key && p.file ≠ some file := by
      refine List.filter_congr fun p hp => ?_
      by_cases hpe : p.element.entry.key = e.key
      · have hpf : p.file ≠ some file := fun hpf => hother ⟨p, hp, hpf, hpe⟩
        simp [hpe, hpf]
      · simp [hpe]
    rw [hsame]

end CodeBase

section

open Registration Request

/-- Taking a file back restores the code base. Files are followed from the start, elements are
registered under changing files, all elements of one name under one file, and types, members and
classes are asked for in between. After the file is taken back, and after any questions that follow,
every question by name has the answer of a code base that received only the registrations outside
the file, and the same questions; and so has the question for a subclass, of a table that remembers
nothing. -/
theorem takeBack_restores {nullCasts hydrateLazily : Bool} {requests questions : List Request}
    {file : String} (himmediate : ∀ r ∈ requests, r.Immediate)
    (hadds : ∀ r ∈ registrations requests, r.Adds)
    (hone : ∀ p ∈ placements none (registrations requests),
      ∀ q ∈ placements none (registrations requests),
        p.element.entry.key = q.element.entry.key → p.file = q.file)
    (hfile : ∃ p ∈ placements none (registrations requests), p.file = some file)
    (hasks : ∀ q ∈ questions, q.Asks) (hnamed : ∀ r ∈ requests ++ questions, r.WellNamed)
    {t : TypeTable} {b : CodeBase}
    (hrun : (.register .follow :: (requests ++ .register (.takeBack file) :: questions)).forM
      Request.run (.initial nullCasts, .create hydrateLazily) = .ok ((), t, b)) :
    let b' := questions.foldl (fun b q => q.effect b)
      (.registered hydrateLazily (.follow :: without file none (registrations requests)))
    b'.AnswersAs b ∧
      ∀ child ancestor : ClassName, (QualifiedName.make child.space child.name).WellFormed →
        (CodeBase.isSubclassOf child ancestor (t, b)).map Prod.fst =
          (CodeBase.isSubclassOf child ancestor (t.withCache {}, b')).map Prod.fst := by
  intro b'
  have hall : ∀ r ∈ Request.register .follow ::
      (requests ++ .register (.takeBack file) :: questions), r.Immediate ∧ r.WellNamed := by
    intro r hr
    rw [List.forall_mem_append] at hnamed
    simp only [List.mem_cons, List.mem_append] at hr
    rcases hr with rfl | hr | rfl | hr
    · exact ⟨trivial, trivial⟩
    · exact ⟨himmediate r hr, hnamed.1 r hr⟩
    · exact ⟨trivial, trivial⟩
    · exact ⟨(hasks r hr).immediate, hnamed.2 r hr⟩
  have hfresh : CacheFresh (t, b) :=
    keepsFresh_session (fun r hr => ⟨(hall r hr).1.honest, (hall r hr).2⟩) _ _ ()
      (cacheFresh_start nullCasts hydrateLazily) hrun
  -- the code base is what registrations and look-ups make of it
  have hbase := base_eq_foldl_effect (fun r hr => (hall r hr).1)
    (CodeBase.fresh_create hydrateLazily).selfContained hrun
  rw [List.foldl_cons, List.foldl_append, List.foldl_cons] at hbase
  have hstart := CodeBase.holds_start hydrateLazily
  have hfollows : ((CodeBase.create hydrateLazily).register .follow).Follows
      ((CodeBase.create hydrateLazily).register .follow) :=
    (CodeBase.follows_create hydrateLazily).register (by simp [Adds, elements])
  obtain ⟨current, hholds⟩ := hstart.foldl_register hadds
  obtain ⟨current', hholds'⟩ := hstart.foldl_register (Adds.mem_without file none hadds)
  rw [List.nil_append] at hholds hholds'
  rw [placements_without] at hholds'
  have hmirrors : b'.Mirrors b := by
    rw [hbase]
    exact mirrors_foldl_effect hasks
      ((hfollows.foldl_effect hstart.fresh.selfContained hadds).mirrors_undoFile hholds hfile hone
        hholds')
  exact ⟨hmirrors.answersAs, fun child ancestor hname =>
    CodeBase.isSubclassOf_congr hfresh hmirrors.right hmirrors.left
      (fun c => (hmirrors.class? c).symm) ancestor hname⟩

/-! ### A subclass that is taken back -/

/-- A class with a method. Its type and that of its subclass come first after the built-in ones. -/
def shelf : ClassDefinition where
  decl := { name := .make "\\" "Shelf", type := .of 31 }
  methods := [{ name := ⟨.make "\\" "Shelf", "load"⟩ }]

/-- A subclass. -/
def bookcase : ClassDecl where
  name := .make "\\" "Bookcase"
  parent := some (.make "\\" "Shelf")
  type := .ofList [31, 32]

/-- The subclass is registered by a file, and its inherited method is asked for. -/
def bookcaseRequests : List Request :=
  [.type (.classType (.make "\\" "Shelf") []), .type (.classType (.make "\\" "Bookcase") []),
    .register (.definition shelf), .register (.file (some "bookcase.php")),
    .register (.classDecl bookcase), .lookUp (.method (.make "\\" "Bookcase") "load"),
    .register (.file none)]

/-- After the file is taken back, the method is asked for again. -/
def bookcaseQuestions : List Request := [.lookUp (.method (.make "\\" "Bookcase") "load")]

theorem run_bookcase :
    ∃ t b, (.register .follow :: (bookcaseRequests ++ .register (.takeBack "bookcase.php") ::
      bookcaseQuestions)).forM Request.run (.initial false, .create true) = .ok ((), t, b) := by
  have hl := TypeTable.lists_initial false
  generalize TypeTable.initial false = t₀ at hl ⊢
  obtain ⟨t₁, h₁, l₁, -⟩ := hl.intern_new (TypeTable.writes_object _ (.make "\\" "Shelf") false)
    (by decide) rfl
  obtain ⟨t₂, h₂, -, -⟩ := l₁.intern_new (TypeTable.writes_object _ (.make "\\" "Bookcase") false)
    (by decide) rfl
  obtain ⟨b, hrest⟩ : ∃ b, ((bookcaseRequests.drop 2) ++ .register (.takeBack "bookcase.php") ::
      bookcaseQuestions).forM Request.run (t₂, (CodeBase.create true).register .follow) =
        .ok ((), t₂, b) := ⟨_, rfl⟩
  refine ⟨t₂, b, ExpandM.bind_eq_ok.2 ⟨(), (t₀, (CodeBase.create true).register .follow), rfl, ?_⟩⟩
  refine ExpandM.bind_eq_ok.2 ⟨(), _, Request.run_type h₁, ?_⟩
  exact ExpandM.bind_eq_ok.2 ⟨(), _, Request.run_type h₂, hrest⟩

/-- The class is not there any more, and the method that it had inherited is not found. -/
theorem takeBack_restores_bookcase :
    ∃ t b, (.register .follow :: (bookcaseRequests ++ .register (.takeBack "bookcase.php") ::
        bookcaseQuestions)).forM Request.run (.initial false, .create true) = .ok ((), t, b) ∧
      (CodeBase.hasClass (.make "\\" "Bookcase") b).1 = false ∧
      (CodeBase.method? (.make "\\" "Bookcase") "load" b).1 = none := by
  obtain ⟨t, b, hrun⟩ := run_bookcase
  have hshelf : (QualifiedName.make "\\" "Shelf").WellFormed :=
    ⟨["Shelf".toList], by decide, by decide, by decide⟩
  have hbookcase : (QualifiedName.make "\\" "Bookcase").WellFormed :=
    ⟨["Bookcase".toList], by decide, by decide, by decide⟩
  have hnamed : ∀ r ∈ bookcaseRequests ++ bookcaseQuestions, r.WellNamed := by
    refine List.forall_mem_cons.2 ⟨?_, List.forall_mem_cons.2 ⟨?_, ?_⟩⟩
    · rintro kind ⟨⟩
      exact hshelf
    · rintro kind ⟨⟩
      exact hbookcase
    · simp [bookcaseQuestions, Request.WellNamed]
  have hadds : ∀ r ∈ registrations bookcaseRequests, r.Adds := by
    simp [registrations, bookcaseRequests, Adds, elements, shelf, Element.isInherited,
      isInherited_eq_false, ClassMember.name, ClassMember.definedAs]
  obtain ⟨hanswers, -⟩ := takeBack_restores (by simp [bookcaseRequests, Request.Immediate]) hadds
    (by decide) (by decide) (by simp [bookcaseQuestions, Request.Asks]) hnamed hrun
  -- without the file only the other class is there
  obtain ⟨current, hholds⟩ := (CodeBase.holds_start true).foldl_register
    (Adds.mem_without "bookcase.php" none hadds)
  set b₀ := (without "bookcase.php" none (registrations bookcaseRequests)).foldl CodeBase.register
    ((CodeBase.create true).register .follow)
  have hnone : b₀.class? (.make "\\" "Bookcase") = none :=
    Option.map_eq_none_iff.1
      ((hholds.element? (.classDecl (.make "\\" "Bookcase"))).trans (by decide))
  have hunknown : b₀.isRegistered (.make "\\" "Bookcase") = false := by
    rw [hholds.fresh.isRegistered_eq, hnone]
    rfl
  have hsame : bookcaseQuestions.foldl (fun b q => q.effect b) b₀ = b₀ :=
    hholds.fresh.prepare_of_unknown hnone
  refine ⟨t, b, hrun, ?_, ?_⟩
  · rw [hanswers.hasClass]
    show (CodeBase.hasClass _ (bookcaseQuestions.foldl (fun b q => q.effect b) b₀)).1 = false
    rw [hsame, hholds.fresh.selfContained.hasClass, hunknown]
  · rw [hanswers.method]
    show (CodeBase.method? _ _ (bookcaseQuestions.foldl (fun b q => q.effect b) b₀)).1 = none
    rw [hsame, hholds.fresh.method?_of_unknown hnone]
    exact Option.map_eq_none_iff.1
      ((hholds.element? (.method ⟨.make "\\" "Bookcase", "load"⟩)).trans (by decide))

/-! ### A class that is written like an array

The arrays of `\B` are written like the objects of a class named `\B[]`. When the latter come later,
they take over the text, and the expansion of the arrays of a subclass of `\B`, made anew, finds them
instead; but taking back a file that registered no class leaves what is remembered. And a member that
is registered as one of another class counts as inherited, so it goes with the copies. -/

/-- A class whose type comes after that of its parent. -/
def kin : ClassDecl where
  name := .make "\\" "a"
  parent := some (.make "\\" "B")
  type := .ofList [31, 32]

/-- A class that is written like the arrays of the first one. -/
def masked : ClassDecl where
  name := .make "\\" "a[]"
  type := .of 33

/-- A function that has nothing to do with them. -/
def spare : FunctionDecl where
  name := .make "\\" "go"

/-- What is registered: the function is a file's, and the classes are not. -/
def maskRegistrations : List Registration :=
  [.classDecl kin, .classDecl masked, .file (some "f.php"), .function spare, .file none]

/-- The code base before the file is taken back. -/
def maskBase : CodeBase :=
  maskRegistrations.foldl CodeBase.register ((CodeBase.create true).register .follow)

/-- Between the registrations types are asked for, and at last a question for a subclass. -/
def maskRequests : List Request :=
  [.type (.classType (.make "\\" "B") []), .type (.classType (.make "\\" "a") []),
    .register (.classDecl kin), .type (.array .mixed 32 false), .register (.classDecl masked),
    .register (.file (some "f.php")), .register (.function spare), .register (.file none),
    .isSubclassOf (.make "\\" "a[]") (.make "\\" "B"), .type (.classType (.make "\\" "B[]") [])]

/-- The types that are asked for, from place 31 on. -/
def maskRows : List TypeEntry :=
  [⟨⟨.object (.make "\\" "B") [], false⟩, "\\B"⟩, ⟨⟨.object (.make "\\" "a") [], false⟩, "\\a"⟩,
    ⟨⟨.array .mixed 32, false⟩, "\\a[]"⟩]

/-- Where they are found. -/
def maskNames : List (String × TypeId) :=
  [("\\a[]", 33), ("\\a[]", 33), ("\\a", 32), ("\\a", 32), ("\\B", 31), ("\\b", 31)]

/-- The arrays of `\B` and the objects of the class `\B[]`. -/
def lateRows : List TypeEntry :=
  [⟨⟨.array .mixed 31, false⟩, "\\B[]"⟩, ⟨⟨.object (.make "\\" "B[]") [], false⟩, "\\B[]"⟩]

/-- Where these are found. -/
def lateNames : List (String × TypeId) :=
  [("\\B[]", 35), ("\\b[]", 35), ("\\B[]", 34), ("\\B[]", 34)]

section

variable {t : TypeTable} {b : CodeBase} {rows : List TypeEntry} {names : List (String × TypeId)}

/-- The code base has the two classes. -/
structure Masks (b : CodeBase) : Prop where
  selfContained : b.SelfContained
  class? : ∀ c, b.class? c = if masked.name.fold = c.fold then some masked
    else if kin.name.fold = c.fold then some kin else none

/-- The first class expands to itself and its parent. -/
theorem expandWithin_kin (hb : Masks b) (h : t.Lists (maskRows ++ rows) names) (n : Nat) :
    expandWithin (n + 2) 32 (t, b) = .ok ((UnionType.of 32).union (.of 31), t, b) := by
  have hparent := h.entry (i := 31) (e := maskRows[0]) rfl
  have hkin := h.entry (i := 32) (e := maskRows[1]) rfl
  have hlast : expandWithin (n + 1) 31 (t, b) = .ok (.of 31, t, b) := by
    rw [ExpandM.expandWithin_object hparent rfl, hb.selfContained.declaredType, hb.class?,
      if_neg (by decide), if_neg (by decide)]
    rfl
  rw [ExpandM.expandWithin_object hkin rfl, hb.selfContained.declaredType, hb.class?,
    if_neg (by decide), if_pos (by decide)]
  refine ExpandM.bind_eq_ok.2 ⟨(UnionType.of 32).union (.of 31), (t, b), ?_, rfl⟩
  refine ExpandM.bind_eq_ok.2 ⟨31, (t, b), rfl, ?_⟩
  refine ExpandM.bind_eq_ok.2 ⟨_, _, ExpandM.fetch_apply hparent b, ?_⟩
  exact ExpandM.bind_eq_ok.2 ⟨.of 31, (t, b), hlast, rfl⟩

/-- The arrays expand to themselves and to what is found for the arrays of the parent. -/
theorem expandWithin_masked (hb : Masks b) (h : t.Lists (maskRows ++ rows) names)
    (hself : names.lookup "\\a[]" = some 33) {id : TypeId} {t' : TypeTable}
    (hid : TypeM.intern (.array .mixed 31) false t = .ok (id, t')) (n : Nat) :
    expandWithin (n + 3) 33 (t, b) = .ok (.ofList [33, id], t', b) := by
  have hkin := h.entry (i := 32) (e := maskRows[1]) rfl
  have harray := h.entry (i := 33) (e := maskRows[2]) rfl
  have hfound : TypeM.intern (.array .mixed 32) false t = .ok (33, t) :=
    h.intern_found (h.writes_array 32 rfl false) (by decide) hself
  rw [ExpandM.expandWithin_array harray rfl hkin rfl]
  refine ExpandM.bind_eq_ok.2 ⟨_, _, expandWithin_kin hb h n, ?_⟩
  refine ExpandM.types_eq_ok.2 ⟨TypeM.bind_eq_ok.2 ⟨[33, id], t', ?_, rfl⟩, rfl⟩
  refine TypeM.bind_eq_ok.2 ⟨33, t, hfound, ?_⟩
  exact TypeM.bind_eq_ok.2 ⟨id, t', hid, rfl⟩

/-- The question for a subclass of the second class is one about the arrays. -/
theorem isSubclassOf_masked (hb : Masks b) (h : t.Lists (maskRows ++ rows) names)
    (hself : names.lookup "\\a[]" = some 33) {ancestor : ClassName}
    (hne : masked.name.fold ≠ ancestor.fold) {u : UnionType} {t' : TypeTable}
    (hexpand : expandType 33 (t, b) = .ok (u, t', b)) (hu : ∀ j ∈ u.members, j < t'.size) :
    ∃ r, CodeBase.isSubclassOf masked.name ancestor (t, b) = .ok (r, t', b) ∧
      (r = true ↔ ∃ j ∈ u.members, ∃ d, t'.classOf? j = some d ∧ d.fold = ancestor.fold) := by
  have hregistered : b.isRegistered masked.name = true := by
    rw [CodeBase.isRegistered, hb.selfContained.loadable.classes.contains_eq_isSome,
      ← Option.isSome_map (f := ClassEntry.decl), ← CodeBase.class?, hb.class?, if_pos rfl]
    rfl
  have hclass : TypeM.classType masked.name t = .ok (33, t) :=
    h.intern_found (TypeTable.writes_object t masked.name false) (by decide) hself
  rw [CodeBase.isSubclassOf_apply hb.selfContained, if_neg (by simp [hne, hregistered]), hclass]
  exact ExpandM.hasAncestor_of hexpand hu ancestor

theorem masks_of_classes (hb : b.SelfContained)
    (hclasses : b.classes = (((CodeBase.create true).addClass kin).addClass masked).classes) :
    Masks b := by
  have hfresh : (CodeBase.create true).Fresh := CodeBase.fresh_create true
  refine ⟨hb, fun c => ?_⟩
  rw [CodeBase.class?, hclasses, ← CodeBase.class?,
    CodeBase.class?_addClass (hfresh.addClass kin).classes,
    CodeBase.class?_addClass hfresh.classes, CodeBase.class?_create]

theorem masks_maskBase : Masks maskBase :=
  masks_of_classes (CodeBase.fresh_registered true (.follow :: maskRegistrations)).selfContained rfl

/-- Taking the file back leaves the classes, and so does not start a new generation. -/
theorem undoFile_maskBase : Masks (maskBase.undoFile "f.php").2 ∧
    (maskBase.undoFile "f.php").2.generation = maskBase.generation := by
  have hadds : ∀ r ∈ maskRegistrations, r.Adds := by
    simp [maskRegistrations, Adds, elements, Element.isInherited]
  obtain ⟨current, hholds⟩ := (CodeBase.holds_start true).foldl_register hadds
  have hfile : ∃ p ∈ placements none maskRegistrations, p.file = some "f.php" := by decide
  obtain ⟨l, heq⟩ := hholds.undoFile_eq hholds.fresh.tabled rfl (fun _ he => he) hfile
  change (maskBase.undoFile "f.php").2 = (CodeBase.removeEntries { maskBase with undo := some l }
    [.function spare.name]).2.resetInherited at heq
  refine ⟨masks_of_classes (masks_maskBase.selfContained.register (.takeBack "f.php")) ?_, ?_⟩
  · show (maskBase.undoFile "f.php").2.classes = _
    rw [heq]
    rfl
  · rw [heq]
    rfl

/-- The types before the class `\B[]`, with the arrays of `\B` found for it, and what is remembered. -/
theorem run_maskRequests :
    ∃ t, (.register .follow :: (maskRequests ++ [.register (.takeBack "f.php")])).forM Request.run
        (.initial false, .create true) = .ok ((), t, (maskBase.undoFile "f.php").2) ∧
      t.Lists (maskRows ++ lateRows) (lateNames ++ maskNames) ∧
      t.cache.generation = maskBase.generation ∧
      t.cache.entries[33]? = some (.ofList [33, 34]) := by
  have hl := TypeTable.lists_initial false
  have hc := TypeTable.cache_initial false
  generalize TypeTable.initial false = t₀ at hl hc ⊢
  obtain ⟨t₁, h₁, l₁, c₁⟩ := hl.intern_new (TypeTable.writes_object _ (.make "\\" "B") false)
    (by decide) rfl
  obtain ⟨t₂, h₂, l₂, c₂⟩ := l₁.intern_new (TypeTable.writes_object _ (.make "\\" "a") false)
    (by decide) rfl
  obtain ⟨t₃, h₃, l₃, c₃⟩ := l₂.intern_new (l₂.writes_array 32 rfl false) (by decide) rfl
  have hlists : t₃.Lists (maskRows ++ []) maskNames := l₃
  have hsync : (t₃.syncCache maskBase.generation).Lists (maskRows ++ []) maskNames :=
    ⟨l₃.entries, l₃.byKey⟩
  -- the question makes the arrays of the parent and remembers them
  obtain ⟨t₄, h₄, l₄, c₄⟩ := hsync.intern_new (hsync.writes_array 31 rfl false) (by decide) rfl
  have hempty : t₃.cache.sync maskBase.generation = ⟨maskBase.generation, {}⟩ := by
    rw [c₃, c₂, c₁, hc]
    rfl
  have hnone : (t₃.cache.sync maskBase.generation).entries[33]? = none := by
    rw [hempty]
    exact Std.HashMap.getElem?_empty
  have hexpand := expandType_of_none hnone (expandWithin_masked masks_maskBase hsync rfl h₄ 17)
  set t₅ := (t₄.syncCache maskBase.generation).remember 33 (.ofList [33, 34])
  have l₅ : t₅.Lists _ _ := ⟨l₄.entries, l₄.byKey⟩
  have c₅ : t₅.cache = ⟨maskBase.generation,
      ({} : Std.HashMap TypeId UnionType).insert 33 (.ofList [33, 34])⟩ := by
    change t₄.cache = t₃.cache.sync maskBase.generation at c₄
    show ExpansionCache.mk (t₄.cache.sync maskBase.generation).generation
      ((t₄.cache.sync maskBase.generation).entries.insert 33 _) = _
    rw [c₄, hempty, ExpansionCache.sync_of_generation rfl]
  have hne : masked.name.fold ≠ (QualifiedName.make "\\" "B").fold := by decide
  have hinside : ∀ j ∈ (UnionType.ofList [33, 34]).members, j < t₅.size := by
    rw [l₅.size_eq]
    decide
  obtain ⟨r, hask, -⟩ := isSubclassOf_masked masks_maskBase hlists rfl hne hexpand hinside
  obtain ⟨t₆, h₆, l₆, c₆⟩ := l₅.intern_new (TypeTable.writes_object _ (.make "\\" "B[]") false)
    (by decide) rfl
  refine ⟨t₆, ?_, l₆, by rw [c₆, c₅], ?_⟩
  · refine ExpandM.bind_eq_ok.2 ⟨(), (t₀, _), rfl, ?_⟩
    refine ExpandM.bind_eq_ok.2 ⟨(), _, Request.run_type h₁, ?_⟩
    refine ExpandM.bind_eq_ok.2 ⟨(), _, Request.run_type h₂, ?_⟩
    refine ExpandM.bind_eq_ok.2 ⟨(), (t₂, _), rfl, ?_⟩
    refine ExpandM.bind_eq_ok.2 ⟨(), _, Request.run_type h₃, ?_⟩
    refine ExpandM.bind_eq_ok.2 ⟨(), (t₃, _), rfl, ?_⟩
    refine ExpandM.bind_eq_ok.2 ⟨(), (t₃, _), rfl, ?_⟩
    refine ExpandM.bind_eq_ok.2 ⟨(), (t₃, _), rfl, ?_⟩
    refine ExpandM.bind_eq_ok.2 ⟨(), (t₃, maskBase), rfl, ?_⟩
    refine ExpandM.bind_eq_ok.2 ⟨(), (t₅, maskBase), ExpandM.bind_eq_ok.2 ⟨r, _, hask, rfl⟩, ?_⟩
    exact ExpandM.bind_eq_ok.2 ⟨(), _, Request.run_type h₆, rfl⟩
  · rw [c₆, c₅, Std.HashMap.getElem?_insert_self]

/-- What is remembered is of no class. -/
theorem isSubclassOf_remembered (hb : Masks b)
    (h : t.Lists (maskRows ++ lateRows) (lateNames ++ maskNames))
    (hgen : t.cache.generation = b.generation)
    (hcached : t.cache.entries[33]? = some (.ofList [33, 34])) :
    ∃ s, CodeBase.isSubclassOf masked.name (.make "\\" "B[]") (t, b) = .ok (false, s) := by
  have hne : masked.name.fold ≠ (QualifiedName.make "\\" "B[]").fold := by decide
  have hhit : expandType 33 (t, b) = .ok (.ofList [33, 34], t.syncCache b.generation, b) := by
    rw [expandType_apply, ExpansionCache.sync_of_generation hgen, hcached]
  have hinside : ∀ j ∈ (UnionType.ofList [33, 34]).members, j < t.size := by
    rw [h.size_eq]
    decide
  obtain ⟨r, hask, hr⟩ := isSubclassOf_masked hb h rfl hne hhit hinside
  have hfalse : r = false := by
    rw [← Bool.not_eq_true, hr]
    rintro ⟨j, hj, d, hd, -⟩
    change t.classOf? j = some d at hd
    have hj' : j = 33 ∨ j = 34 := by simpa using hj
    rcases hj' with rfl | rfl
    · rw [TypeTable.classOf?, TypeTable.get?_eq (h.entry (i := 33) (e := maskRows[2]) rfl)] at hd
      cases hd
    · rw [TypeTable.classOf?, TypeTable.get?_eq (h.entry (i := 34) (e := lateRows[0]) rfl)] at hd
      cases hd
  exact ⟨_, hfalse ▸ hask⟩

/-- Anew, the arrays of the parent are found as objects of the class. -/
theorem isSubclassOf_forgotten (hb : Masks b)
    (h : t.Lists (maskRows ++ lateRows) (lateNames ++ maskNames)) (hempty : t.cache = {}) :
    ∃ s, CodeBase.isSubclassOf masked.name (.make "\\" "B[]") (t, b) = .ok (true, s) := by
  have hne : masked.name.fold ≠ (QualifiedName.make "\\" "B[]").fold := by decide
  have hnone : (t.cache.sync b.generation).entries[33]? = none := by
    rw [hempty, ExpansionCache.sync]
    split <;> exact Std.HashMap.getElem?_empty
  have hsync : (t.syncCache b.generation).Lists (maskRows ++ lateRows) (lateNames ++ maskNames) :=
    ⟨h.entries, h.byKey⟩
  have hfound : TypeM.intern (.array .mixed 31) false (t.syncCache b.generation) =
      .ok (35, t.syncCache b.generation) :=
    hsync.intern_found (hsync.writes_array 31 rfl false) (by decide) rfl
  have hexpand := expandType_of_none hnone (expandWithin_masked hb hsync rfl hfound 17)
  have hinside : ∀ j ∈ (UnionType.ofList [33, 35]).members, j < t.size := by
    rw [h.size_eq]
    decide
  obtain ⟨r, hask, hr⟩ := isSubclassOf_masked hb h rfl hne hexpand hinside
  have hclass : t.classOf? 35 = some (.make "\\" "B[]") := by
    rw [TypeTable.classOf?, TypeTable.get?_eq (h.entry (i := 35) (e := lateRows[1]) rfl)]
    rfl
  have htrue : r = true := hr.2 ⟨35, by decide, _, hclass, rfl⟩
  exact ⟨_, htrue ▸ hask⟩

end

/-- A method that is registered as one of another class. -/
def stray : Method where
  name := ⟨.make "\\" "a", "run"⟩
  definedAs := ⟨.make "\\" "B", "run"⟩

/-- The method is registered outside of files, and the function by a file. -/
def strayRegistrations : List Registration :=
  [.method stray, .file (some "f.php"), .function spare, .file none]

/-- The method goes when the file is taken back. -/
theorem method?_stray :
    (CodeBase.method? (.make "\\" "a") "run"
        (.registered true (.follow :: (strayRegistrations ++ [.takeBack "f.php"])))).1 = none ∧
      (CodeBase.method? (.make "\\" "a") "run"
        (.registered true (.follow :: without "f.php" none strayRegistrations))).1 = some stray := by
  have hfile : ∀ name, (Registration.file name).Adds := fun name => by simp [Adds, elements]
  have hstray := ((CodeBase.holds_start true).put (.method stray)).register (hfile (some "f.php"))
  refine ⟨?_, ?_⟩
  · have hholds := (hstray.put (.function spare)).register (hfile none)
    have hfresh := CodeBase.fresh_registered true
      (.follow :: (strayRegistrations ++ [.takeBack "f.php"]))
    have helement := hholds.element?_undoFile hholds.fresh.tabled rfl (fun _ he => he)
      (Exists.intro ⟨some "f.php", .function spare⟩ ⟨by simp [elements, fileAfter], rfl⟩)
    simp only [hholds.element?] at helement
    have hclass := Option.map_eq_none_iff.1
      ((helement (.classDecl (.make "\\" "a"))).trans (by decide))
    have hmethod := Option.map_eq_none_iff.1
      ((helement (.method ⟨.make "\\" "a", "run"⟩)).trans (by decide))
    exact (hfresh.method?_of_unknown hclass "run").trans hmethod
  · have hholds := hstray.register (hfile none)
    have hunknown := Option.map_eq_none_iff.1
      ((hholds.element? (.classDecl (.make "\\" "a"))).trans rfl)
    exact (hholds.fresh.method?_of_unknown hunknown "run").trans
      (Option.map_injective (fun _ _ => Element.method.inj)
        ((hholds.element? (.method ⟨.make "\\" "a", "run"⟩)).trans rfl))

/-- Where names do not tell types apart, the question for a subclass can have another answer after a
file is taken back than without the file; and so has the question for a member that is registered as
one of another class. -/
theorem takeBack_changes_masked :
    (∃ t b s s', (∀ r ∈ maskRequests, r.Immediate) ∧
      (∀ r ∈ registrations maskRequests, r.Adds) ∧
      (∀ p ∈ placements none (registrations maskRequests),
        ∀ q ∈ placements none (registrations maskRequests),
          p.element.entry.key = q.element.entry.key → p.file = q.file) ∧
      (∃ p ∈ placements none (registrations maskRequests), p.file = some "f.php") ∧
      (.register .follow :: (maskRequests ++ [.register (.takeBack "f.php")])).forM Request.run
        (.initial false, .create true) = .ok ((), t, b) ∧
      CodeBase.isSubclassOf (.make "\\" "a[]") (.make "\\" "B[]") (t, b) = .ok (false, s) ∧
      CodeBase.isSubclassOf (.make "\\" "a[]") (.make "\\" "B[]") (t.withCache {},
        .registered true (.follow :: without "f.php" none (registrations maskRequests))) =
          .ok (true, s')) ∧
    (CodeBase.method? (.make "\\" "a") "run"
        (.registered true (.follow :: (strayRegistrations ++ [.takeBack "f.php"])))).1 = none ∧
      (CodeBase.method? (.make "\\" "a") "run"
        (.registered true (.follow :: without "f.php" none strayRegistrations))).1 = some stray := by
  refine ⟨?_, method?_stray⟩
  obtain ⟨t, hrun, hlists, hgen, hcached⟩ := run_maskRequests
  obtain ⟨hmasks, hgen'⟩ := undoFile_maskBase
  obtain ⟨s, hask⟩ := isSubclassOf_remembered hmasks hlists (hgen.trans hgen'.symm) hcached
  have hmasks' : Masks
      (.registered true (.follow :: without "f.php" none (registrations maskRequests))) :=
    masks_of_classes (CodeBase.fresh_registered true _).selfContained rfl
  have hlists' : (t.withCache {}).Lists _ _ := ⟨hlists.entries, hlists.byKey⟩
  obtain ⟨s', hask'⟩ := isSubclassOf_forgotten hmasks' hlists' rfl
  refine ⟨t, _, s, s', ?_, ?_, by decide, by decide, hrun, hask, hask'⟩
  · simp [maskRequests, Request.Immediate]
  · simp [maskRequests, registrations, Adds, elements, Element.isInherited]

end

end UnionInference
