import UnionInference.Proofs.CodeBase.Ascription

/-!
The history of a code base: the row of all changes that requests made to it, in order. A question
may load classes, fill them and hand members down, and each of these is a change; so the history
tells every element that was ever registered, and when. Replaying it gives the code base, and it
registers nothing but what was registered, announced or known to a resolver.
-/

namespace UnionInference

/-- A change of a code base. -/
inductive BaseChange where
  /-- An element is registered. -/
  | put (x : Element)
  | announce (name : ClassName) (d : ClassDefinition)
  /-- An announcement is used up. -/
  | withdraw (name : ClassName)
  | setResolver (rows : List ResolverEntry)
  | note (e : LoadEvent)
  /-- A class counts as filled. -/
  | mark (name : ClassName)
  /-- A class hands its members down to another one. -/
  | handDown (source target : ClassName)
  /-- Inherited members are forgotten. -/
  | reset
  /-- From now on it is followed which file registers what. -/
  | follow
  | file (name : Option String)
  | takeBack (file : String)

/-- A request to a code base. -/
inductive BaseRequest where
  | register (r : Registration)
  | announce (name : ClassName) (d : ClassDefinition)
  | setResolver (rows : List ResolverEntry)
  | lookUp (q : LookUp)
  | reset

namespace CodeBase

/-- The code base after a change. -/
def change (b : CodeBase) : BaseChange → CodeBase
  | .put x => b.put x
  | .announce name d => b.announce name d
  | .withdraw name => { b with pending := b.pending.erase name.fold }
  | .setResolver rows => b.setResolver rows
  | .note e => b.log e
  | .mark name => b.mark name
  | .handDown source target => b.inherit source target
  | .reset => b.resetInherited
  | .follow => b.enableUndo
  | .file name => b.setFile name
  | .takeBack file => (b.undoFile file).2

/-- The code base after changes one after the other. -/
def replay (b : CodeBase) (cs : List BaseChange) : CodeBase := cs.foldl change b

/-- The code base after a request. -/
def serve (b : CodeBase) : BaseRequest → CodeBase
  | .register r => b.register r
  | .announce name d => b.announce name d
  | .setResolver rows => b.setResolver rows
  | .lookUp q => b.lookUp q
  | .reset => b.resetInherited

variable {b b' b₁ : CodeBase} {cs cs' : List BaseChange} {c : ClassName}

theorem replay_append (b : CodeBase) (cs cs' : List BaseChange) :
    b.replay (cs ++ cs') = (b.replay cs).replay cs' := List.foldl_append

theorem replay_put (b : CodeBase) (xs : List Element) :
    b.replay (xs.map .put) = xs.foldl put b := List.foldl_map

/-! ### What is noted -/

/-- The changes that a step makes for each element of a list, in turn. -/
def changesEach {α : Type} (step : α → CodeBase → List BaseChange) :
    List α → CodeBase → List BaseChange
  | [], _ => []
  | a :: as, b => step a b ++ changesEach step as (b.replay (step a b))

/-- Looking classes up one after the other, noting each answer. -/
def changesVisit (load : ClassName → BaseM Bool) (step : ClassName → CodeBase → List BaseChange)
    (event : ClassName → Bool → LoadEvent) : List ClassName → CodeBase → List BaseChange :=
  changesEach fun c b => step c b ++ [.note (event c (load c b).1)]

/-- Following an entry of a resolver. -/
def changesFollow (load : ClassName → BaseM Bool) (step : ClassName → CodeBase → List BaseChange)
    (e : ResolverEntry) (b : CodeBase) : List BaseChange :=
  let cs := changesVisit load step .before e.before b ++
    (e.definitions.flatMap ClassDefinition.elements).map .put
  cs ++ changesVisit load step .after e.after (b.replay cs)

set_option linter.unusedVariables false in
/-- Loading a class. -/
def changesLoad (entries : Option (List ResolverEntry)) (loading : List QualifiedName)
    (c : ClassName) (b : CodeBase) : List BaseChange :=
  if b.isRegistered c then []
  else if hl : c.fold ∈ loading then []
  else
    match b.pending[c.fold]? with
    | some p => .withdraw c :: .note (.load p.announcedAs) :: p.definition.elements.map .put
    | none =>
      match entries with
      | none => []
      | some rows =>
        match hf : ResolverEntry.find? rows c with
        | none => [.note (.resolve c)]
        | some e =>
          .note (.resolve c) :: changesFollow (loadClass (some rows) (c.fold :: loading))
            (fun other b => changesLoad (some rows) (c.fold :: loading) other b) e
            (b.log (.resolve c))
termination_by (ResolverEntry.idle (entries.getD []) loading).length
decreasing_by exact ResolverEntry.idle_cons_lt hf (by simpa using hl)

/-- Looking a class up. -/
def changesClass (c : ClassName) (b : CodeBase) : List BaseChange := changesLoad b.resolver [] c b

/-- Filling a class, with a number of steps down left. -/
def changesFill : Nat → ClassName → CodeBase → List BaseChange
  | 0, _, _ => []
  | n + 1, c, b =>
    if b.hydrated.contains c.fold then []
    else
      match b.class? c with
      | none => []
      | some decl =>
        .mark c :: changesEach (fun s b =>
          let loaded := changesClass s b
          if (hasClass s b).1 then
            loaded ++ changesFill n s (b.replay loaded) ++ [.handDown s c]
          else loaded) decl.sources (b.mark c)

/-- Filling a class. -/
def changesHydrate (c : ClassName) (b : CodeBase) : List BaseChange :=
  changesFill b.hydrationBound c b

/-- Loading a class and filling it, before it is asked for something. -/
def changesPrepare (c : ClassName) (b : CodeBase) : List BaseChange :=
  let loaded := changesClass c b
  if (hasClass c b).1 && (b.replay loaded).hydrateLazily then
    loaded ++ changesHydrate c (b.replay loaded)
  else loaded

/-- A question. -/
def changesLookUp (b : CodeBase) : LookUp → List BaseChange
  | .hasClass name => changesClass name b
  | .method owner _ | .property owner _ | .constant owner _ | .methodsOf owner
  | .propertiesOf owner | .constantsOf owner => changesPrepare owner b
  | .hydrate name => changesHydrate name b
  | .hydrateAll => changesEach changesHydrate b.classNames b

/-- A request. -/
def changesServe (b : CodeBase) : BaseRequest → List BaseChange
  | .register .follow => [.follow]
  | .register (.file name) => [.file name]
  | .register (.takeBack file) => [.takeBack file]
  | .register r => r.elements.map .put
  | .announce name d => [.announce name d]
  | .setResolver rows => [.setResolver rows]
  | .lookUp q => b.changesLookUp q
  | .reset => [.reset]

/-- All changes that requests make to an empty code base. -/
def history (hydrateLazily : Bool) (requests : List BaseRequest) : List BaseChange :=
  changesEach (fun r b => b.changesServe r) requests (create hydrateLazily)

end CodeBase

namespace BaseChange

/-- The elements that a change registers. -/
def puts : BaseChange → List Element
  | .put x => [x]
  | _ => []

/-- The elements that changes register, in order. -/
def registered (cs : List BaseChange) : List Element := cs.flatMap puts

end BaseChange

/-! ### Elements that may be registered -/

/-- The elements that a change registers, or makes known for later. -/
def BaseChange.elements : BaseChange → List Element
  | .put x => [x]
  | .announce _ d => d.elements
  | .setResolver rows => rows.flatMap fun e => e.definitions.flatMap ClassDefinition.elements
  | _ => []

/-- The elements that a request registers, or makes known for later. -/
def BaseRequest.elements : BaseRequest → List Element
  | .register r => r.elements
  | .announce _ d => d.elements
  | .setResolver rows => rows.flatMap fun e => e.definitions.flatMap ClassDefinition.elements
  | .lookUp _ | .reset => []

namespace CodeBase

variable {b b' b₁ : CodeBase} {cs cs' : List BaseChange} {c : ClassName} {ok : Element → Prop}

/-- Everything that waits to be registered satisfies a condition. -/
structure Waits (ok : Element → Prop) (b : CodeBase) : Prop where
  pending : ∀ (k : QualifiedName) (p : PendingClass), b.pending[k]? = some p →
    ∀ x ∈ p.definition.elements, ok x
  resolver : ∀ rows, b.resolver = some rows → ∀ e ∈ rows, ∀ d ∈ e.definitions,
    ∀ x ∈ d.elements, ok x

theorem waits_create (hydrateLazily : Bool) : (create hydrateLazily).Waits ok where
  pending k p hp := by
    change ({} : Std.HashMap QualifiedName PendingClass)[k]? = some p at hp
    rw [Std.HashMap.getElem?_empty] at hp
    cases hp
  resolver _ h := nomatch h

theorem Waits.congr (h : b.Waits ok) (hp : b'.pending = b.pending)
    (hr : b'.resolver = b.resolver) : b'.Waits ok :=
  ⟨by rw [hp]; exact h.pending, by rw [hr]; exact h.resolver⟩

theorem Waits.change (h : b.Waits ok) {ch : BaseChange} (hok : ∀ x ∈ ch.elements, ok x) :
    (b.change ch).Waits ok := by
  cases ch with
  | put x => cases x <;> exact h.congr rfl rfl
  | announce name d =>
    refine ⟨fun k p hp => ?_, h.resolver⟩
    change (b.pending.insert name.fold ⟨name, d⟩)[k]? = some p at hp
    rw [Std.HashMap.getElem?_insert] at hp
    split at hp
    · cases hp
      exact hok
    · exact h.pending k p hp
  | withdraw name =>
    refine ⟨fun k p hp => ?_, h.resolver⟩
    change (b.pending.erase name.fold)[k]? = some p at hp
    rw [Std.HashMap.getElem?_erase] at hp
    split at hp
    · cases hp
    · exact h.pending k p hp
  | setResolver rows =>
    refine ⟨h.pending, ?_⟩
    rintro _ ⟨⟩ e he d hd x hx
    exact hok x (List.mem_flatMap.2 ⟨e, he, List.mem_flatMap.2 ⟨d, hd, hx⟩⟩)
  | takeBack file => exact h.congr (b.pending_undoFile file) (b.resolver_undoFile file)
  | _ => exact h.congr rfl rfl

/-- The changes make the second code base of the first one, and make nothing known that does not
satisfy the condition. -/
structure Explains (ok : Element → Prop) (b b' : CodeBase) (cs : List BaseChange) : Prop where
  replay : b.replay cs = b'
  elements : ∀ ch ∈ cs, ∀ x ∈ ch.elements, ok x

namespace Explains

theorem nil (b : CodeBase) : Explains ok b b [] := ⟨rfl, fun _ h => nomatch h⟩

theorem one (ch : BaseChange) (hok : ∀ x ∈ ch.elements, ok x) : Explains ok b (b.change ch) [ch] :=
  ⟨rfl, by simpa using hok⟩

theorem silent (ch : BaseChange) (hnone : ch.elements = []) : Explains ok b (b.change ch) [ch] :=
  .one ch (by simp [hnone])

theorem append (h : Explains ok b b₁ cs) (h' : Explains ok b₁ b' cs') :
    Explains ok b b' (cs ++ cs') := by
  refine ⟨by rw [replay_append, h.replay, h'.replay], fun ch hch => ?_⟩
  rcases List.mem_append.1 hch with hch | hch
  · exact h.elements ch hch
  · exact h'.elements ch hch

theorem puts {xs : List Element} (hok : ∀ x ∈ xs, ok x) :
    Explains ok b (xs.foldl put b) (xs.map .put) := by
  refine ⟨replay_put b xs, fun ch hch => ?_⟩
  obtain ⟨x, hx, rfl⟩ := List.mem_map.1 hch
  simpa [BaseChange.elements] using hok x hx

/-- What waits still satisfies the condition. -/
theorem waits (h : Explains ok b b' cs) (hb : b.Waits ok) : b'.Waits ok := by
  obtain ⟨rfl, hok⟩ := h
  induction cs generalizing b with
  | nil => exact hb
  | cons ch cs ih =>
    obtain ⟨hch, hcs⟩ := List.forall_mem_cons.1 hok
    exact ih (hb.change hch) hcs

/-- Steps one after the other. -/
theorem each {α : Type} {step : α → CodeBase → List BaseChange} {f : CodeBase → α → CodeBase}
    {as : List α} (hstep : ∀ a ∈ as, ∀ b : CodeBase, b.Waits ok → Explains ok b (f b a) (step a b))
    (hb : b.Waits ok) : Explains ok b (as.foldl f b) (changesEach step as b) := by
  induction as generalizing b with
  | nil => exact nil b
  | cons a as ih =>
    obtain ⟨ha, has⟩ := List.forall_mem_cons.1 hstep
    have hfirst := ha b hb
    refine hfirst.append ?_
    rw [hfirst.replay]
    exact ih has (hfirst.waits hb)

end Explains

/-! ### Replaying -/

theorem explains_visit {load : ClassName → BaseM Bool}
    {step : ClassName → CodeBase → List BaseChange}
    (hload : ∀ (c : ClassName) (b : CodeBase), b.Waits ok → Explains ok b (load c b).2 (step c b))
    (event : ClassName → Bool → LoadEvent) (cs : List ClassName) (hb : b.Waits ok) :
    Explains ok b (visit load event cs b) (changesVisit load step event cs b) :=
  .each (fun c _ b hb => (hload c b hb).append (.silent (.note (event c (load c b).1)) rfl)) hb

theorem explains_follow {load : ClassName → BaseM Bool}
    {step : ClassName → CodeBase → List BaseChange}
    (hload : ∀ (c : ClassName) (b : CodeBase), b.Waits ok → Explains ok b (load c b).2 (step c b))
    {e : ResolverEntry} (he : ∀ d ∈ e.definitions, ∀ x ∈ d.elements, ok x) (hb : b.Waits ok) :
    Explains ok b (follow load e b) (changesFollow load step e b) := by
  have hbefore := explains_visit hload .before e.before hb
  have helements : ∀ x ∈ e.definitions.flatMap ClassDefinition.elements, ok x := fun x hx => by
    obtain ⟨d, hd, hx⟩ := List.mem_flatMap.1 hx
    exact he d hd x hx
  have hputs := hbefore.append (.puts helements)
  have hdefinitions : ∀ b : CodeBase,
      (e.definitions.flatMap ClassDefinition.elements).foldl put b =
        e.definitions.foldl addDefinition b := fun b => by
    rw [List.foldl_flatMap]
    congr 1
    funext b d
    exact (addDefinition_eq b d).symm
  rw [hdefinitions] at hputs
  refine hputs.append ?_
  rw [hputs.replay]
  exact explains_visit hload .after e.after (hputs.waits hb)

/-- Loading, by induction on the entries for classes that are not being loaded. -/
theorem explains_loadClass {entries : Option (List ResolverEntry)}
    (hrows : ∀ rows, entries = some rows → ∀ e ∈ rows, ∀ d ∈ e.definitions, ∀ x ∈ d.elements, ok x)
    (n : Nat) : ∀ {loading : List QualifiedName},
      (ResolverEntry.idle (entries.getD []) loading).length < n → ∀ (c : ClassName) (b : CodeBase),
        b.Waits ok → Explains ok b (loadClass entries loading c b).2
          (changesLoad entries loading c b) := by
  induction n with
  | zero => exact fun hn => absurd hn (Nat.not_lt_zero _)
  | succ n ih =>
    intro loading hn c b hb
    rw [loadClass_apply, changesLoad.eq_def]
    split
    · exact .nil b
    split
    · exact .nil b
    next hl =>
    cases hp : b.pending[c.fold]? with
    | some p =>
      have hfirst : Explains ok b
          (CodeBase.log { b with pending := b.pending.erase c.fold } (.load p.announcedAs))
          [.withdraw c, .note (.load p.announcedAs)] := ⟨rfl, by simp [BaseChange.elements]⟩
      have hall := hfirst.append (.puts (hb.pending _ p hp))
      rw [← addDefinition_eq] at hall
      exact hall
    | none =>
      cases entries with
      | none => exact .nil b
      | some rows =>
        have hnote : Explains ok b (b.log (.resolve c)) [.note (.resolve c)] :=
          .silent (.note (.resolve c)) rfl
        show Explains ok b (askEntries _ rows c b).2 _
        unfold askEntries
        dsimp only
        split
        · next hf =>
          rw [hf]
          exact hnote
        · next e hf =>
          rw [hf]
          have hfewer := ResolverEntry.idle_cons_lt hf (by simpa using hl)
          exact hnote.append (explains_follow
            (fun c b => ih (Nat.lt_of_lt_of_le hfewer (Nat.le_of_lt_succ hn)) c b)
            (hrows rows rfl e (List.mem_of_find?_eq_some hf)) (hnote.waits hb))

theorem explains_hasClass (c : ClassName) (hb : b.Waits ok) :
    Explains ok b (hasClass c b).2 (changesClass c b) :=
  explains_loadClass hb.resolver _ (Nat.lt_succ_self _) c b hb

theorem explains_hydrateWithin (n : Nat) : ∀ (c : ClassName) (b : CodeBase), b.Waits ok →
    Explains ok b (hydrateWithin n c b).2 (changesFill n c b) := by
  induction n with
  | zero => exact fun _ b _ => .nil b
  | succ n ih =>
    intro c b hb
    rw [hydrateWithin_succ, changesFill]
    split
    · exact .nil b
    cases b.class? c with
    | none => exact .nil b
    | some decl =>
      have hmark : Explains ok b (b.mark c) [.mark c] := .silent (.mark c) rfl
      refine hmark.append (.each (fun s _ b hb => ?_) (hmark.waits hb))
      have hloaded := explains_hasClass s hb
      unfold handDown
      dsimp only
      rw [hloaded.replay]
      split
      · exact (hloaded.append (ih s _ (hloaded.waits hb))).append (.silent (.handDown s c) rfl)
      · exact hloaded

theorem explains_hydrate (c : ClassName) (hb : b.Waits ok) :
    Explains ok b (hydrate c b).2 (changesHydrate c b) := explains_hydrateWithin _ c b hb

theorem explains_prepare (c : ClassName) (hb : b.Waits ok) :
    Explains ok b (prepare c b).2 (changesPrepare c b) := by
  have hloaded := explains_hasClass c hb
  show Explains ok b ((if (hasClass c b).1 then _ else _ : BaseM Unit) (hasClass c b).2).2 _
  unfold changesPrepare
  dsimp only
  rw [hloaded.replay]
  cases (hasClass c b).1 with
  | false => exact hloaded
  | true =>
    show Explains ok b ((if (hasClass c b).2.hydrateLazily then _ else _ : BaseM Unit)
      (hasClass c b).2).2 _
    cases (hasClass c b).2.hydrateLazily with
    | false => exact hloaded
    | true => exact hloaded.append (explains_hydrate c (hloaded.waits hb))

theorem explains_lookUp (q : LookUp) (hb : b.Waits ok) :
    Explains ok b (b.lookUp q) (b.changesLookUp q) := by
  cases q with
  | hasClass name => exact explains_hasClass name hb
  | hydrate name => exact explains_hydrate name hb
  | hydrateAll =>
    show Explains ok b (b.classNames.forM hydrate b).2 _
    rw [forM_eq_foldl]
    exact .each (fun c _ _ hb => explains_hydrate c hb) hb
  | method owner name => exact explains_prepare owner hb
  | property owner name => exact explains_prepare owner hb
  | constant owner name => exact explains_prepare owner hb
  | methodsOf owner => exact explains_prepare owner hb
  | propertiesOf owner => exact explains_prepare owner hb
  | constantsOf owner => exact explains_prepare owner hb

theorem explains_serve {r : BaseRequest} (hok : ∀ x ∈ r.elements, ok x) (hb : b.Waits ok) :
    Explains ok b (b.serve r) (b.changesServe r) := by
  cases r with
  | register r =>
    cases r with
    | follow => exact .silent (.follow) rfl
    | file name => exact .silent (.file name) rfl
    | takeBack file => exact .silent (.takeBack file) rfl
    | definition d =>
      have hputs : Explains ok b (d.elements.foldl put b) (d.elements.map .put) := .puts hok
      rw [← addDefinition_eq] at hputs
      exact hputs
    | _ => exact .puts hok
  | announce name d => exact .one (.announce name d) hok
  | setResolver rows => exact .one (.setResolver rows) hok
  | lookUp q => exact explains_lookUp q hb
  | reset => exact .silent .reset rfl

/-- Replaying the history of requests gives the code base that they made, and all elements of the
history come from the requests. -/
theorem explains_history (hydrateLazily : Bool) {requests : List BaseRequest}
    (hok : ∀ r ∈ requests, ∀ x ∈ r.elements, ok x) :
    Explains ok (create hydrateLazily) (requests.foldl serve (create hydrateLazily))
      (history hydrateLazily requests) :=
  .each (fun r hr _ hb => explains_serve (hok r hr) hb) (waits_create hydrateLazily)

/-! ### The table of classes -/

theorem valid_classes_removeEntry (h : b.classes.Valid) (e : UndoEntry) :
    (b.removeEntry e).2.classes.Valid := by
  cases e with
  | classDecl name =>
    rw [removeEntry_classDecl]
    split
    · exact h.erase _
    · exact h
  | _ => exact h

theorem valid_classes_removeEntries (h : b.classes.Valid) (es : List UndoEntry) :
    (b.removeEntries es).2.classes.Valid :=
  removeEntries_induction (P := fun b' => b'.classes.Valid)
    (fun _ e h => valid_classes_removeEntry h e) es h

theorem valid_classes_change (h : b.classes.Valid) (ch : BaseChange) :
    (b.change ch).classes.Valid := by
  cases ch with
  | put x =>
    cases x with
    | classDecl d => exact h.insert _ _
    | _ => exact h
  | takeBack file =>
    show (b.undoFile file).2.classes.Valid
    obtain ⟨undo, -, heq | heq⟩ := b.undoFile_cases file
    · rw [heq]
      exact valid_classes_removeEntries (b := { b with undo }) h _
    · rw [heq]
      exact valid_classes_removeEntries (b := { b with undo }) h _
  | _ => exact h

theorem valid_classes_replay (h : b.classes.Valid) (cs : List BaseChange) :
    (b.replay cs).classes.Valid := by
  induction cs generalizing b with
  | nil => exact h
  | cons ch cs ih => exact ih (valid_classes_change h ch)

/-- Whatever is requested, the table of classes is a valid one. -/
theorem valid_classes_served (hydrateLazily : Bool) (requests : List BaseRequest) :
    (requests.foldl serve (create hydrateLazily)).classes.Valid := by
  have h : Explains (fun _ => True) (create hydrateLazily)
      (requests.foldl serve (create hydrateLazily)) (history hydrateLazily requests) :=
    explains_history hydrateLazily fun _ _ _ _ => trivial
  rw [← h.replay]
  exact valid_classes_replay OrderedTable.valid_empty _

end CodeBase

end UnionInference
