import UnionInference.CodeBase.Hydrate
import UnionInference.Proofs.CodeBase.Registration

/-!
Loading classes on demand, where no resolver is asked. What a class declares is read off the code
base without loading anything: its registered declaration, or else its announced one. Looking a
class up moves a declaration from the announced ones to the registered ones and so leaves what
every class declares as it was; filling a class with inherited members does nothing more.
-/

namespace UnionInference

namespace CodeBase

variable {b b' b₁ b₂ : CodeBase} {c : ClassName}

/-! ### Looking a class up -/

/-- The code base after an announced class was registered. -/
def load (b : CodeBase) (c : ClassName) (p : PendingClass) : CodeBase :=
  (CodeBase.log { b with pending := b.pending.erase c.fold } (.load p.announcedAs)).addDefinition
    p.definition

/-- Without a resolver, a class exists when it is registered or when registering its announced
definition brings it about. -/
theorem hasClass_eq (hr : b.resolver = none) (c : ClassName) :
    hasClass c b =
      if b.isRegistered c then (true, b)
      else
        match b.pending[c.fold]? with
        | none => (false, b)
        | some p => ((b.load c p).isRegistered c, b.load c p) := by
  show loadClass b.resolver [] c b = _
  rw [hr, loadClass]
  show (if b.isRegistered c then (pure true : BaseM Bool) else _) b = _
  split
  · rfl
  · cases b.pending[c.fold]? with
    | none => rfl
    | some p =>
      simp only [List.contains_nil, Bool.false_eq_true, ↓reduceDIte]
      rfl

/-! ### Filling a class, without the monad -/

theorem forM_eq_foldl {α : Type} (f : α → BaseM Unit) (as : List α) (b : CodeBase) :
    as.forM f b = ((), as.foldl (fun b a => (f a b).2) b) := by
  induction as generalizing b with
  | nil => rfl
  | cons a as ih => exact ih (f a b).2

/-- The code base with a class marked as filled. -/
def mark (b : CodeBase) (c : ClassName) : CodeBase :=
  { b with hydrated := b.hydrated.insert c.fold }

/-- Fills a source of a class and hands it down, if it exists. -/
def handDown (n : Nat) (c : ClassName) (b : CodeBase) (s : ClassName) : CodeBase :=
  if (hasClass s b).1 then ((hydrateWithin n s (hasClass s b).2).2).inherit s c
  else (hasClass s b).2

theorem hydrateWithin_succ (n : Nat) (c : ClassName) (b : CodeBase) :
    (hydrateWithin (n + 1) c b).2 =
      if b.hydrated.contains c.fold then b
      else
        match b.class? c with
        | none => b
        | some decl => decl.sources.foldl (handDown n c) (b.mark c) := by
  show ((if b.hydrated.contains c.fold then (pure () : BaseM Unit) else _) b).2 = _
  split
  · rfl
  · cases b.class? c with
    | none => rfl
    | some decl =>
      refine (congrArg Prod.snd (forM_eq_foldl _ decl.sources (b.mark c))).trans ?_
      show decl.sources.foldl _ (b.mark c) = decl.sources.foldl (handDown n c) (b.mark c)
      congr 1
      funext b s
      show ((if (hasClass s b).1 then _ else _ : BaseM Unit) (hasClass s b).2).2 = _
      unfold handDown
      split <;> rfl

/-! ### What classes declare -/

/-- What a class declares: as registered, or else as announced. -/
def declared? (b : CodeBase) (c : ClassName) : Option UnionType :=
  ((b.class? c).or ((b.pending[c.fold]?).map fun p => p.definition.decl)).map ClassDecl.type

/-- No resolver is asked, and each definition defines the class it was announced for. -/
structure Loadable (b : CodeBase) : Prop where
  resolver : b.resolver = none
  classes : b.classes.Valid
  honest : ∀ (k : QualifiedName) (p : PendingClass), b.pending[k]? = some p →
    p.definition.decl.name.fold = k

/-- The second code base declares what the first one does, in the same or a later generation. -/
structure Loads (b b' : CodeBase) : Prop where
  loadable : b'.Loadable
  declared : b'.declared? = b.declared?
  generation : b.generation ≤ b'.generation

theorem Loads.refl (h : b.Loadable) : b.Loads b := ⟨h, rfl, Nat.le_refl _⟩

theorem Loads.trans (h : b.Loads b₁) (h' : b₁.Loads b₂) : b.Loads b₂ :=
  ⟨h'.loadable, h'.declared.trans h.declared, Nat.le_trans h.generation h'.generation⟩

/-- The parts of a code base on which it depends what classes declare. -/
structure SameClasses (b b' : CodeBase) : Prop where
  classes : b'.classes = b.classes
  pending : b'.pending = b.pending
  resolver : b'.resolver = b.resolver
  generation : b'.generation = b.generation

theorem SameClasses.loads (h : b.SameClasses b') (hb : b.Loadable) : b.Loads b' where
  loadable := ⟨h.resolver.trans hb.resolver, h.classes ▸ hb.classes, h.pending ▸ hb.honest⟩
  declared := by
    funext c
    rw [declared?, declared?, class?, class?, h.classes, h.pending]
  generation := Nat.le_of_eq h.generation.symm

theorem SameClasses.trans (h : b.SameClasses b₁) (h' : b₁.SameClasses b₂) : b.SameClasses b₂ :=
  ⟨h'.classes.trans h.classes, h'.pending.trans h.pending, h'.resolver.trans h.resolver,
    h'.generation.trans h.generation⟩

theorem sameClasses_foldl {α : Type} {f : CodeBase → α → CodeBase}
    (hf : ∀ (b : CodeBase) (a : α), b.SameClasses (f b a)) (as : List α) (b : CodeBase) :
    b.SameClasses (as.foldl f b) := by
  induction as generalizing b with
  | nil => exact ⟨rfl, rfl, rfl, rfl⟩
  | cons a as ih => exact (hf b a).trans (ih (f b a))

/-- The members of a definition do not show in what classes declare. -/
theorem sameClasses_addDefinition (b : CodeBase) (d : ClassDefinition) :
    (b.addClass d.decl).SameClasses (b.addDefinition d) :=
  ((sameClasses_foldl (f := addMethod) (fun _ _ => ⟨rfl, rfl, rfl, rfl⟩) d.methods _).trans
    (sameClasses_foldl (f := addProperty) (fun _ _ => ⟨rfl, rfl, rfl, rfl⟩) d.properties _)).trans
    (sameClasses_foldl (f := addConstant) (fun _ _ => ⟨rfl, rfl, rfl, rfl⟩) d.constants _)

theorem Loadable.isRegistered_eq (h : b.Loadable) (c : ClassName) :
    b.isRegistered c = (b.class? c).isSome := by
  rw [isRegistered, h.classes.contains_eq_isSome, class?, Option.isSome_map]

/-- Registering an announced class keeps what every class declares. -/
theorem Loadable.load (h : b.Loadable) (hc : b.isRegistered c = false) {p : PendingClass}
    (hp : b.pending[c.fold]? = some p) :
    b.Loads (b.load c p) ∧ (b.load c p).class? c = some p.definition.decl := by
  let cleared := CodeBase.log { b with pending := b.pending.erase c.fold } (.load p.announcedAs)
  have hname : p.definition.decl.name.fold = c.fold := h.honest _ p hp
  have hclass : ∀ d, (cleared.addClass p.definition.decl).class? d =
      if c.fold = d.fold then some p.definition.decl else b.class? d := by
    intro d
    rw [class?_addClass (b := cleared) h.classes, hname]
    rfl
  have hsame : (cleared.addClass p.definition.decl).SameClasses (b.load c p) :=
    sameClasses_addDefinition cleared p.definition
  have hadded : b.Loads (cleared.addClass p.definition.decl) := by
    refine ⟨⟨h.resolver, h.classes.insert _ _, fun k q hq => ?_⟩, ?_, Nat.le_succ _⟩
    · change (b.pending.erase c.fold)[k]? = some q at hq
      rw [Std.HashMap.getElem?_erase] at hq
      split at hq
      · cases hq
      · exact h.honest k q hq
    · funext d
      rw [declared?, declared?, hclass]
      change Option.map _ (Option.or _ (Option.map _ (b.pending.erase c.fold)[d.fold]?)) = _
      rw [Std.HashMap.getElem?_erase]
      by_cases hd : c.fold = d.fold
      · -- the class itself is registered now and was announced before
        have hnone : b.class? d = none := by
          rw [h.isRegistered_eq, class?, hd] at hc
          rw [class?]
          simpa using hc
        rw [if_pos hd, hnone, ← hd, hp]
        rfl
      · rw [if_neg hd, if_neg (by simpa using hd)]
  refine ⟨hadded.trans (hsame.loads hadded.loadable), ?_⟩
  have := hclass c
  rw [if_pos rfl] at this
  rw [class?, hsame.classes]
  exact this

/-- Looking a class up tells whether it declares anything, and keeps what every class declares. -/
theorem Loadable.hasClass (h : b.Loadable) (c : ClassName) :
    b.Loads (hasClass c b).2 ∧
      (if (hasClass c b).1 then ((hasClass c b).2.class? c).map ClassDecl.type else none) =
        b.declared? c := by
  rw [hasClass_eq h.resolver]
  cases hc : b.isRegistered c with
  | true =>
    rw [h.isRegistered_eq] at hc
    obtain ⟨d, hd⟩ := Option.isSome_iff_exists.1 hc
    refine ⟨Loads.refl h, ?_⟩
    simp [declared?, hd]
  | false =>
    have hnone : b.class? c = none := by
      rw [h.isRegistered_eq] at hc
      simpa using hc
    cases hp : b.pending[c.fold]? with
    | none =>
      refine ⟨Loads.refl h, ?_⟩
      simp [declared?, hnone, hp]
    | some p =>
      obtain ⟨hloads, hclass⟩ := h.load hc hp
      refine ⟨hloads, ?_⟩
      simp [declared?, hnone, hp, hloads.loadable.isRegistered_eq, hclass]

theorem declaredType_apply (c : ClassName) (b : CodeBase) :
    declaredType c b =
      (if (hasClass c b).1 then ((hasClass c b).2.class? c).map ClassDecl.type else none,
        (hasClass c b).2) := by
  show ((if (hasClass c b).1 then _ else _ : BaseM (Option UnionType)) (hasClass c b).2) = _
  split <;> rfl

theorem Loadable.declaredType (h : b.Loadable) (c : ClassName) :
    (declaredType c b).1 = b.declared? c ∧ b.Loads (declaredType c b).2 := by
  obtain ⟨hloads, heq⟩ := h.hasClass c
  rw [declaredType_apply]
  exact ⟨heq, hloads⟩

/-! ### Code bases that load nothing -/

/-- Nothing is announced and no resolver is asked. -/
structure SelfContained (b : CodeBase) : Prop where
  loadable : b.Loadable
  pending : b.pending = {}

namespace SelfContained

theorem hasClass (h : b.SelfContained) (c : ClassName) :
    hasClass c b = (b.isRegistered c, b) := by
  rw [hasClass_eq h.loadable.resolver, h.pending, Std.HashMap.getElem?_empty]
  cases b.isRegistered c <;> rfl

theorem declared?_eq (h : b.SelfContained) (c : ClassName) :
    b.declared? c = (b.class? c).map ClassDecl.type := by
  rw [declared?, h.pending, Std.HashMap.getElem?_empty, Option.map_none, Option.or_none]

/-- Asking for what a class declares changes nothing. -/
theorem declaredType (h : b.SelfContained) (c : ClassName) :
    declaredType c b = ((b.class? c).map ClassDecl.type, b) := by
  rw [declaredType_apply, (h.loadable.hasClass c).2, h.hasClass, h.declared?_eq]

theorem sameClasses (h : b.SelfContained) (hsame : b.SameClasses b') : b'.SelfContained :=
  ⟨(hsame.loads h.loadable).loadable, hsame.pending.trans h.pending⟩

end SelfContained

theorem Fresh.loadable (h : b.Fresh) : b.Loadable where
  resolver := h.resolver
  classes := h.classes
  honest k p hp := by
    rw [h.pending, Std.HashMap.getElem?_empty] at hp
    cases hp

theorem Fresh.selfContained (h : b.Fresh) : b.SelfContained := ⟨h.loadable, h.pending⟩

theorem Fresh.declaredType (h : b.Fresh) (c : ClassName) :
    declaredType c b = ((b.class? c).map ClassDecl.type, b) := h.selfContained.declaredType c

/-! ### Filling keeps what classes declare -/

/-- The class is registered, and the other one names it as a source of members. -/
def Feeds (b : CodeBase) (s c : ClassName) : Prop :=
  b.isRegistered s = true ∧ ∃ decl, b.class? c = some decl ∧ s ∈ decl.sources

theorem SameClasses.feeds_iff (h : b.SameClasses b') {s c : ClassName} :
    b'.Feeds s c ↔ b.Feeds s c := by
  rw [Feeds, Feeds, isRegistered, isRegistered, class?, class?, h.classes]

/-- Filling asks whether classes are there, marks them and hands members down. What all of this keeps
is kept by filling. Members are handed down only to a class from the sources that it names, once they
were asked for. -/
theorem hydrateWithin_induction {P : CodeBase → Prop} {R : ClassName → ClassName → Prop}
    (hclass : ∀ b s, P b → P (CodeBase.hasClass s b).2) (hmark : ∀ b c, P b → P (b.mark c))
    (hsource : ∀ b c decl, P b → b.class? c = some decl → ∀ s ∈ decl.sources, ∀ b', P b' →
      (CodeBase.hasClass s b').1 = true → R s c)
    (hinherit : ∀ b s c, R s c → P b → P (b.inherit s c)) (n : Nat) :
    ∀ (c : ClassName) {b : CodeBase}, P b → P (hydrateWithin n c b).2 := by
  induction n with
  | zero => exact fun _ _ h => h
  | succ n ih =>
    intro c b h
    rw [hydrateWithin_succ]
    split
    · exact h
    · cases hdecl : b.class? c with
      | none => exact h
      | some decl =>
        have hstep : ∀ s ∈ decl.sources, ∀ b', P b' → P (handDown n c b' s) := by
          intro s hs b' hb'
          unfold handDown
          split
          · next hfound =>
            exact hinherit _ s c (hsource b c decl h hdecl s hs b' hb' hfound)
              (ih s (hclass b' s hb'))
          · exact hclass b' s hb'
        have hrun : ∀ ss ⊆ decl.sources, ∀ b', P b' → P (ss.foldl (handDown n c) b') := by
          intro ss
          induction ss with
          | nil => exact fun _ _ hb' => hb'
          | cons s ss ih' =>
            intro hss b' hb'
            obtain ⟨hs, hss⟩ := List.cons_subset.1 hss
            exact ih' hss _ (hstep s hs b' hb')
        exact hrun _ (List.Subset.refl _) _ (hmark b c h)

/-- Filling classes keeps what every class declares. -/
theorem Loadable.hydrateWithin (n : Nat) (c : ClassName) {b : CodeBase} (h : b.Loadable) :
    b.Loads (hydrateWithin n c b).2 :=
  hydrateWithin_induction (P := fun b' => b.Loads b') (R := fun _ _ => True)
    (fun _ s hloads => hloads.trans (hloads.loadable.hasClass s).1)
    (fun _ _ hloads => hloads.trans (SameClasses.loads ⟨rfl, rfl, rfl, rfl⟩ hloads.loadable))
    (fun _ _ _ _ _ _ _ _ _ _ => trivial)
    (fun _ _ _ _ hloads => hloads.trans (SameClasses.loads ⟨rfl, rfl, rfl, rfl⟩ hloads.loadable))
    n c (Loads.refl h)

/-- Where nothing is loaded, asking for a class changes nothing. What marking classes and handing
members down to the classes that name the source keep is kept by filling. -/
theorem SelfContained.hydrateWithin_induction {P : CodeBase → Prop}
    (hclosed : ∀ b, P b → b.SelfContained) (hmark : ∀ b c, P b → P (b.mark c))
    (hinherit : ∀ b s c, b.Feeds s c → P b → P (b.inherit s c)) (n : Nat) (c : ClassName)
    {b : CodeBase} (h : P b) : P (hydrateWithin n c b).2 := by
  -- the classes stay as they are, so what a class names when it is filled it names all the time
  refine (CodeBase.hydrateWithin_induction (P := fun b' => P b' ∧ b.SameClasses b')
    (R := fun s c => b.Feeds s c) ?_ ?_ ?_ ?_ n c ⟨h, rfl, rfl, rfl, rfl⟩).1
  · rintro b' s ⟨hb', hsame⟩
    rw [(hclosed b' hb').hasClass]
    exact ⟨hb', hsame⟩
  · exact fun b' c hb' => ⟨hmark b' c hb'.1, hb'.2.trans ⟨rfl, rfl, rfl, rfl⟩⟩
  · rintro b₁ c decl ⟨-, hsame₁⟩ hdecl s hs b₂ ⟨hb₂, hsame₂⟩ hfound
    rw [(hclosed b₂ hb₂).hasClass, isRegistered, hsame₂.classes] at hfound
    rw [class?, hsame₁.classes] at hdecl
    exact ⟨hfound, decl, hdecl, hs⟩
  · rintro b' s c hfeeds ⟨hb', hsame⟩
    exact ⟨hinherit b' s c (hsame.feeds_iff.2 hfeeds) hb', hsame.trans ⟨rfl, rfl, rfl, rfl⟩⟩

/-- Filling changes neither the classes nor the generation. -/
theorem SelfContained.sameClasses_hydrateWithin (h : b.SelfContained) (n : Nat) (c : ClassName) :
    b.SameClasses (hydrateWithin n c b).2 :=
  hydrateWithin_induction (P := fun b' => b.SameClasses b') (fun _ hsame => h.sameClasses hsame)
    (fun _ _ hsame => hsame.trans ⟨rfl, rfl, rfl, rfl⟩)
    (fun _ _ _ _ hsame => hsame.trans ⟨rfl, rfl, rfl, rfl⟩) n c ⟨rfl, rfl, rfl, rfl⟩

theorem SelfContained.prepare_eq (h : b.SelfContained) (c : ClassName) :
    (prepare c b).2 = if b.isRegistered c && b.hydrateLazily then (hydrate c b).2 else b := by
  show ((if (CodeBase.hasClass c b).1 then _ else _ : BaseM Unit) (CodeBase.hasClass c b).2).2 = _
  rw [h.hasClass]
  cases b.isRegistered c with
  | false => rfl
  | true =>
    show ((if b.hydrateLazily then _ else _ : BaseM Unit) b).2 = _
    cases b.hydrateLazily <;> rfl

theorem Loadable.prepare (h : b.Loadable) (c : ClassName) : b.Loads (prepare c b).2 := by
  obtain ⟨hloads, -⟩ := h.hasClass c
  show b.Loads ((if (CodeBase.hasClass c b).1 then _ else _ : BaseM Unit)
    (CodeBase.hasClass c b).2).2
  split
  · show b.Loads ((if (CodeBase.hasClass c b).2.hydrateLazily then _ else _ : BaseM Unit)
      (CodeBase.hasClass c b).2).2
    split
    · exact hloads.trans (Loadable.hydrateWithin _ c hloads.loadable)
    · exact hloads
  · exact hloads

end CodeBase

end UnionInference
