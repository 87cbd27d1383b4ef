import UnionInference.Proofs.CodeBase.Copies
import UnionInference.Proofs.CodeBase.Hydration

/-!
Looking members up between registrations. A class is filled when it is first asked for a member, with
what is registered by then. So an answer is the one that the registrations alone determine, as long
as a class is registered with all its members before it, or a class that leads to it, is asked for
one. Where a class is registered again later, copies stay that its new sources would not give.
-/

namespace UnionInference

open Relation

/-- The class that the element is, or that has it. -/
def Element.owner? : Element → Option ClassName
  | .classDecl c => some c.name
  | .method m => some m.name.owner
  | .property p => some p.name.owner
  | .classConstant c => some c.name.owner
  | .function _ | .globalConstant _ => none

namespace CodeBase

variable {b₀ b b' : CodeBase} {c d e s : ClassName} {x : Element}

/-! ### Classes that lead to others -/

/-- The class names the other one, up to letter case, as one that it inherits from. -/
def Refers (b : CodeBase) (c s : ClassName) : Prop :=
  ∃ decl, b.class? c = some decl ∧ ∃ s' ∈ decl.sources, s'.fold = s.fold

/-- The class is the other one, or leads to it from one class to the next. -/
def Leads (b : CodeBase) (c d : ClassName) : Prop :=
  ∃ d', ReflTransGen b.Refers c d' ∧ d'.fold = d.fold

theorem Refers.congr_left (h : b.Refers c s) (hc : c.fold = d.fold) : b.Refers d s := by
  obtain ⟨decl, hdecl, hs⟩ := h
  exact ⟨decl, b.class?_congr hc ▸ hdecl, hs⟩

theorem leads_of_fold_eq (h : c.fold = d.fold) : b.Leads c d := ⟨c, .refl, h⟩

theorem Refers.leads (h : b.Refers c s) : b.Leads c s := ⟨s, .single h, rfl⟩

theorem Leads.trans (h : b.Leads c d) (h' : b.Leads d e) : b.Leads c e := by
  obtain ⟨d', hcd, hd⟩ := h
  obtain ⟨e', hde, he⟩ := h'
  rcases hde.cases_head with rfl | ⟨s, hs, hrest⟩
  · exact ⟨d', hcd, hd.trans he⟩
  · exact ⟨e', (hcd.tail (hs.congr_left hd.symm)).trans hrest, he⟩

theorem IsSource.refers (h : b.IsSource s c) : b.Refers c s := by
  obtain ⟨s', hs', hfold⟩ := h
  obtain ⟨hmem, -⟩ := List.mem_filter.1 hs'
  cases hc : b.class? c with
  | none =>
    rw [hc] at hmem
    exact absurd hmem List.not_mem_nil
  | some decl =>
    rw [hc] at hmem
    exact ⟨decl, hc, s', hmem, hfold⟩

theorem IsAncestor.leads (h : b.IsAncestor d c) : b.Leads c d := by
  induction h with
  | single h => exact h.refers.leads
  | tail _ h ih => exact h.refers.leads.trans ih

/-! ### Registering what a class does not lead to -/

/-- The class does not lead to the class of the element. -/
def Apart (b : CodeBase) (x : Element) (c : ClassName) : Prop :=
  ∀ k, x.owner? = some k → ¬ b.Leads c k

namespace Apart

theorem of_leads (h : b.Apart x c) (hl : b.Leads c d) : b.Apart x d :=
  fun k hk hd => h k hk (hl.trans hd)

theorem class?_put (h : b.Apart x c) (hb : b.classes.Valid) : (b.put x).class? c = b.class? c := by
  cases x with
  | classDecl decl =>
    refine (class?_addClass hb decl c).trans (if_neg fun hc => ?_)
    exact h _ rfl (leads_of_fold_eq hc.symm)
  | _ => rfl

theorem leads_put_iff (h : b.Apart x c) (hb : b.classes.Valid) :
    (b.put x).Leads c d ↔ b.Leads c d := by
  have hrefers : ∀ {c s : ClassName}, b.Apart x c → ((b.put x).Refers c s ↔ b.Refers c s) := by
    intro c s h
    rw [Refers, Refers, h.class?_put hb]
  constructor
  · rintro ⟨d', hcd, hd⟩
    refine Leads.trans ?_ (leads_of_fold_eq hd)
    induction hcd using ReflTransGen.head_induction_on with
    | refl => exact leads_of_fold_eq rfl
    | head hstep _ ih =>
      have hleads := ((hrefers h).1 hstep).leads
      exact hleads.trans (ih (h.of_leads hleads))
  · rintro ⟨d', hcd, hd⟩
    refine Leads.trans ?_ (leads_of_fold_eq hd)
    induction hcd using ReflTransGen.head_induction_on with
    | refl => exact leads_of_fold_eq rfl
    | head hstep _ ih =>
      exact ((hrefers h).2 hstep).leads.trans (ih (h.of_leads hstep.leads))

theorem sourcesOf_put (h : b.Apart x c) (hb : b.classes.Valid) (hb' : (b.put x).classes.Valid) :
    (b.put x).sourcesOf c = b.sourcesOf c := by
  rw [sourcesOf, sourcesOf, h.class?_put hb]
  cases hc : b.class? c with
  | none => rfl
  | some decl =>
    refine List.filter_congr fun s hs => ?_
    have hs' := (h.of_leads (Refers.leads ⟨decl, hc, s, hs, rfl⟩)).class?_put hb
    have hsome := congrArg Option.isSome hs'
    rwa [class?, class?, Option.isSome_map, Option.isSome_map, ← hb.contains_eq_isSome,
      ← hb'.contains_eq_isSome] at hsome

end Apart

/-! ### Members of one sort -/

open ClassMember MemberSort

section

variable {μ : Type} [ClassMember μ] [MemberSort μ]

/-- Registering the element adds one member of the sort to its class, or none. -/
def Places (μ : Type) [ClassMember μ] [MemberSort μ] (x : Element) : Prop :=
  (∀ b : CodeBase, (members (b.put x) : MemberTables μ) = members b) ∨
    ∃ m : μ, x.owner? = some (name m).owner ∧
      ∀ b : CodeBase, (members (b.put x) : MemberTables μ) = (members b).add m

theorem Places.table_congr (hx : Places μ x)
    (h : (members b : MemberTables μ).table c = (members b₀).table c) :
    (members (b.put x) : MemberTables μ).table c = (members (b₀.put x)).table c := by
  rcases hx with hnone | ⟨m, -, hm⟩
  · rw [hnone, hnone, h]
  · rw [hm, hm, MemberTables.table_add, MemberTables.table_add, h]

theorem Places.table_put (hx : Places μ x) (h : b₀.Apart x c) (b : CodeBase) :
    (members (b.put x) : MemberTables μ).table c = (members b).table c := by
  rcases hx with hnone | ⟨m, howner, hm⟩
  · rw [hnone]
  · rw [hm, MemberTables.table_add, if_neg fun hc => h _ howner (leads_of_fold_eq hc.symm)]

/-- What a class has by the rule of inheritance stays. -/
theorem Places.resolveRow_put (hx : Places μ x) (h : b₀.Acyclic) (h' : (b₀.put x).Acyclic)
    (hb : b₀.classes.Valid) (hb' : (b₀.put x).classes.Valid) (hc : b₀.Apart x c) :
    (b₀.put x).resolveRow h' (members (b₀.put x) : MemberTables μ) c =
      b₀.resolveRow h (members b₀) c := by
  induction c using h.wellFounded.induction with
  | _ c ih =>
    rw [resolveRow_eq, resolveRow_eq, hc.sourcesOf_put hb hb', hx.table_put hc]
    refine List.foldl_ext _ _ _ fun row s hs => ?_
    have hsource := isSource_of_mem hs
    rw [ih s hsource (hc.of_leads hsource.refers.leads)]

theorem Places.valid_put (hx : Places μ x) (h : (members b : MemberTables μ).Valid) :
    (members (b.put x) : MemberTables μ).Valid := by
  rcases hx with hnone | ⟨m, -, hm⟩
  · rw [hnone]
    exact h
  · rw [hm]
    exact h.add m

/-- The classes whose members a question asks for. -/
def asks (b : CodeBase) : LookUp → List ClassName
  | .hasClass _ => []
  | .method c _ | .property c _ | .constant c _ => [c]
  | .methodsOf c | .propertiesOf c | .constantsOf c | .hydrate c => [c]
  | .hydrateAll => b.classNames

/-- The code base has been filled from what is registered, as far as classes were asked for, and
every class that was filled is complete. -/
structure InStep (μ : Type) [ClassMember μ] [MemberSort μ] (h : b₀.Acyclic)
    (asked : List ClassName) (b : CodeBase) : Prop where
  filling : Filling μ b₀ b
  settled : ∀ d, Settled μ h b d
  marked : ∀ d : ClassName, b.hydrated.contains d.fold = true → ∃ a ∈ asked, b₀.Leads a d

variable {h : b₀.Acyclic} {asked : List ClassName}

/-- A code base in which nothing waits to be loaded is in step with itself: classes that have the mark
keep the members that they have. -/
theorem SelfContained.inStep (hb : b.SelfContained) (h : b.Acyclic)
    (hv : (members b : MemberTables μ).Valid) : InStep μ h b.hydrated.toList b where
  filling := ⟨rfl, fun _ => id, hb.pending, hb.loadable.resolver, hv⟩
  settled d := by
    cases hm : b.hydrated.contains d.fold with
    | true => exact .inl ⟨hm, by rw [stockRow_of_marked h _ hm]; exact .refl _, List.prefix_refl _⟩
    | false => exact .inr ⟨hm, rfl⟩
  marked d hd := ⟨d.fold, Std.HashSet.mem_toList.2 (Std.HashSet.mem_iff_contains.2 hd),
    leads_of_fold_eq d.fold_fold⟩

theorem Fresh.inStep (hb : b.Fresh) (h : b.Acyclic) (hv : (members b : MemberTables μ).Valid) :
    InStep μ h [] b where
  filling := ⟨rfl, fun _ => id, hb.pending, hb.resolver, hv⟩
  settled d := .inr ⟨hb.hydrated d.fold, rfl⟩
  marked d hd := by
    rw [hb.hydrated] at hd
    cases hd

namespace InStep

theorem mono {asked' : List ClassName} (hi : InStep μ h asked b) (hsub : asked ⊆ asked') :
    InStep μ h asked' b where
  filling := hi.filling
  settled := hi.settled
  marked d hd := by
    obtain ⟨a, ha, hl⟩ := hi.marked d hd
    exact ⟨a, hsub ha, hl⟩

theorem selfContained (hi : InStep μ h asked b) (hv : b₀.classes.Valid) : b.SelfContained where
  loadable :=
    { resolver := hi.filling.resolver
      classes := hi.filling.classes ▸ hv
      honest := fun k p hp => by
        rw [hi.filling.pending, Std.HashMap.getElem?_empty] at hp
        cases hp }
  pending := hi.filling.pending

/-- Filling a class. -/
theorem hydrate (hi : InStep μ h asked b) (hv : b₀.classes.Valid) (c : ClassName) :
    InStep μ h (c :: asked) (CodeBase.hydrate c b).2 ∧
      (b₀.isRegistered c = true → Complete μ h (CodeBase.hydrate c b).2 c) := by
  have hf : Filled μ h c b (CodeBase.hydrate c b).2 :=
    filled_hydrateWithin hv _ c b hi.filling b.unmarked_lt_hydrationBound fun d _ => hi.settled d
  refine ⟨⟨hf.filling, fun d => hf.settled (hi.settled d), fun d hd => ?_⟩, hf.complete⟩
  rcases hf.rest d with hk | ⟨hanc, -⟩
  · rw [hk.1] at hd
    obtain ⟨a, ha, hl⟩ := hi.marked d hd
    exact ⟨a, List.mem_cons_of_mem c ha, hl⟩
  · refine ⟨c, List.mem_cons_self, ?_⟩
    rcases hanc with hsame | hanc
    · exact leads_of_fold_eq hsame
    · exact hanc.leads

theorem isRegistered_eq (hi : InStep μ h asked b) (c : ClassName) :
    b.isRegistered c = b₀.isRegistered c := by
  rw [isRegistered, isRegistered, hi.filling.classes]

/-- Filling classes one after the other. -/
theorem hydrateEach (hi : InStep μ h asked b) (hv : b₀.classes.Valid) (names : List ClassName) :
    InStep μ h (names ++ asked) (CodeBase.hydrateEach names b) := by
  induction names generalizing asked b with
  | nil => exact hi
  | cons c names ih =>
    exact (ih (hi.hydrate hv c).1).mono (by simp [List.subset_def, or_left_comm])

theorem prepare (hi : InStep μ h asked b) (hv : b₀.classes.Valid) (c : ClassName) :
    InStep μ h (c :: asked) (CodeBase.prepare c b).2 := by
  rw [(hi.selfContained hv).prepare_eq]
  split
  · exact (hi.hydrate hv c).1
  · exact hi.mono (List.subset_cons_self c asked)

/-- A question. -/
theorem lookUp (hi : InStep μ h asked b) (hv : b₀.classes.Valid) (q : LookUp) :
    InStep μ h (b₀.asks q ++ asked) (b.lookUp q) := by
  cases q with
  | hasClass c =>
    show InStep μ h asked (CodeBase.hasClass c b).2
    rw [(hi.selfContained hv).hasClass]
    exact hi
  | hydrate c => exact (hi.hydrate hv c).1
  | hydrateAll =>
    have hnames : b.classNames = b₀.classNames := by
      rw [classNames, classNames, hi.filling.classes]
    show InStep μ h (b₀.classNames ++ asked) (hydrateAll b).2
    rw [hydrateAll_eq, hnames]
    exact hi.hydrateEach hv b₀.classNames
  | method c n => exact hi.prepare hv c
  | property c n => exact hi.prepare hv c
  | constant c n => exact hi.prepare hv c
  | methodsOf c => exact hi.prepare hv c
  | propertiesOf c => exact hi.prepare hv c
  | constantsOf c => exact hi.prepare hv c

/-- A class that is asked for a member has the row that it comes to have. -/
theorem row_prepare (hi : InStep μ h asked b) (hv : b₀.classes.Valid)
    (hlazily : b.hydrateLazily = true) (c : ClassName) :
    RowsAlike ((members (CodeBase.prepare c b).2 : MemberTables μ).table c).toList
      (b₀.stockRow h (members b₀) c) := by
  rw [(hi.selfContained hv).prepare_eq, hi.isRegistered_eq, hlazily, Bool.and_true]
  cases hc : b₀.isRegistered c with
  | true => exact ((hi.hydrate hv c).2 hc).row
  | false => exact (hi.settled c).row_of_unknown hv hc

/-- Two code bases that are filled from the same registrations give the same answers. -/
theorem answer {asked' : List ClassName} (hi : InStep μ h asked b) (hi' : InStep μ h asked' b')
    (hv : b₀.classes.Valid) (hlazily : b.hydrateLazily = true) (hlazily' : b'.hydrateLazily = true)
    (hc : c.fold = d.fold) (n : String) :
    Option.Rel Alike ((members (CodeBase.prepare c b).2 : MemberTables μ).get? c n)
      ((members (CodeBase.prepare d b').2).get? d n) := by
  rw [(hi.prepare hv c).filling.valid.get?_eq_lookup,
    (hi'.prepare hv d).filling.valid.get?_eq_lookup]
  have hrow := (hi.row_prepare hv hlazily c).trans (stockRow_congr h _ hc)
  exact (hrow.trans (hi'.row_prepare hv hlazily' d).symm).lookup (key μ n)

/-- Registering an element that no class that was asked for leads to. -/
theorem put (hi : InStep μ h asked b) (h₀ : b₀.Fresh) (hx : Places μ x)
    (hclasses : (b.put x).classes = (b₀.put x).classes) (h' : (b₀.put x).Acyclic)
    (hapart : ∀ a ∈ asked, b₀.Apart x a) : InStep μ h' asked (b.put x) := by
  have hv := h₀.classes
  have hv' := (h₀.put x).classes
  have hmarks : ∀ d : ClassName, (b.put x).hydrated.contains d.fold = true →
      b.hydrated.contains d.fold = true := by
    intro d hd
    cases x with
    | classDecl decl =>
      change (b.hydrated.erase decl.name.fold).contains d.fold = true at hd
      rw [Std.HashSet.contains_erase, Bool.and_eq_true] at hd
      exact hd.2
    | _ => exact hd
  refine ⟨⟨hclasses, fun k hk => ?_, ?_, ?_, hx.valid_put hi.filling.valid⟩, fun d => ?_,
    fun d hd => ?_⟩
  · rw [(h₀.put x).hydrated] at hk
    cases hk
  · cases x <;> exact hi.filling.pending
  · cases x <;> exact hi.filling.resolver
  · rcases hi.settled d with hc | ⟨hm, ht⟩
    · -- a class that was filled is led to, so the element is apart from it
      obtain ⟨a, ha, hl⟩ := hi.marked d hc.marked
      have hd := (hapart a ha).of_leads hl
      refine .inl ⟨?_, ?_, ?_⟩
      · cases x with
        | classDecl decl =>
          change (b.hydrated.erase decl.name.fold).contains d.fold = true
          have hne : (decl.name.fold == d.fold) = false :=
            beq_eq_false_iff_ne.2 fun hsame => hd _ rfl (leads_of_fold_eq hsame.symm)
          rw [Std.HashSet.contains_erase, hc.marked, hne]
          rfl
        | _ => exact hc.marked
      · rw [hx.table_put hd, stockRow_eq_resolveRow h' _ (h₀.put x).hydrated,
          hx.resolveRow_put h h' hv hv' hd, ← stockRow_eq_resolveRow h _ h₀.hydrated]
        exact hc.row
      · rw [hx.table_put hd, hx.table_put hd]
        exact hc.own
    · refine .inr ⟨Bool.eq_false_iff.2 fun hd => ?_, hx.table_congr ht⟩
      rw [hmarks d hd] at hm
      cases hm
  · obtain ⟨a, ha, hl⟩ := hi.marked d (hmarks d hd)
    exact ⟨a, ha, ((hapart a ha).leads_put_iff hv).2 hl⟩

end InStep

end

theorem places_method (x : Element) : Places Method x := by
  cases x with
  | method m => exact .inr ⟨m, rfl, fun _ => rfl⟩
  | _ => exact .inl fun _ => rfl

theorem places_property (x : Element) : Places Property x := by
  cases x with
  | property p => exact .inr ⟨p, rfl, fun _ => rfl⟩
  | _ => exact .inl fun _ => rfl

theorem places_constant (x : Element) : Places ClassConstant x := by
  cases x with
  | classConstant c => exact .inr ⟨c, rfl, fun _ => rfl⟩
  | _ => exact .inl fun _ => rfl

theorem classes_put_congr (h : b.classes = b₀.classes) (x : Element) :
    (b.put x).classes = (b₀.put x).classes := by
  cases x with
  | classDecl c =>
    show b.classes.insert c.name.fold ⟨((b.classes.get? c.name.fold).map _).getD c.name, c⟩ = _
    rw [h]
    rfl
  | _ => exact h

theorem SelfContained.hydrateLazily_lookUp (h : b.SelfContained) (q : LookUp) :
    (b.lookUp q).hydrateLazily = b.hydrateLazily :=
  (lookUp_induction (P := fun b' => b'.SelfContained ∧ b'.hydrateLazily = b.hydrateLazily)
    (fun _ hb => hb.1) (fun _ _ hb => ⟨hb.1.sameClasses ⟨rfl, rfl, rfl, rfl⟩, hb.2⟩)
    (fun _ _ _ _ hb => ⟨hb.1.sameClasses ⟨rfl, rfl, rfl, rfl⟩, hb.2⟩) ⟨h, rfl⟩ q).2

end CodeBase

/-! ### Registrations and questions in turn -/

/-- Something is registered, or a question is asked. -/
inductive Turn where
  | put (x : Element)
  | ask (q : LookUp)

namespace Turn

open CodeBase ClassMember

/-- The code base after a turn. -/
def run (b : CodeBase) : Turn → CodeBase
  | .put x => b.put x
  | .ask q => b.lookUp q

/-- What is registered. -/
def elements : List Turn → List Element
  | [] => []
  | .put x :: turns => x :: elements turns
  | .ask _ :: turns => elements turns

/-- Everything is registered in time: when an element is registered, none of the classes that were
asked for a member leads to its class. `b₀` holds what is registered so far. -/
def InTime (b₀ : CodeBase) (asked : List ClassName) : List Turn → Prop
  | [] => True
  | .put x :: turns => (∀ a ∈ asked, b₀.Apart x a) ∧ InTime (b₀.put x) asked turns
  | .ask q :: turns => InTime b₀ (b₀.asks q ++ asked) turns

/-- After turns in time the code base is filled from what the registrations alone give. -/
theorem inStep_foldl_run {μ : Type} [ClassMember μ] [MemberSort μ] (hplaces : ∀ x, Places μ x)
    {turns : List Turn} {b₀ b : CodeBase} {asked : List ClassName} {h : b₀.Acyclic}
    (hb : b₀.Fresh) (hi : InStep μ h asked b) (hin : InTime b₀ asked turns)
    (hacyclic : ∀ xs, xs <+: elements turns → (xs.foldl CodeBase.put b₀).Acyclic) :
    ∃ (h' : ((elements turns).foldl CodeBase.put b₀).Acyclic) (asked' : List ClassName),
      InStep μ h' asked' (turns.foldl run b) ∧
        (turns.foldl run b).hydrateLazily = b.hydrateLazily := by
  induction turns generalizing b₀ b asked with
  | nil => exact ⟨h, asked, hi, rfl⟩
  | cons turn turns ih =>
    cases turn with
    | put x =>
      have h' : (b₀.put x).Acyclic := hacyclic [x] (by simp [elements])
      have hi' := hi.put hb (hplaces x) (classes_put_congr hi.filling.classes x) h' hin.1
      obtain ⟨h'', asked', hlast, hlazily⟩ := ih (hb.put x) hi' hin.2 fun xs hxs =>
        hacyclic (x :: xs) (List.cons_prefix_cons.2 ⟨rfl, hxs⟩)
      exact ⟨h'', asked', hlast, hlazily.trans (b.hydrateLazily_put x)⟩
    | ask q =>
      obtain ⟨h'', asked', hlast, hlazily⟩ := ih hb (hi.lookUp hb.classes q) hin hacyclic
      exact ⟨h'', asked', hlast,
        hlazily.trans ((hi.selfContained hb.classes).hydrateLazily_lookUp q)⟩

/-- A member of any sort is found as if only the registrations had been made. -/
theorem answer_foldl_run {μ : Type} [ClassMember μ] [MemberSort μ] (hplaces : ∀ x, Places μ x)
    {turns : List Turn} {b₀ : CodeBase} (hb : b₀.Fresh) (hlazily : b₀.hydrateLazily = true)
    (hv : ∀ b : CodeBase, b.Fresh → (MemberSort.members b : MemberTables μ).Valid)
    (hin : InTime b₀ [] turns)
    (hacyclic : ∀ xs, xs <+: elements turns → (xs.foldl CodeBase.put b₀).Acyclic)
    (c : ClassName) (n : String) :
    Option.Rel Alike
      ((MemberSort.members (prepare c (turns.foldl run b₀)).2 : MemberTables μ).get? c n)
      ((MemberSort.members (prepare c ((elements turns).foldl CodeBase.put b₀)).2).get? c n) := by
  have hfresh : ((elements turns).foldl CodeBase.put b₀).Fresh :=
    Fresh.foldl (fun _ x hb => hb.put x) hb _
  have hlazily' : ((elements turns).foldl CodeBase.put b₀).hydrateLazily = true := by
    generalize elements turns = xs
    induction xs using List.reverseRecOn with
    | nil => exact hlazily
    | append_singleton xs x ih =>
      rw [List.foldl_append]
      exact (hydrateLazily_put _ x).trans ih
  have hstart : InStep μ (hacyclic [] List.nil_prefix) [] b₀ := hb.inStep _ (hv b₀ hb)
  obtain ⟨h', asked, hi, hsame⟩ := inStep_foldl_run hplaces hb hstart hin hacyclic
  exact hi.answer (hfresh.inStep h' (hv _ hfresh)) hfresh.classes (hsame.trans hlazily) hlazily' rfl n

/-- Looking members up leaves no trace in later answers, as long as everything is registered in time:
each member that is asked for is found as if all earlier questions had been left out, up to the
letter case of the class in its name. -/
theorem lookUp_pure {turns : List Turn}
    (hacyclic : ∀ xs, xs <+: elements turns → (xs.foldl CodeBase.put (.create true)).Acyclic)
    (hin : InTime (.create true) [] turns) :
    let b := turns.foldl run (.create true)
    let b₀ := (elements turns).foldl CodeBase.put (.create true)
    (∀ c n, Option.Rel Alike (method? c n b).1 (method? c n b₀).1) ∧
      (∀ c n, Option.Rel Alike (property? c n b).1 (property? c n b₀).1) ∧
      ∀ c n, Option.Rel Alike (constant? c n b).1 (constant? c n b₀).1 := by
  have hb := fresh_create true
  exact ⟨answer_foldl_run places_method hb rfl (fun _ hb => hb.methods) hin hacyclic,
    answer_foldl_run places_property hb rfl (fun _ hb => hb.properties) hin hacyclic,
    answer_foldl_run places_constant hb rfl (fun _ hb => hb.constants) hin hacyclic⟩

/-- Whatever is asked in between, what is registered is kept. -/
theorem follows_foldl_run {turns : List Turn} {b₀ b : CodeBase} (h : b₀.Follows b)
    (hb : b₀.Fresh) (hown : ∀ x ∈ elements turns, x.isInherited = false) :
    ((elements turns).foldl CodeBase.put b₀).Follows (turns.foldl run b) := by
  induction turns generalizing b₀ b with
  | nil => exact h
  | cons turn turns ih =>
    cases turn with
    | put x =>
      obtain ⟨hx, hown⟩ := List.forall_mem_cons.1 hown
      exact ih (h.put hx) (hb.put x) hown
    | ask q => exact ih (h.lookUp hb.selfContained q) hb hown

/-! ### A class that is registered late -/

/-- A class without sources. -/
def shape : ClassDecl where
  name := .make "\\" "Shape"
  type := .empty

/-- Its method. -/
def area : Method where
  name := ⟨.make "\\" "Shape", "area"⟩

/-- A subclass. -/
def circle : ClassDecl where
  name := .make "\\" "Circle"
  parent := some (.make "\\" "Shape")
  type := .empty

/-- Another subclass. -/
def square : ClassDecl where
  name := .make "\\" "Square"
  parent := some (.make "\\" "Shape")
  type := .empty

/-- The second subclass is registered after the first one was asked for the method. -/
def shapeTurns : List Turn :=
  [.put (.classDecl shape), .put (.method area), .put (.classDecl circle),
    .ask (.method (.make "\\" "Circle") "area"), .put (.classDecl square)]

/-- What is registered before the question. -/
def firstShapes : List Element := [.classDecl shape, .method area, .classDecl circle]

theorem firstShapes_prefix : firstShapes <+: elements shapeTurns := ⟨[.classDecl square], rfl⟩

/-- A class that is found was registered under its name. -/
theorem mem_of_class?_foldl_put {hydrateLazily : Bool} {xs : List Element} {c : ClassName}
    {decl : ClassDecl}
    (h : (xs.foldl CodeBase.put (.create hydrateLazily)).class? c = some decl) :
    .classDecl decl ∈ xs ∧ decl.name.fold = c.fold := by
  induction xs using List.reverseRecOn with
  | nil =>
    rw [List.foldl_nil, class?_create] at h
    cases h
  | append_singleton xs x ih =>
    have hold : (xs.foldl CodeBase.put (.create hydrateLazily)).class? c = some decl →
        .classDecl decl ∈ xs ++ [x] ∧ decl.name.fold = c.fold := fun h =>
      ⟨List.mem_append_left _ (ih h).1, (ih h).2⟩
    rw [List.foldl_append] at h
    cases x with
    | classDecl d =>
      change (CodeBase.addClass _ d).class? c = some decl at h
      rw [class?_addClass (Fresh.foldl (fun _ x hb => hb.put x) (fresh_create _) xs).classes] at h
      split at h
      · next hd =>
        cases h
        exact ⟨by simp, hd⟩
      · exact hold h
    | _ => exact hold h

/-- Among these classes the first one alone is a source, and it has none itself. -/
theorem refers_shape {hydrateLazily : Bool} {xs : List Element}
    (hxs : xs <+: elements shapeTurns) {c s : ClassName}
    (h : (xs.foldl CodeBase.put (.create hydrateLazily)).Refers c s) :
    c.fold ≠ shape.name.fold ∧ s.fold = shape.name.fold := by
  obtain ⟨decl, hdecl, s', hs', hfold⟩ := h
  obtain ⟨hmem, hname⟩ := mem_of_class?_foldl_put hdecl
  have hcases : decl = shape ∨ decl = circle ∨ decl = square := by
    simpa [shapeTurns, elements] using hxs.subset hmem
  rcases hcases with rfl | rfl | rfl
  · exact absurd hs' List.not_mem_nil
  · have hs : s' = .make "\\" "Shape" := by simpa [circle, ClassDecl.sources] using hs'
    exact ⟨by rw [← hname]; decide, by rw [← hfold, hs]; decide⟩
  · have hs : s' = .make "\\" "Shape" := by simpa [square, ClassDecl.sources] using hs'
    exact ⟨by rw [← hname]; decide, by rw [← hfold, hs]; decide⟩

theorem acyclic_shape {hydrateLazily : Bool} {xs : List Element} (hxs : xs <+: elements shapeTurns) :
    (xs.foldl CodeBase.put (.create hydrateLazily)).Acyclic := by
  refine acyclic_of_measure (fun c => if c.fold = shape.name.fold then 0 else 1) fun s c hs => ?_
  obtain ⟨hc, hs⟩ := refers_shape hxs hs.refers
  rw [if_pos hs, if_neg hc]
  exact Nat.one_pos

/-- The second subclass is in time, since the first one does not lead to it, and both inherit the
method. -/
theorem lookUp_pure_shape :
    InTime (.create true) [] shapeTurns ∧
      Option.Rel Alike
        (method? (.make "\\" "Square") "area" (shapeTurns.foldl run (.create true))).1
        (method? (.make "\\" "Square") "area"
          ((elements shapeTurns).foldl CodeBase.put (.create true))).1 := by
  have hin : InTime (.create true) [] shapeTurns := by
    refine ⟨List.forall_mem_nil _, List.forall_mem_nil _, List.forall_mem_nil _, ?_, trivial⟩
    refine List.forall_mem_cons.2 ⟨?_, List.forall_mem_nil _⟩
    rintro k ⟨⟩ ⟨d, hd, hfold⟩
    rcases hd.cases_tail with rfl | ⟨e, -, hlast⟩
    · exact absurd hfold (by decide)
    · have hshape := refers_shape firstShapes_prefix hlast
      rw [hshape.2] at hfold
      exact absurd hfold (by decide)
  exact ⟨hin, (lookUp_pure (fun _ => acyclic_shape) hin).1 _ _⟩

/-! ### A class that is registered again -/

/-- The first subclass without its parent. -/
def circleAlone : ClassDecl where
  name := .make "\\" "Circle"
  type := .empty

/-- A class without sources has the members that it has already. -/
theorem method?_of_no_sources {b : CodeBase} (hb : b.SelfContained) {c : ClassName}
    {decl : ClassDecl} (hclass : b.class? c = some decl) (hsources : decl.sources = [])
    (n : String) : (method? c n b).1 = b.methods.get? c n := by
  show (prepare c b).2.methods.get? c n = _
  rw [hb.prepare_eq]
  split
  · show (hydrateWithin b.hydrationBound c b).2.methods.get? c n = _
    rw [hydrationBound, hydrateWithin_succ, hclass]
    split
    · rfl
    · dsimp only
      rw [hsources]
      rfl
  · rfl

/-- The code base before the question. -/
def shapeBase : CodeBase := firstShapes.foldl CodeBase.put (.create true)

theorem fresh_shapeBase : shapeBase.Fresh :=
  Fresh.foldl (fun _ x hb => hb.put x) (fresh_create true) firstShapes

theorem class?_shapeBase (c : ClassName) :
    shapeBase.class? c = if circle.name.fold = c.fold then some circle
      else if shape.name.fold = c.fold then some shape else none := by
  have hshape := (fresh_create true).put (.classDecl shape)
  have hfirst : ((CodeBase.create true).addClass shape).class? c =
      if shape.name.fold = c.fold then some shape else none := by
    rw [← class?_create true c]
    exact class?_addClass (fresh_create true).classes shape c
  rw [← hfirst]
  exact class?_addClass hshape.classes circle c

theorem get?_shapeBase (c : ClassName) (n : String) :
    shapeBase.methods.get? c n =
      if shape.name.fold = c.fold ∧ Text.fold "area" = Text.fold n then some area else none := by
  rw [← MemberTables.get?_empty c n]
  exact (fresh_create true).methods.get?_add area c n

/-- By the rule of inheritance the subclass has the method. -/
theorem resolveMember_circle (h : shapeBase.Acyclic) :
    ∃ m, shapeBase.resolveMember h shapeBase.methods "area" (.make "\\" "Circle") = some m := by
  have hregistered : shapeBase.isRegistered (.make "\\" "Shape") = true := by
    rw [fresh_shapeBase.isRegistered_eq, class?_shapeBase]
    decide
  have hsources : shapeBase.sourcesOf (.make "\\" "Circle") = [.make "\\" "Shape"] := by
    rw [sourcesOf, class?_shapeBase, if_pos (by decide)]
    exact List.filter_eq_self.2 fun s hs => (List.mem_singleton.1 hs) ▸ hregistered
  have hparent : shapeBase.resolveMember h shapeBase.methods "area" (.make "\\" "Shape") =
      some area := by
    rw [resolveMember_eq, get?_shapeBase, if_pos (by decide), Option.some_or]
  rw [resolveMember_eq, get?_shapeBase, if_neg (by decide), hsources, List.findSome?_cons, hparent]
  exact ⟨_, rfl⟩

/-- The method is registered with the first class, and the first subclass is asked for it. When the
subclass is registered again without its parent, the copy stays; without the question it would not
be found. -/
theorem lookUp_impure_circle :
    let turns := [.put (.classDecl shape), .put (.method area), .put (.classDecl circle),
      .ask (.method (.make "\\" "Circle") "area"), .put (.classDecl circleAlone)]
    (∃ m, (method? (.make "\\" "Circle") "area" (turns.foldl run (.create true))).1 = some m) ∧
      (method? (.make "\\" "Circle") "area"
        ((elements turns).foldl CodeBase.put (.create true))).1 = none := by
  intro turns
  have hb := fresh_shapeBase
  have hacyclic : shapeBase.Acyclic := acyclic_shape firstShapes_prefix
  have hi : InStep Method hacyclic [] shapeBase := hb.inStep hacyclic hb.methods
  -- registered again, the class has no sources
  have halone : ∀ {b : CodeBase}, b.SelfContained →
      (method? (.make "\\" "Circle") "area" (b.addClass circleAlone)).1 =
        b.methods.get? (.make "\\" "Circle") "area" := by
    intro b hself
    have hclass : (b.addClass circleAlone).class? (.make "\\" "Circle") = some circleAlone := by
      rw [class?_addClass hself.loadable.classes]
      rfl
    exact method?_of_no_sources (hself.register (.classDecl circleAlone)) hclass rfl "area"
  have hasked := hi.prepare hb.classes (.make "\\" "Circle")
  refine ⟨?_, (halone hb.selfContained).trans ?_⟩
  · obtain ⟨m, hm⟩ := resolveMember_circle hacyclic
    have hfound := (hi.row_prepare hb.classes rfl (.make "\\" "Circle")).lookup (key Method "area")
    have hrule : (shapeBase.resolveRow hacyclic (MemberSort.members shapeBase : MemberTables Method)
        (.make "\\" "Circle")).lookup (key Method "area") = some m :=
      (lookup_resolveRow hacyclic hb.methods "area" _).trans hm
    rw [← hasked.filling.valid.get?_eq_lookup, stockRow_eq_resolveRow hacyclic _ hb.hydrated,
      hrule] at hfound
    generalize hget : (MemberSort.members (prepare (.make "\\" "Circle") shapeBase).2 :
      MemberTables Method).get? (.make "\\" "Circle") "area" = found at hfound
    cases hfound with
    | some _ => exact ⟨_, (halone (hasked.selfContained hb.classes)).trans hget⟩
  · rw [get?_shapeBase]
    decide

end Turn

end UnionInference
