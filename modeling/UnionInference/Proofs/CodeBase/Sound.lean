import UnionInference.Proofs.CodeBase.Supplements
import UnionInference.Proofs.Types.Placeholders

/-!
Sound code bases. All types that the elements of a sound code base mention are held by the table,
and the names of its classes are regular; this covers the definitions that wait to be asked for.
Asking for classes and members keeps a code base sound, whatever is loaded on the way, and what is
found is sound.
-/

namespace UnionInference

open ClassMember

namespace MemberTables

variable {μ : Type} [ClassMember μ] {ms : MemberTables μ} {ok ok' : μ → Prop}

/-- Every member of every class has the property. -/
def All (ok : μ → Prop) (ms : MemberTables μ) : Prop :=
  ∀ (c : ClassName), ∀ e ∈ (ms.table c).toList, ok e.2

omit [ClassMember μ] in
theorem all_empty : ({} : MemberTables μ).All ok := by
  intro c e he
  simp [table, table?, OrderedTable.toList, OrderedTable.empty] at he

omit [ClassMember μ] in
theorem All.imp (h : ms.All ok) (himp : ∀ m, ok m → ok' m) : ms.All ok' :=
  fun c e he => himp e.2 (h c e he)

theorem All.get? (h : ms.All ok) (hv : ms.Valid) {c : ClassName} {n : String} {m : μ}
    (hm : ms.get? c n = some m) : ok m :=
  h c _ ((hv c).get?_eq_some_iff.1 hm)

theorem All.add (h : ms.All ok) (hv : ms.Valid) {m : μ} (hm : ok m) : (ms.add m).All ok := by
  intro c e he
  by_cases hc : (name m).owner.fold = c.fold
  · rw [← table_congr _ hc, MemberTables.add, table_setTable_self,
      (hv (name m).owner).mem_insert_iff] at he
    rcases he with rfl | ⟨-, he⟩
    · exact hm
    · exact h _ e he
  · rw [MemberTables.add, table_setTable_of_ne _ hc] at he
    exact h c e he

theorem All.inherit (h : ms.All ok) (hv : ms.Valid) (source : ClassName) {target : ClassName}
    (hmove : ∀ m, ok m → ok (moveTo m target)) : (ms.inherit source target).All ok := by
  intro c e he
  by_cases hc : target.fold = c.fold
  · obtain ⟨added, hadded, hnew⟩ :=
      adopt_eq_append target (ms.table source).toList (ms.table target).toList
    rw [← table_congr _ hc, hv.toList_table_inherit, hadded] at he
    rcases List.mem_append.1 he with he | he
    · exact h target e he
    · obtain ⟨m, hm, hmoved⟩ := hnew e he
      rw [hmoved]
      exact hmove m (h source (e.1, m) hm)
  · rw [table_inherit_of_ne hc] at he
    exact h c e he

end MemberTables

/-! ### Sound elements -/

variable {r : Regime} {t t₁ : TypeTable}

/-- The table holds the types of the parameters and of the result. -/
structure Signature.Sound (r : Regime) (t : TypeTable) (s : Signature) : Prop where
  params : ∀ q ∈ s.params, q.type.Inside t
  result : s.result.Inside t
  dependent : s.dependent ≠ none → r.dependent

structure Method.Sound (r : Regime) (t : TypeTable) (m : Method) : Prop where
  owner : m.name.owner.Regular
  declaring : m.definedAs.owner.Regular
  signature : m.signature.Sound r t

structure Property.Sound (t : TypeTable) (p : Property) : Prop where
  owner : p.name.owner.Regular
  declaring : p.definedAs.owner.Regular
  type : p.type.Inside t

/-- The parent has a regular name, and the declared types are without null and no arrays unless
hierarchies need not be expanded. -/
structure ClassDecl.Sound (r : Regime) (t : TypeTable) (d : ClassDecl) : Prop where
  parent : ∀ q, d.parent = some q → q.Regular
  type : d.type.Inside t
  bare : r.deep ∨ ∀ i ∈ d.type.members, t.IsBare i

structure ClassDefinition.Sound (r : Regime) (t : TypeTable) (d : ClassDefinition) : Prop where
  name : d.decl.name.Regular
  decl : d.decl.Sound r t
  methods : ∀ m ∈ d.methods, m.Sound r t
  properties : ∀ p ∈ d.properties, p.Sound t
  constants : ∀ k ∈ d.constants, k.type.Inside t

theorem Signature.Sound.keeps {s : Signature} (h : s.Sound r t) (hk : t.Keeps t₁) :
    s.Sound r t₁ :=
  ⟨fun q hq => (h.params q hq).keeps hk, h.result.keeps hk, h.dependent⟩

theorem Method.Sound.keeps {m : Method} (h : m.Sound r t) (hk : t.Keeps t₁) : m.Sound r t₁ :=
  ⟨h.owner, h.declaring, h.signature.keeps hk⟩

theorem Property.Sound.keeps {p : Property} (h : p.Sound t) (hk : t.Keeps t₁) : p.Sound t₁ :=
  ⟨h.owner, h.declaring, h.type.keeps hk⟩

theorem ClassDecl.Sound.keeps {d : ClassDecl} (h : d.Sound r t) (hk : t.Keeps t₁) :
    d.Sound r t₁ :=
  ⟨h.parent, h.type.keeps hk, h.bare.imp_right fun hall i hi => hk.isBare (hall i hi)⟩

theorem ClassDefinition.Sound.keeps {d : ClassDefinition} (h : d.Sound r t) (hk : t.Keeps t₁) :
    d.Sound r t₁ :=
  ⟨h.name, h.decl.keeps hk, fun m hm => (h.methods m hm).keeps hk,
    fun p hp => (h.properties p hp).keeps hk, fun k hk' => (h.constants k hk').keeps hk⟩

/-- The parameter that receives an argument is one of the parameters. -/
theorem Signature.mem_of_paramFor? {s : Signature} {i : Nat} {q : Parameter}
    (h : s.paramFor? i = some q) : q ∈ s.params := by
  rw [paramFor?] at h
  split at h
  · next hq =>
    cases h
    exact List.mem_of_getElem? hq
  · obtain ⟨hlast, -⟩ := Option.filter_eq_some_iff.1 h
    exact List.mem_of_getLast? hlast

namespace CodeBase

variable {b b₁ b₂ : CodeBase} {c : ClassName}

/-! ### Code bases that load classes -/

/-- What every class declares stays the same, and registered classes stay registered. -/
structure Advances (b b₁ : CodeBase) : Prop where
  loads : b.Loads b₁
  classes : ∀ (c : ClassName) (d : ClassDecl), b.class? c = some d → b₁.class? c = some d

theorem Advances.refl (h : b.Loadable) : b.Advances b := ⟨.refl h, fun _ _ h => h⟩

theorem Advances.trans (h : b.Advances b₁) (h₁ : b₁.Advances b₂) : b.Advances b₂ :=
  ⟨h.loads.trans h₁.loads, fun c d hc => h₁.classes c d (h.classes c d hc)⟩

theorem Advances.of_sameClasses (h : b.SameClasses b₁) (hb : b.Loadable) : b.Advances b₁ :=
  ⟨h.loads hb, fun c d hc => by rwa [class?, h.classes]⟩

theorem Advances.load (h : b.Loadable) (hc : b.isRegistered c = false) {p : PendingClass}
    (hp : b.pending[c.fold]? = some p) : b.Advances (b.load c p) := by
  refine ⟨(h.load hc hp).1, fun d decl hd => ?_⟩
  let cleared := CodeBase.log { b with pending := b.pending.erase c.fold } (.load p.announcedAs)
  have hsame : (cleared.addClass p.definition.decl).SameClasses (b.load c p) :=
    sameClasses_addDefinition cleared p.definition
  rw [class?, hsame.classes]
  refine (class?_addClass (b := cleared) h.classes p.definition.decl d).trans ?_
  rw [if_neg]
  · exact hd
  · -- the class that is loaded was not registered
    rw [h.honest _ p hp]
    intro heq
    rw [h.isRegistered_eq, class?, heq] at hc
    rw [class?] at hd
    rw [hd] at hc
    cases hc

/-! ### Sound code bases -/

/-- The table holds all types that elements mention, and class names are regular. -/
structure Sound (r : Regime) (t : TypeTable) (b : CodeBase) : Prop where
  loadable : b.Loadable
  validMethods : b.methods.Valid
  validProperties : b.properties.Valid
  validConstants : b.constants.Valid
  names : ∀ (c : ClassName) (d : ClassDecl), b.class? c = some d → c.Regular
  classes : ∀ (c : ClassName) (d : ClassDecl), b.class? c = some d → d.Sound r t
  pending : ∀ (k : QualifiedName) (p : PendingClass), b.pending[k]? = some p →
    p.definition.Sound r t
  methods : b.methods.All (Method.Sound r t)
  properties : b.properties.All (Property.Sound t)
  constants : b.constants.All fun k => k.type.Inside t
  functions : ∀ (k : QualifiedName) (f : FunctionDecl), b.functions[k]? = some f →
    f.signature.Sound r t
  globals : ∀ (k : QualifiedName) (g : GlobalConstant), b.globals[k]? = some g → g.type.Inside t

theorem sound_create (r : Regime) (t : TypeTable) (hydrateLazily : Bool) :
    (create hydrateLazily).Sound r t where
  loadable := ⟨rfl, OrderedTable.valid_empty, fun _ _ hp => by simp [create] at hp⟩
  validMethods := MemberTables.valid_empty
  validProperties := MemberTables.valid_empty
  validConstants := MemberTables.valid_empty
  names c d hd := by simp [class?_create] at hd
  classes c d hd := by simp [class?_create] at hd
  pending _ _ hp := by simp [create] at hp
  methods := MemberTables.all_empty
  properties := MemberTables.all_empty
  constants := MemberTables.all_empty
  functions _ _ hf := by simp [create] at hf
  globals _ _ hg := by simp [create] at hg

theorem Sound.keeps (h : b.Sound r t) (hk : t.Keeps t₁) : b.Sound r t₁ :=
  { h with
    classes := fun c d hd => (h.classes c d hd).keeps hk
    pending := fun k p hp => (h.pending k p hp).keeps hk
    methods := h.methods.imp fun _ hm => hm.keeps hk
    properties := h.properties.imp fun _ hp => hp.keeps hk
    constants := h.constants.imp fun _ hc => hc.keeps hk
    functions := fun k f hf => (h.functions k f hf).keeps hk
    globals := fun k g hg => (h.globals k g hg).keeps hk }

theorem Sound.addMethod (h : b.Sound r t) {m : Method} (hm : m.Sound r t) :
    (b.addMethod m).Sound r t :=
  { h with
    loadable := ((SameClasses.mk rfl rfl rfl rfl : b.SameClasses (b.addMethod m)).loads
      h.loadable).loadable
    validMethods := h.validMethods.add m
    methods := h.methods.add h.validMethods hm }

theorem Sound.addProperty (h : b.Sound r t) {p : Property} (hp : p.Sound t) :
    (b.addProperty p).Sound r t :=
  { h with
    loadable := ((SameClasses.mk rfl rfl rfl rfl : b.SameClasses (b.addProperty p)).loads
      h.loadable).loadable
    validProperties := h.validProperties.add p
    properties := h.properties.add h.validProperties hp }

theorem Sound.addConstant (h : b.Sound r t) {k : ClassConstant} (hk : k.type.Inside t) :
    (b.addConstant k).Sound r t :=
  { h with
    loadable := ((SameClasses.mk rfl rfl rfl rfl : b.SameClasses (b.addConstant k)).loads
      h.loadable).loadable
    validConstants := h.validConstants.add k
    constants := h.constants.add h.validConstants hk }

theorem Sound.foldl {α : Type} {f : CodeBase → α → CodeBase} {as : List α}
    (hf : ∀ b, ∀ a ∈ as, b.Sound r t → (f b a).Sound r t) (h : b.Sound r t) :
    (as.foldl f b).Sound r t := by
  induction as generalizing b with
  | nil => exact h
  | cons a as ih =>
    exact ih (fun b a ha => hf b a (List.mem_cons_of_mem _ ha)) (hf b a List.mem_cons_self h)

theorem Sound.addClass (h : b.Sound r t) {d : ClassDecl} (hname : d.name.Regular)
    (hd : d.Sound r t) : (b.addClass d).Sound r t := by
  have hclass : ∀ c e, (b.addClass d).class? c = some e →
      (d.name.fold = c.fold ∧ e = d) ∨ b.class? c = some e := by
    intro c e he
    rw [class?_addClass h.loadable.classes] at he
    split at he
    · next hc =>
      cases he
      exact .inl ⟨hc, rfl⟩
    · exact .inr he
  exact { h with
    loadable := ⟨h.loadable.resolver, h.loadable.classes.insert _ _, h.loadable.honest⟩
    names := fun c e he => by
      rcases hclass c e he with ⟨hc, -⟩ | he
      · exact .of_fold_eq hc.symm hname
      · exact h.names c e he
    classes := fun c e he => by
      rcases hclass c e he with ⟨-, rfl⟩ | he
      · exact hd
      · exact h.classes c e he }

theorem Sound.addDefinition (h : b.Sound r t) {d : ClassDefinition} (hd : d.Sound r t) :
    (b.addDefinition d).Sound r t :=
  .foldl (fun _ k hk hb => hb.addConstant (hd.constants k hk))
    (.foldl (fun _ p hp hb => hb.addProperty (hd.properties p hp))
      (.foldl (fun _ m hm hb => hb.addMethod (hd.methods m hm)) (h.addClass hd.name hd.decl)))

theorem Sound.load (h : b.Sound r t) {p : PendingClass} (hp : b.pending[c.fold]? = some p) :
    (b.load c p).Sound r t := by
  have hpending : ∀ (k : QualifiedName) (q : PendingClass),
      (b.pending.erase c.fold)[k]? = some q → b.pending[k]? = some q := by
    intro k q hq
    rw [Std.HashMap.getElem?_erase] at hq
    split at hq
    · cases hq
    · exact hq
  have hcleared : (CodeBase.log { b with pending := b.pending.erase c.fold }
      (.load p.announcedAs)).Sound r t :=
    { h with
      loadable := ⟨h.loadable.resolver, h.loadable.classes, fun k q hq =>
        h.loadable.honest k q (hpending k q hq)⟩
      pending := fun k q hq => h.pending k q (hpending k q hq) }
  exact hcleared.addDefinition (h.pending _ p hp)

/-- Asking whether a class exists keeps a code base sound, and the class is registered if it
exists. -/
theorem Sound.hasClass (h : b.Sound r t) (c : ClassName) :
    (hasClass c b).2.Sound r t ∧ b.Advances (hasClass c b).2 ∧
      ((hasClass c b).1 = true → ∃ d, (hasClass c b).2.class? c = some d) := by
  rw [hasClass_eq h.loadable.resolver]
  cases hc : b.isRegistered c with
  | true =>
    rw [if_pos rfl]
    refine ⟨h, .refl h.loadable, fun _ => Option.isSome_iff_exists.1 ?_⟩
    rw [← h.loadable.isRegistered_eq, hc]
  | false =>
    cases hp : b.pending[c.fold]? with
    | none => exact ⟨h, .refl h.loadable, nofun⟩
    | some p =>
      exact ⟨h.load hp, .load h.loadable hc hp, fun _ => ⟨_, (h.loadable.load hc hp).2⟩⟩

theorem Sound.mark (h : b.Sound r t) (c : ClassName) : (b.mark c).Sound r t :=
  { h with loadable := ((SameClasses.mk rfl rfl rfl rfl : b.SameClasses (b.mark c)).loads
      h.loadable).loadable }

theorem Sound.inherit (h : b.Sound r t) (source : ClassName) {target : ClassName}
    (htarget : target.Regular) : (b.inherit source target).Sound r t :=
  { h with
    loadable := ((SameClasses.mk rfl rfl rfl rfl : b.SameClasses (b.inherit source target)).loads
      h.loadable).loadable
    validMethods := h.validMethods.inherit source target
    validProperties := h.validProperties.inherit source target
    validConstants := h.validConstants.inherit source target
    methods := h.methods.inherit h.validMethods source fun _ hm =>
      ⟨htarget, hm.declaring, hm.signature⟩
    properties := h.properties.inherit h.validProperties source fun _ hp =>
      ⟨htarget, hp.declaring, hp.type⟩
    constants := h.constants.inherit h.validConstants source fun _ hk => hk }

/-- Filling a class keeps a code base sound: members are handed down to registered classes alone. -/
theorem Sound.hydrateWithin (n : Nat) :
    ∀ (c : ClassName) {b : CodeBase}, b.Sound r t →
      (hydrateWithin n c b).2.Sound r t ∧ b.Advances (hydrateWithin n c b).2 := by
  induction n with
  | zero => exact fun _ _ h => ⟨h, .refl h.loadable⟩
  | succ n ih =>
    intro c b h
    have hstep : ∀ (s : ClassName) {b : CodeBase}, b.Sound r t → c.Regular →
        (handDown n c b s).Sound r t ∧ b.Advances (handDown n c b s) := by
      intro s b hb hc
      obtain ⟨hsound, hadvances, -⟩ := hb.hasClass s
      unfold handDown
      split
      · obtain ⟨hfilled, hfill⟩ := ih s hsound
        exact ⟨hfilled.inherit s hc, (hadvances.trans hfill).trans
          (.of_sameClasses ⟨rfl, rfl, rfl, rfl⟩ hfilled.loadable)⟩
      · exact ⟨hsound, hadvances⟩
    have hrun : ∀ (ss : List ClassName) {b : CodeBase}, b.Sound r t → c.Regular →
        (ss.foldl (handDown n c) b).Sound r t ∧ b.Advances (ss.foldl (handDown n c) b) := by
      intro ss
      induction ss with
      | nil => exact fun hb _ => ⟨hb, .refl hb.loadable⟩
      | cons s ss ih' =>
        intro b hb hc
        obtain ⟨hs, hadvances⟩ := hstep s hb hc
        obtain ⟨hss, hadvances'⟩ := ih' hs hc
        exact ⟨hss, hadvances.trans hadvances'⟩
    rw [hydrateWithin_succ]
    split
    · exact ⟨h, .refl h.loadable⟩
    · split
      · exact ⟨h, .refl h.loadable⟩
      · next decl hdecl =>
        obtain ⟨hsound, hadvances⟩ := hrun decl.sources (h.mark c) (h.names c decl hdecl)
        have hmark : b.Advances (b.mark c) := .of_sameClasses ⟨rfl, rfl, rfl, rfl⟩ h.loadable
        exact ⟨hsound, hmark.trans hadvances⟩

theorem Sound.hydrate (h : b.Sound r t) (c : ClassName) :
    (hydrate c b).2.Sound r t ∧ b.Advances (hydrate c b).2 := h.hydrateWithin _ c

theorem Sound.prepare (h : b.Sound r t) (c : ClassName) :
    (prepare c b).2.Sound r t ∧ b.Advances (prepare c b).2 := by
  obtain ⟨hsound, hadvances, -⟩ := h.hasClass c
  show ((if (CodeBase.hasClass c b).1 then _ else _ : BaseM Unit) (CodeBase.hasClass c b).2).2.Sound
    r t ∧ b.Advances ((if (CodeBase.hasClass c b).1 then _ else _ : BaseM Unit)
      (CodeBase.hasClass c b).2).2
  split
  · show ((if (CodeBase.hasClass c b).2.hydrateLazily then _ else _ : BaseM Unit)
      (CodeBase.hasClass c b).2).2.Sound r t ∧ b.Advances
        ((if (CodeBase.hasClass c b).2.hydrateLazily then _ else _ : BaseM Unit)
          (CodeBase.hasClass c b).2).2
    split
    · obtain ⟨hfilled, hfill⟩ := hsound.hydrate c
      exact ⟨hfilled, hadvances.trans hfill⟩
    · exact ⟨hsound, hadvances⟩
  · exact ⟨hsound, hadvances⟩

/-- A registered class is found. -/
theorem Sound.getClass (h : b.Sound r t) {d : ClassDecl} (hd : b.class? c = some d) :
    ∃ b₁, getClass c b = .ok (d, b₁) ∧ b₁.Sound r t ∧ b.Advances b₁ ∧ d.Sound r t := by
  rw [getClass_apply]
  dsimp only
  have hfilled : (if b.hydrateLazily then (CodeBase.hydrate c b).2 else b).Sound r t ∧
      b.Advances (if b.hydrateLazily then (CodeBase.hydrate c b).2 else b) := by
    split
    · exact h.hydrate c
    · exact ⟨h, .refl h.loadable⟩
  rw [hfilled.2.classes c d hd]
  exact ⟨_, rfl, hfilled.1, hfilled.2, h.classes c d hd⟩

theorem Sound.method? (h : b.Sound r t) (c : ClassName) (n : String) :
    (method? c n b).2.Sound r t ∧ b.Advances (method? c n b).2 ∧
      ∀ m, (method? c n b).1 = some m → m.Sound r t := by
  obtain ⟨hsound, hadvances⟩ := h.prepare c
  exact ⟨hsound, hadvances, fun m hm => hsound.methods.get? hsound.validMethods hm⟩

theorem Sound.property? (h : b.Sound r t) (c : ClassName) (n : String) :
    (property? c n b).2.Sound r t ∧ b.Advances (property? c n b).2 ∧
      ∀ p, (property? c n b).1 = some p → p.Sound t := by
  obtain ⟨hsound, hadvances⟩ := h.prepare c
  exact ⟨hsound, hadvances, fun p hp => hsound.properties.get? hsound.validProperties hp⟩

theorem Sound.constant? (h : b.Sound r t) (c : ClassName) (n : String) :
    (constant? c n b).2.Sound r t ∧ b.Advances (constant? c n b).2 ∧
      ∀ k, (constant? c n b).1 = some k → k.type.Inside t := by
  obtain ⟨hsound, hadvances⟩ := h.prepare c
  exact ⟨hsound, hadvances, fun k hk => hsound.constants.get? hsound.validConstants hk⟩

end CodeBase

end UnionInference
