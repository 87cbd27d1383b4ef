import UnionInference.Proofs.Analysis.Comparison

/-!
The steps of evaluations that are compared. A class has the same declaration on both sides, and the
same members up to how its name is spelled; both sides tell the same ancestors of types that
correspond; and a variable has the type that it had in the beginning, or that the language gives it,
or nothing is known of it.
-/

namespace UnionInference

namespace AnalysisM

variable {α β : Type} {c : Context} {s : Setup} {w₀ : World} {T : TypeTable}

/-! ### What single steps come to -/

namespace Yields

theorem options_eq {o : Option Options} (h : Yields c s w₀ T options o) : o = some s.options := by
  obtain ⟨w, w₁, r, -, -, hrun, rfl⟩ := h
  cases hrun
  rfl

theorem emit_eq {i : Issue} {o : Option Unit} (h : Yields c s w₀ T (emit i) o) : o = some () := by
  obtain ⟨w, w₁, r, -, -, hrun, rfl⟩ := h
  cases hrun
  rfl

theorem display_ne {u : UnionType} {o : Option String} (h : Yields c s w₀ T (display u) o) :
    ∃ text, o = some text := by
  rcases h.bind_inv (Repeats.query _).proceeds fun _ => .pure _ with ⟨text, -, h⟩ | ⟨h, -⟩
  · exact ⟨_, h.pure_eq⟩
  · obtain ⟨a, ha, -⟩ := h.query_inv
    cases ha

theorem hasClass_eq {name : ClassName} {o : Option Bool}
    (h : Yields c s w₀ T (hasClass name) o) : o = some (w₀.base.isRegistered name) := by
  obtain ⟨w, w₁, r, hw, -, hrun, rfl⟩ := h
  rw [Repeats.hasClass_apply hw.tidy] at hrun
  cases hrun
  rw [CodeBase.isRegistered, CodeBase.isRegistered, hw.later.classes]
  rfl

/-- Work goes on with whether the class is registered. -/
theorem hasClass_inv {name : ClassName} {f : Bool → AnalysisM β} {o : Option β}
    (h : Yields c s w₀ T (hasClass name >>= f) o) (hf : ∀ known, Built (f known)) :
    Yields c s w₀ T (f (w₀.base.isRegistered name)) o := by
  rcases h.bind_inv (Repeats.hasClass name).proceeds hf with ⟨known, hknown, hrest⟩ | ⟨hnone, -⟩
  · cases hknown.hasClass_eq
    exact hrest
  · cases hnone.hasClass_eq

/-- Work goes on with the type in a place. -/
theorem fetch_inv {i : TypeId} {ty : Ty} {f : Ty → AnalysisM β} {o : Option β}
    (h : Yields c s w₀ T (query (fun t => t.fetch i) >>= f) o) (hty : T.get? i = some ty)
    (hf : ∀ ty, Built (f ty)) : Yields c s w₀ T (f ty) o := by
  rcases h.bind_inv (Repeats.query _).proceeds hf with ⟨ty', hty', hrest⟩ | ⟨hnone, -⟩
  · obtain ⟨_, ⟨⟩, hfetch⟩ := hty'.query_inv
    cases (TypeTable.fetch_of_get? hty).symm.trans hfetch
    exact hrest
  · obtain ⟨_, ⟨⟩, -⟩ := hnone.query_inv

/-- Work goes on with the declaration of the class. -/
theorem getClass_inv {name : ClassName} {f : ClassDecl → AnalysisM β} {o : Option β}
    (h : Yields c s w₀ T (getClass name >>= f) o) :
    ∃ d, w₀.base.class? name = some d ∧ Yields c s w₀ T (f d) o := by
  obtain ⟨w, w₂, r, hw, hw₂, hrun, rfl⟩ := h
  rw [bind_apply] at hrun
  split at hrun
  · next d w₁ hfirst =>
    obtain ⟨d, b, hget, ⟨⟩, rfl⟩ := getClass_eq_ok.1 hfirst
    obtain ⟨hw₁, hlater, hcaches⟩ :=
      (Repeats.getClass name).proceeds.later hw.tidy hw.stores hfirst hw.tidy.wellNamed
    obtain ⟨hd, rfl⟩ := CodeBase.getClass_eq_ok_iff.1 hget
    rw [CodeBase.class?, (hw.tidy.base.endures_filled name).supplements.classes,
      hw.later.classes] at hd
    exact ⟨d, hd, _, w₂, r, ⟨hw₁, hw.later.trans hlater, hw.entries, hcaches⟩, hw₂, hrun, rfl⟩
  · next f w₁ hfirst =>
    obtain ⟨_, _, -, ⟨⟩, -⟩ := getClass_eq_ok.1 hfirst
  · cases hrun

/-- What is asked of the code base about what stays as it was registered is asked of the first
one. -/
theorem codeBase_inv {f : CodeBase → AnalysisM β} {o : Option β}
    (h : Yields c s w₀ T (codeBase >>= f) o)
    (hsame : ∀ b b₁ : CodeBase, b.Supplements b₁ → f b₁ = f b) :
    Yields c s w₀ T (f w₀.base) o := by
  obtain ⟨w, w₁, r, hw, hw₁, hrun, rfl⟩ := h
  refine ⟨w, w₁, r, hw, hw₁, ?_, rfl⟩
  rw [← hsame _ _ hw.later.base.supplements]
  exact hrun

/-- A member is looked up in a class that was prepared. -/
theorem base_inv {work : BaseM α} {o : Option α} (h : Yields c s w₀ T (base work) o) :
    ∃ b, w₀.base.FillsTo b ∧ o = some (work b).1 := by
  obtain ⟨w, w₁, r, hw, -, hrun, rfl⟩ := h
  cases hrun
  exact ⟨w.base, hw.later.stock, rfl⟩

theorem hasAncestor_inv {i : TypeId} {owner : ClassName} {o : Option Bool} (hT : T.Canonical)
    (h : Yields c s w₀ T (hierarchy ((UnionType.of i).hasAncestor owner)) o) :
    ∃ found, o = some found ∧ Settles T w₀.base (ExpandM.reachesClass i owner) found := by
  obtain ⟨w, w₁, r, hw, hw₁, hrun, rfl⟩ := h
  obtain ⟨found, t, b, hwork, rfl, rfl⟩ := hierarchy_eq_ok.1 hrun
  clear hrun
  refine ⟨found, rfl, ?_⟩
  obtain ⟨cache, hanew⟩ :=
    ExpandM.hasAncestor_eq_anew hw.tidy.fresh hw.tidy.base.selfContained i owner
  rw [hanew] at hwork
  cases hreach : ExpandM.reachesClass i owner (w.types, w.base) with
  | error v =>
    rw [hreach] at hwork
    cases hwork
  | ok y =>
    obtain ⟨found', t', b'⟩ := y
    rw [hreach] at hwork
    cases hwork
    obtain rfl :=
      (ExpandM.reads_reachesClass i owner).base_eq hw.tidy.base.selfContained hreach
    have hsteady := ExpandM.steady_reachesClass i owner
    have hcanonical := (hsteady.grows hw.tidy.canonical hw.tidy.fresh.loadable hreach).1.canonical
    have hdeclared : w₀.base.declared? = w.base.declared? := by
      funext q
      have hsupplements := hw.later.base.supplements
      rw [CodeBase.declared?, CodeBase.declared?, CodeBase.class?, CodeBase.class?,
        hsupplements.classes, hsupplements.pending]
    have hext := hcanonical.extends_of_entries hT hw₁.entries.symm
    have hsettles := hsteady.settles hw.tidy.canonical hw.tidy.fresh.loadable hreach
    exact ExpandM.Settles.mono hsteady hcanonical hw.tidy.fresh.loadable hsettles hT hext
      hdeclared

theorem hasAncestor_ne {i : TypeId} {owner : ClassName} (hT : T.Canonical) :
    ¬ Yields c s w₀ T (hierarchy ((UnionType.of i).hasAncestor owner)) none := by
  intro h
  obtain ⟨found, hfound, -⟩ := h.hasAncestor_inv hT
  cases hfound

end Yields

/-- What a variable is found to be: it is as it was in the beginning, or the language provides it, or
nothing is known of it where it may come about, or it is missing. -/
inductive Denotes (c : Context) (s : Setup) (w₀ : World) (T : TypeTable) (name : String) :
    Option UnionType → Prop
  | kept {u : UnionType} (hu : (w₀.scopeOf c).get? name = some u) : Denotes c s w₀ T name (some u)
  | provided {u : UnionType} (hnone : (w₀.scopeOf c).get? name = none)
      (hprovided : (w₀.scopeOf c).isProvided name = true)
      (htype : Yields c s w₀ T (types ((w₀.scopeOf c).providedType name)) (some (some u))) :
      Denotes c s w₀ T name (some u)
  | created (hnone : (w₀.scopeOf c).get? name = none)
      (hnot : (w₀.scopeOf c).isProvided name = false)
      (hallowed : ((w₀.scopeOf c).isGlobal && s.options.ignoreUndeclaredVariablesInGlobalScope) =
        true) :
      Denotes c s w₀ T name (some .empty)
  | missing (hnone : (w₀.scopeOf c).get? name = none)
      (hnot : (w₀.scopeOf c).isProvided name = false)
      (hallowed : ((w₀.scopeOf c).isGlobal && s.options.ignoreUndeclaredVariablesInGlobalScope) =
        false) :
      Denotes c s w₀ T name none

theorem Yields.denotes {name : String} {line : Nat} {o : Option UnionType}
    (heq : variableType? c name = scopeOf c >>= fun y =>
      match y.get? name with
      | some u => pure (some u)
      | none => types (y.providedType name))
    (hw₀ : w₀.Tidy c) (h : Yields c s w₀ T (resolveOrCreateVariable c name line) o) :
    Denotes c s w₀ T name o := by
  obtain ⟨w, w₁, r, hw, hw₁, hrun, rfl⟩ := h
  have hkeeps := hw.later.scope
  have hnone : (w.scopeOf c).get? name = none → (w₀.scopeOf c).get? name = none := by
    intro hnone
    cases hu : (w₀.scopeOf c).get? name with
    | none => rfl
    | some u => exact (hkeeps.get?_eq_some hw₀.scope hu).symm.trans hnone
  have hprovided : (w.scopeOf c).isProvided name = (w₀.scopeOf c).isProvided name := by
    rw [Scope.isProvided, Scope.isProvided, hkeeps.isGlobal]
  have hlook : LookedUp c s.options name w r w₁ := (lookedUp_iff heq).2 ⟨r, hrun, rfl⟩
  cases hlook with
  | found hu =>
    rcases hkeeps.get?_inv hw₀.scope hu with hu₀ | ⟨hnone₀, rfl, hnot, hallowed⟩
    · exact .kept hu₀
    · exact .created hnone₀ hnot hallowed
  | provided hnone' hprovided' htype =>
    have hsame : (w.scopeOf c).providedType name = (w₀.scopeOf c).providedType name := by
      unfold Scope.providedType
      rw [hkeeps.isGlobal]
    rw [hsame] at htype
    exact .provided (hnone hnone') (hprovided ▸ hprovided')
      ⟨w, _, _, hw, hw₁, types_eq_ok.2 ⟨_, _, htype, rfl, rfl⟩, rfl⟩
  | created hnone' hnot hallowed =>
    exact .created (hnone hnone') (hprovided ▸ hnot) (hkeeps.isGlobal ▸ hallowed)
  | missing hnone' hnot hallowed =>
    exact .missing (hnone hnone') (hprovided ▸ hnot) (hkeeps.isGlobal ▸ hallowed)

end AnalysisM

/-! ### Members -/

/-- The methods agree in all but how the class that has them is spelled, and may stand in a sound
code base. -/
structure SameMethod (r : Regime) (t : TypeTable) (m m' : Method) : Prop where
  owner : TypeM.SameRegular m.name.owner m'.name.owner
  declaring : TypeM.SameRegular m.definedAs.owner m'.definedAs.owner
  signature : m'.signature = m.signature
  modifiers : m'.modifiers = m.modifiers
  sound : m.signature.Sound r t

/-- The properties agree in all but how the classes that have and declare them are spelled, and the
table holds their type. -/
structure SameProperty (t : TypeTable) (p p' : Property) : Prop where
  owner : TypeM.SameRegular p.name.owner p'.name.owner
  declaring : TypeM.SameRegular p.definedAs.owner p'.definedAs.owner
  type : p'.type = p.type
  modifiers : p'.modifiers = p.modifiers
  inside : p.type.Inside t

theorem SameMethod.of_alike {r : Regime} {t : TypeTable} {m m' : Method}
    (h : ClassMember.Alike m m') (hm : m.Sound r t) (hm' : m'.Sound r t) : SameMethod r t m m' := by
  have hdefined : m.definedAs = m'.definedAs := h.definedAs_eq
  obtain ⟨hfold, hmoved⟩ := h
  refine ⟨⟨hfold, hm.owner, hm'.owner⟩, ⟨by rw [hdefined], hm.declaring, hm'.declaring⟩, ?_, ?_,
    hm.signature⟩
  · rw [← hmoved]
    rfl
  · rw [← hmoved]
    rfl

theorem SameProperty.of_alike {t : TypeTable} {p p' : Property} (h : ClassMember.Alike p p')
    (hp : p.Sound t) (hp' : p'.Sound t) : SameProperty t p p' := by
  have hdefined : p.definedAs = p'.definedAs := h.definedAs_eq
  obtain ⟨hfold, hmoved⟩ := h
  refine ⟨⟨hfold, hp.owner, hp'.owner⟩, ⟨by rw [hdefined], hp.declaring, hp'.declaring⟩, ?_, ?_,
    hp.type⟩
  · rw [← hmoved]
    rfl
  · rw [← hmoved]
    rfl

namespace Comparison

open AnalysisM TypeM

variable {r : Regime} {x : Comparison r} {α β : Type} {u v : UnionType} {i j : TypeId}
  {p q : ClassName}

/-- A type that was there in the beginning is the same on both sides. -/
theorem sameTypes_of_inside (hu : u.Inside x.start.types) : x.left.SameTypes x.right u u :=
  x.siblings.sameTypes_self fun i hi => (hu i hi).lt_size

theorem regular_of_class? {d : ClassDecl} (h : x.start.base.class? p = some d) : p.Regular :=
  x.sound.base.names p d h

theorem class?_eq (h : p.fold = q.fold) : x.start.base.class? p = x.start.base.class? q :=
  CodeBase.class?_congr _ h

namespace Tallies

/-! ### Questions -/

theorem options : x.Tallies Eq options AnalysisM.options := by
  intro o o' hl hr
  rw [hl.options_eq, hr.options_eq]
  exact .some rfl

theorem emit (i j : Issue) : x.Tallies (fun _ _ => True) (emit i) (AnalysisM.emit j) := by
  intro o o' hl hr
  rw [hl.emit_eq, hr.emit_eq]
  exact .some trivial

theorem display (u v : UnionType) :
    x.Tallies (fun _ _ => True) (display u) (AnalysisM.display v) := by
  intro o o' hl hr
  obtain ⟨_, rfl⟩ := hl.display_ne
  obtain ⟨_, rfl⟩ := hr.display_ne
  exact .some trivial

theorem fetch (hij : x.left.Corresponds x.right i j) :
    x.Tallies (fun ty ty' => x.left.get? i = some ty ∧ x.right.get? j = some ty' ∧
      ty.Matches (x.left.Corresponds x.right) ty')
      (AnalysisM.query fun t => t.fetch i) (AnalysisM.query fun t => t.fetch j) := by
  obtain ⟨ty, ty', hty, hty', hmatch⟩ := hij.types
  exact query ⟨ty, ty', TypeTable.fetch_of_get? hty, TypeTable.fetch_of_get? hty', hty, hty', hmatch⟩

theorem any {f : Ty → Bool} (huv : x.left.SameTypes x.right u v) (hf : Outward f) :
    x.Tallies Eq (AnalysisM.query fun t => u.anyMember t f)
      (AnalysisM.query fun t => v.anyMember t f) :=
  query (have ⟨b, hu, hv⟩ := huv.anyMember_eq hf; ⟨b, b, hu, hv, rfl⟩)

theorem all {f : Ty → Bool} (huv : x.left.SameTypes x.right u v) (hf : Outward f) :
    x.Tallies Eq (AnalysisM.query fun t => u.allMembers t f)
      (AnalysisM.query fun t => v.allMembers t f) :=
  query (have ⟨b, hu, hv⟩ := huv.allMembers_eq hf; ⟨b, b, hu, hv, rfl⟩)

/-! ### Classes -/

theorem hasClass (h : p.fold = q.fold) :
    x.Tallies (fun a b => a = b ∧ a = x.start.base.isRegistered p) (hasClass p)
      (AnalysisM.hasClass q) := by
  intro o o' hl hr
  rw [hl.hasClass_eq, hr.hasClass_eq, CodeBase.isRegistered_congr _ h]
  exact .some ⟨rfl, rfl⟩

/-- Both sides go on with the declaration of the class. -/
theorem getClass {f : ClassDecl → AnalysisM α} {g : ClassDecl → AnalysisM β} {A : α → β → Prop}
    (h : p.fold = q.fold)
    (hfg : ∀ d, x.start.base.class? p = some d → x.Tallies A (f d) (g d)) :
    x.Tallies A (getClass p >>= f) (AnalysisM.getClass q >>= g) := by
  intro o o' hl hr
  obtain ⟨d, hd, hl⟩ := hl.getClass_inv
  obtain ⟨e, he, hr⟩ := hr.getClass_inv
  rw [← class?_eq h] at he
  cases hd.symm.trans he
  exact hfg d hd _ _ hl hr

theorem codeBase {f : CodeBase → AnalysisM α} {g : CodeBase → AnalysisM β} {A : α → β → Prop}
    (hf : ∀ b b₁ : CodeBase, b.Supplements b₁ → f b₁ = f b)
    (hg : ∀ b b₁ : CodeBase, b.Supplements b₁ → g b₁ = g b)
    (h : x.Tallies A (f x.start.base) (g x.start.base)) :
    x.Tallies A (codeBase >>= f) (AnalysisM.codeBase >>= g) :=
  fun _ _ hl hr => h _ _ (hl.codeBase_inv hf) (hr.codeBase_inv hg)

theorem method? (h : p.fold = q.fold) (name : String) :
    x.Tallies (Option.Rel (SameMethod r x.start.types)) (base (CodeBase.method? p name))
      (base (CodeBase.method? q name)) := by
  intro o o' hl hr
  obtain ⟨b, hb, rfl⟩ := hl.base_inv
  obtain ⟨b', hb', rfl⟩ := hr.base_inv
  refine .some ?_
  have halike := hb.alike x.acyclic x.tidy.base x.sound.base.validMethods hb' h name
  obtain ⟨-, -, hsound⟩ := (hb.sound x.sound.base).method? p name
  obtain ⟨-, -, hsound'⟩ := (hb'.sound x.sound.base).method? q name
  change Option.Rel _ (CodeBase.method? p name b).1 (CodeBase.method? q name b').1 at halike
  generalize (CodeBase.method? p name b).1 = found at halike hsound
  generalize (CodeBase.method? q name b').1 = found' at halike hsound'
  cases halike with
  | none => exact .none
  | some h => exact .some (.of_alike h (hsound _ rfl) (hsound' _ rfl))

theorem property? (h : p.fold = q.fold) (name : String) :
    x.Tallies (Option.Rel (SameProperty x.start.types)) (base (CodeBase.property? p name))
      (base (CodeBase.property? q name)) := by
  intro o o' hl hr
  obtain ⟨b, hb, rfl⟩ := hl.base_inv
  obtain ⟨b', hb', rfl⟩ := hr.base_inv
  refine .some ?_
  have halike := hb.alike x.acyclic x.tidy.base x.sound.base.validProperties hb' h name
  obtain ⟨-, -, hsound⟩ := (hb.sound x.sound.base).property? p name
  obtain ⟨-, -, hsound'⟩ := (hb'.sound x.sound.base).property? q name
  change Option.Rel _ (CodeBase.property? p name b).1 (CodeBase.property? q name b').1 at halike
  generalize (CodeBase.property? p name b).1 = found at halike hsound
  generalize (CodeBase.property? q name b').1 = found' at halike hsound'
  cases halike with
  | none => exact .none
  | some h => exact .some (.of_alike h (hsound _ rfl) (hsound' _ rfl))

theorem constant? (h : p.fold = q.fold) (name : String) :
    x.Tallies (Option.Rel fun k k' => k'.type = k.type ∧ k.type.Inside x.start.types)
      (base (CodeBase.constant? p name)) (base (CodeBase.constant? q name)) := by
  intro o o' hl hr
  obtain ⟨b, hb, rfl⟩ := hl.base_inv
  obtain ⟨b', hb', rfl⟩ := hr.base_inv
  refine .some ?_
  have halike := hb.alike x.acyclic x.tidy.base x.sound.base.validConstants hb' h name
  obtain ⟨-, -, hsound⟩ := (hb.sound x.sound.base).constant? p name
  change Option.Rel _ (CodeBase.constant? p name b).1 (CodeBase.constant? q name b').1 at halike
  generalize (CodeBase.constant? p name b).1 = found at halike hsound
  generalize (CodeBase.constant? q name b').1 = found' at halike
  cases halike with
  | none => exact .none
  | some h => exact .some ⟨by rw [← h.2]; rfl, hsound _ rfl⟩

/-! ### Ancestors -/

theorem hasAncestor (hij : x.left.Corresponds x.right i j) (h : p.fold = q.fold) :
    x.Tallies Eq (hierarchy ((UnionType.of i).hasAncestor p))
      (hierarchy ((UnionType.of j).hasAncestor q)) := by
  intro o o' hl hr
  obtain ⟨found, rfl, hfound⟩ := hl.hasAncestor_inv x.siblings.canonical
  obtain ⟨found', rfl, hfound'⟩ := hr.hasAncestor_inv x.siblings.canonical'
  have hb := x.tidy.fresh.loadable
  refine .some (ExpandM.reachesClass_eq x.siblings hb hb rfl ?_ hij h hfound hfound')
  intro name declared hdeclared m hm
  rw [x.tidy.base.selfContained.declared?_eq] at hdeclared
  obtain ⟨d, hd, rfl⟩ := Option.map_eq_some_iff.1 hdeclared
  exact ((x.sound.base.classes name d hd).type m hm).lt_size

theorem isSubclassOf {child child' : ClassName} (hchild : SameRegular child child')
    (h : p.fold = q.fold) :
    x.Tallies Eq (isSubclassOf child p) (AnalysisM.isSubclassOf child' q) := by
  have hsame : child.sameClass p = child'.sameClass q := by
    rw [QualifiedName.sameClass, QualifiedName.sameClass, h, hchild.same]
  rw [Repeats.isSubclassOf_eq, Repeats.isSubclassOf_eq, hsame]
  split
  · exact pure rfl
  refine (hasClass hchild.same).bind (by grind) fun known _ hknown => ?_
  obtain ⟨rfl, -⟩ := hknown
  split
  · exact (types (tallies_classType x.siblings hchild)).bind (by grind)
      fun i j hij => hasAncestor hij h
  · exact pure rfl

/-! ### Variables -/

theorem providedType (y : Scope) (name : String) :
    TypeM.Tallies x.left x.right (Option.Rel (x.left.SameTypes x.right)) (y.providedType name)
      (y.providedType name) := by
  have harray : ∀ (key : KeyKind) (k : NativeKind) (nullable : Bool),
      TypeM.Tallies x.left x.right (Option.Rel (x.left.SameTypes x.right))
        (do return some (UnionType.of (← array key k.id nullable)))
        (do return some (UnionType.of (← array key k.id nullable))) := fun key k nullable =>
    (tallies_array x.siblings (x.siblings.native k) key nullable).bind (by grind) fun _ _ h =>
      .pure (.some (.of h))
  unfold Scope.providedType
  split
  · exact harray _ .mixed _
  split
  · exact .pure .none
  split
  · exact .pure (.some (x.siblings.sameTypes_native .int))
  · exact harray _ .string _
  · exact harray _ .string _
  · exact .pure .none

theorem resolveOrCreateVariable (name : String) (line : Nat) :
    x.Tallies (x.left.SameTypes x.right) (resolveOrCreateVariable x.context name line)
      (AnalysisM.resolveOrCreateVariable x.context name line) := by
  rcases variableType?_eq x.context name with ⟨owner, howner, heq⟩ | heq
  · rw [resolveOrCreateVariable_this line heq]
    have hregular := (x.fits.owner owner howner).regular x.siblings.strict
    exact (types (tallies_classType x.siblings ⟨rfl, hregular, hregular⟩)).bind (by grind)
      fun _ _ hij =>
      pure (.of hij)
  · intro o o' hl hr
    cases hl.denotes heq x.tidy with
    | kept hu =>
      cases hr.denotes heq x.tidy with
      | kept hu' =>
        cases hu.symm.trans hu'
        exact .some (sameTypes_of_inside ((x.sound.scopeOf x.context).get? hu))
      | _ => simp_all
    | provided hnone hprovided htype =>
      cases hr.denotes heq x.tidy with
      | provided _ _ htype' =>
        obtain ⟨h⟩ := types (providedType _ name) _ _ htype htype'
        exact h
      | _ => simp_all
    | created hnone hnot hallowed =>
      cases hr.denotes heq x.tidy with
      | created => exact .some .empty
      | _ => simp_all
    | missing hnone hnot hallowed =>
      cases hr.denotes heq x.tidy with
      | missing => exact .none
      | _ => simp_all

/-- Without narrowings a condition leaves the context as it is. -/
theorem narrow (hnarrow : x.setup.narrowing = {}) (holds : Bool) {f g : Context → AnalysisM α}
    {A : α → α → Prop} (h : x.Tallies A (f x.context) (g x.context)) :
    x.Tallies A (narrow x.context holds >>= f) (AnalysisM.narrow x.context holds >>= g) := by
  have heq : ∀ (f : Context → AnalysisM α) w,
      (AnalysisM.narrow x.context holds >>= f) x.setup w = f x.context x.setup w :=
    fun f w => bind_of_ok (Evaluator.narrow_eq hnarrow holds w)
  have hinv : ∀ {f : Context → AnalysisM α} {T : TypeTable} {o},
      AnalysisM.Yields x.context x.setup x.start T (AnalysisM.narrow x.context holds >>= f) o →
      AnalysisM.Yields x.context x.setup x.start T (f x.context) o := by
    rintro f T o ⟨w, w₁, r, hw, hw₁, hrun, rfl⟩
    exact ⟨w, w₁, r, hw, hw₁, (heq f w).symm.trans hrun, rfl⟩
  exact fun _ _ hl hr => h _ _ (hinv hl) (hinv hr)

end Tallies

end Comparison

end UnionInference
