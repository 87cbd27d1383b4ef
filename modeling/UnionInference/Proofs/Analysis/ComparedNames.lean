import UnionInference.Proofs.Analysis.ComparedSteps
import UnionInference.Proofs.Analysis.Receivers

/-!
What names mean in evaluations that are compared. Both sides find the same classes, whatever order the
types of a receiver come in, and the same members of them; and they declare the same types.
-/

namespace UnionInference

open TypeM (SameRegular)

/-! ### Lists of classes -/

namespace UnionType

variable {names names' more more' : List ClassName} {p : ClassName} {key : QualifiedName}

theorem mem_foldl_addClass (h : p ∈ more.foldl addClass names) : p ∈ names ++ more := by
  induction more generalizing names with
  | nil => rwa [List.append_nil]
  | cons name more ih =>
    rw [List.append_cons, List.mem_append]
    exact (List.mem_append.1 (ih h)).imp_left (addClass_sublist names name).mem

theorem fold_mem_foldl_addClass : key ∈ (more.foldl addClass names).map QualifiedName.fold ↔
    key ∈ (names ++ more).map QualifiedName.fold := by
  induction more generalizing names with
  | nil => rw [List.append_nil, List.foldl_nil]
  | cons name more ih =>
    rw [List.foldl_cons, ih, List.map_append, List.mem_append, mem_fold_addClass, List.map_append,
      List.mem_append, List.map_cons, List.mem_cons, or_assoc]

/-- Names that are listed once denote the classes of all names, in whatever order these come. -/
theorem matched_foldl_addClass (h : Matched SameRegular names names')
    (hmore : Matched SameRegular more more') :
    Matched SameRegular (more.foldl addClass names) (more'.foldl addClass names') := by
  have hall := h.append hmore
  constructor
  · intro p hp
    obtain ⟨q, hq, hpq⟩ := hall.forth p (mem_foldl_addClass hp)
    obtain ⟨q', hq', hfold⟩ :=
      List.mem_map.1 (fold_mem_foldl_addClass.2 (List.mem_map_of_mem hq))
    obtain ⟨_, _, hself⟩ := hall.back q' (mem_foldl_addClass hq')
    exact ⟨q', hq', hpq.same.trans hfold.symm, hpq.regular, hself.regular'⟩
  · intro q hq
    obtain ⟨p, hp, hpq⟩ := hall.back q (mem_foldl_addClass hq)
    obtain ⟨p', hp', hfold⟩ :=
      List.mem_map.1 (fold_mem_foldl_addClass.2 (List.mem_map_of_mem hp))
    obtain ⟨_, _, hself⟩ := hall.forth p' (mem_foldl_addClass hp')
    exact ⟨p', hp', hfold.trans hpq.same, hself.regular, hpq.regular'⟩

end UnionType

/-- In whatever order they come, both lists say the same of placeholders, each for its own table. -/
abbrev TypeTable.SameBindings (T T' : TypeTable) (bs bs' : List (String × UnionType)) : Prop :=
  Matched (fun b b' => b.1 = b'.1 ∧ T.SameTypes T' b.2 b'.2) bs bs'

namespace TemplateMap

variable {T T' : TypeTable} {m m' : TemplateMap} {bs bs' : List (String × UnionType)} {s : String}
  {u v : UnionType} {o : Option TypeId}

theorem says_foldl_add : (bs.foldl (fun m b => m.add b.1 b.2) m).Says s o ↔
    m.Says s o ∨ ∃ b ∈ bs, s = b.1 ∧ ∀ j ∈ o, j ∈ b.2.members := by
  induction bs generalizing m with
  | nil => simp
  | cons b bs ih => rw [List.foldl_cons, ih, says_add, List.exists_mem_cons_iff, or_assoc]

theorem exists_optionRel (huv : T.SameTypes T' u v) (ho : ∀ j ∈ o, j ∈ u.members) :
    ∃ o', (∀ j ∈ o', j ∈ v.members) ∧ Option.Rel (T.Corresponds T') o o' := by
  cases o with
  | none => exact ⟨none, nofun, .none⟩
  | some i =>
    obtain ⟨j, hj, hij⟩ := huv.forth i (ho i rfl)
    exact ⟨some j, by rintro _ ⟨⟩; exact hj, .some hij⟩

/-- Adding the same to maps that say the same, in whatever order, keeps them so. -/
theorem sameMap_foldl_add (hm : T.SameMap T' m m')
    (h : T.SameBindings T' bs bs') :
    T.SameMap T' (bs.foldl (fun m b => m.add b.1 b.2) m)
      (bs'.foldl (fun m b => m.add b.1 b.2) m') := by
  refine sameMap_iff.2 fun s => ⟨fun o ho => ?_, fun o' ho' => ?_⟩
  · rcases says_foldl_add.1 ho with ho | ⟨b, hb, hs, ho⟩
    · obtain ⟨o', ho', hrel⟩ := (sameMap_iff.1 hm s).1 o ho
      exact ⟨o', says_foldl_add.2 (.inl ho'), hrel⟩
    · obtain ⟨b', hb', hname, htypes⟩ := h.forth b hb
      obtain ⟨o', ho', hrel⟩ := exists_optionRel htypes ho
      exact ⟨o', says_foldl_add.2 (.inr ⟨b', hb', hs.trans hname, ho'⟩), hrel⟩
  · rcases says_foldl_add.1 ho' with ho' | ⟨b', hb', hs, ho'⟩
    · obtain ⟨o, ho, hrel⟩ := (sameMap_iff.1 hm s).2 o' ho'
      exact ⟨o, says_foldl_add.2 (.inl ho), hrel⟩
    · obtain ⟨b, hb, hname, htypes⟩ := h.back b' hb'
      obtain ⟨o, ho, hrel⟩ := exists_optionRel htypes.flip ho'
      refine ⟨o, says_foldl_add.2 (.inr ⟨b, hb, hs.trans hname.symm, ho⟩), ?_⟩
      cases hrel with
      | none => exact .none
      | some h => exact .some h.flip

end TemplateMap

/-- What a type says that the placeholders of a class stand for. -/
def Ty.assigns (owner : ClassName) (names : List String) (ty : Ty) : List (String × UnionType) :=
  match ty.kind with
  | .object name args => if name.sameClass owner then names.zip args else []
  | _ => []

theorem Ty.Matches.assigns {T T' : TypeTable} {ty ty' : Ty} (h : ty.Matches (T.Corresponds T') ty')
    {p q : ClassName} (hpq : p.fold = q.fold) (names : List String) :
    T.SameBindings T' (ty.assigns p names) (ty'.assigns q names) := by
  obtain ⟨kind, nullable⟩ := ty
  obtain ⟨kind', nullable'⟩ := ty'
  obtain ⟨-, hkind⟩ := h
  cases kind with
  | object name args =>
    cases kind' with
    | object name' args' =>
      obtain ⟨hname, hargs⟩ := hkind
      have hsame : name.sameClass p = name'.sameClass q := by
        rw [QualifiedName.sameClass, QualifiedName.sameClass, hpq, hname]
      rw [Ty.assigns, Ty.assigns]
      dsimp only
      rw [hsame]
      split
      · exact .of_forall₂ (TypeM.forall₂_zip_zip (List.forall₂_same.2 fun _ _ => rfl) hargs)
      · exact .nil
    | _ => exact hkind.elim
  | _ => cases kind' <;> first | exact hkind.elim | exact .nil

/-- Members that are related were found in the same way. -/
inductive Resolution.Rel {α β : Type} (R : α → β → Prop) : Resolution α → Resolution β → Prop
  | notFound : Rel R .notFound .notFound
  | found {a : α} {b : β} (h : R a b) : Rel R (.found a) (.found b)
  | viaMagic {a : α} {b : β} (h : R a b) : Rel R (.viaMagic a) (.viaMagic b)

theorem Resolution.Rel.member? {α β : Type} {R : α → β → Prop} {a : Resolution α} {b : Resolution β}
    (h : Rel R a b) : Option.Rel R a.member? b.member? := by
  cases h with
  | notFound => exact .none
  | found h | viaMagic h => exact .some h

namespace AnalysisM

variable {c : Context} {s : Setup} {w₀ : World} {T : TypeTable}

/-- Classes are added to the list one by one, if all of them are registered. -/
theorem Yields.foldlM_receivers {step : List ClassName → TypeId → AnalysisM (List ClassName)}
    {ids : List TypeId} (hids : ∀ i ∈ ids, i < T.size)
    (hp : ∀ found i, Repeats c s (step found i)) (hf : ∀ found i, Built (step found i))
    (hstep : ∀ i ty, T.get? i = some ty → ∀ found, found.all w₀.base.isRegistered = true →
      ∀ o, Yields c s w₀ T (step found i) o →
        o = if (receiverClass c ty).all w₀.base.isRegistered then
          some ((receiverClass c ty).elim found (UnionType.addClass found)) else none)
    {found : List ClassName} (hfound : found.all w₀.base.isRegistered = true)
    {o : Option (List ClassName)} (h : Yields c s w₀ T (ids.foldlM step found) o) :
    o = if ((ids.filterMap T.get?).filterMap (receiverClass c)).all w₀.base.isRegistered then
      some (((ids.filterMap T.get?).filterMap (receiverClass c)).foldl UnionType.addClass found)
    else none := by
  induction ids generalizing found with
  | nil => exact h.pure_eq
  | cons i ids ih =>
    rw [List.forall_mem_cons] at hids
    obtain ⟨ty, hty⟩ := TypeTable.exists_get? hids.1
    rw [List.foldlM_cons] at h
    rw [List.filterMap_cons_some hty]
    rcases h.bind_inv (hp found i).proceeds fun found => .foldlM hf ids found with
      ⟨found', hfirst, hrest⟩ | ⟨hfirst, rfl⟩
    · have hfound' := hstep i ty hty found hfound _ hfirst
      cases hclass : receiverClass c ty with
      | none =>
        rw [hclass] at hfound'
        cases hfound'
        rw [List.filterMap_cons_none hclass]
        exact ih hids.2 hfound hrest
      | some p =>
        rw [hclass, Option.all_some] at hfound'
        split at hfound'
        · next hp =>
          cases hfound'
          rw [List.filterMap_cons_some hclass, List.all_cons, hp, Bool.true_and, List.foldl_cons]
          refine ih hids.2 ?_ hrest
          rw [List.all_eq_true] at hfound ⊢
          intro q hq
          rcases List.mem_append.1 ((UnionType.addClass_sublist found p).mem hq) with hq | hq
          · exact hfound q hq
          · exact List.mem_singleton.1 hq ▸ hp
        · cases hfound'
    · have hnone := hstep i ty hty found hfound _ hfirst
      cases hclass : receiverClass c ty with
      | none =>
        rw [hclass] at hnone
        cases hnone
      | some p =>
        rw [hclass, Option.all_some] at hnone
        split at hnone
        · cases hnone
        · next hp =>
          rw [List.filterMap_cons_some hclass, List.all_cons, Bool.eq_false_of_not_eq_true hp,
            Bool.false_and]
          rfl

/-- The classes of a receiver are listed each once, if all of them are registered. -/
theorem Yields.classListWith_eq {missing : ClassName → IssueKind × Nat × List String}
    {u : UnionType} (hu : ∀ i ∈ u.members, i < T.size) {o : Option (List ClassName)}
    (h : Yields c s w₀ T (classListWith c missing u) o) :
    o = if ((u.typesIn T).filterMap (receiverClass c)).all w₀.base.isRegistered then
      some (distinctClasses ((u.typesIn T).filterMap (receiverClass c))) else none := by
  refine h.foldlM_receivers hu (fun found i => ?_) (fun found i => ?_)
    (fun i ty hty found hfound o hrun => ?_) rfl
  · grind
  · grind
  · have hrun := hrun.fetch_inv hty (by grind)
    split at hrun
    · next hclass =>
      rw [hclass]
      exact hrun.pure_eq
    · next p hclass =>
      rw [hclass, Option.all_some, Option.elim_some, UnionType.addClass]
      split at hrun
      · next hany =>
        obtain ⟨q, hq, hsame⟩ := List.any_eq_true.1 hany
        have hp : w₀.base.isRegistered p = true :=
          (CodeBase.isRegistered_congr _ (beq_iff_eq.1 hsame)).trans (List.all_eq_true.1 hfound q hq)
        rw [if_pos hp, if_pos hany]
        exact hrun.pure_eq
      · next hany =>
        have hrun := hrun.hasClass_inv (by grind)
        split at hrun
        · next hp =>
          rw [if_pos hp, if_neg hany]
          exact hrun.pure_eq
        · next hp =>
          rw [if_neg hp]
          exact hrun.fail_eq

end AnalysisM

namespace Comparison

open AnalysisM TypeM

variable {r : Regime} {x : Comparison r} {α β : Type} {u v : UnionType} {i j : TypeId}
  {p q : ClassName} {n : Node} {child : Child}

/-- A registered class has a regular name, on both sides. -/
theorem sameRegular_of_isRegistered (h : p.fold = q.fold)
    (hp : x.start.base.isRegistered p = true) : SameRegular p q := by
  rw [x.sound.base.loadable.isRegistered_eq] at hp
  obtain ⟨d, hd⟩ := Option.isSome_iff_exists.1 hp
  exact ⟨h, x.regular_of_class? hd, x.regular_of_class? ((class?_eq h).symm.trans hd)⟩

theorem sameRegular_owner {owner : ClassName} (h : x.context.owner = some owner) :
    SameRegular owner owner :=
  have hregular := (x.fits.owner owner h).regular x.siblings.strict
  ⟨rfl, hregular, hregular⟩

/-- Receivers whose types correspond are of one class, or neither is an object. -/
theorem receiverClass_rel (hij : x.left.Corresponds x.right i j) :
    Option.Rel SameRegular ((x.left.get? i).bind (receiverClass x.context))
      ((x.right.get? j).bind (receiverClass x.context)) := by
  obtain ⟨ty, ty', hty, hty', hmatch⟩ := hij.types
  rw [hty, hty', Option.bind_some, Option.bind_some]
  have hother : Option.Rel SameRegular (if ty.isStaticLike then x.context.owner else none)
      (if ty'.isStaticLike then x.context.owner else none) := by
    rw [Outward.isStaticLike.eq hmatch]
    split
    · cases howner : x.context.owner with
      | none => exact .none
      | some owner => exact .some (sameRegular_owner howner)
    · exact .none
  obtain ⟨kind, nullable⟩ := ty
  obtain ⟨kind', nullable'⟩ := ty'
  obtain ⟨-, hkind⟩ := hmatch
  cases kind with
  | object name args =>
    cases kind' with
    | object name' args' => exact .some (sameRegular_of_get? x.siblings hty hty' hkind.1)
    | _ => exact hkind.elim
  | _ => cases kind' <;> first | exact hkind.elim | exact hother

namespace Tallies

/-! ### Children and literals -/

/-- Work on a child that must be there. -/
theorem required {name : String} {f : Child → AnalysisM α} {g : Child → AnalysisM β}
    {A : α → β → Prop} (h : ∀ child, n.child? name = some child → x.Tallies A (f child) (g child)) :
    x.Tallies A (required n name >>= f) (UnionInference.required n name >>= g) := by
  unfold UnionInference.required
  cases hc : n.child? name with
  | some child => exact h child hc
  | none => exact fail _ _

theorem literalType (a : Scalar) :
    x.Tallies (x.left.SameTypes x.right) (literalType a) (UnionInference.literalType a) := by
  refine options.bind (by grind) fun o o' ho => ?_
  cases ho
  exact types (UnionType.tallies_ofScalar x.siblings a o)

/-! ### Classes -/

theorem parentOf (c : Context) (owner : ClassName) (line : Nat) :
    x.Tallies (fun p q => p = q ∧ p.Regular) (parentOf c owner line)
      (AnalysisM.parentOf c owner line) := by
  refine (hasClass rfl).bind (by grind) fun known _ hknown => ?_
  obtain ⟨rfl, -⟩ := hknown
  split
  · exact fail _ _
  refine getClass rfl fun d hd => ?_
  split
  · exact fail _ _
  split
  · next parent hparent => exact pure ⟨rfl, (x.sound.base.classes _ d hd).parent parent hparent⟩
  · exact fail _ _

theorem classOfName (hn : n.Fits r) (hkind : n.kind = .name) :
    x.Tallies (fun p q => p = q ∧ p.Regular) (classOfName x.context n)
      (AnalysisM.classOfName x.context n) := by
  unfold AnalysisM.classOfName
  split
  · exact fail _ _
  · next name hname =>
    dsimp only
    split
    · exact pure ⟨rfl, (x.fits.resolveClass (hn.spells hkind hname) _).regular x.siblings.strict⟩
    · split
      · exact fail _ _
      · next owner howner =>
        split
        · exact parentOf x.context owner n.line
        · exact pure ⟨rfl, (sameRegular_owner howner).regular⟩

/-- The classes of receivers of the same types. -/
theorem classListWith (huv : x.left.SameTypes x.right u v)
    (missing : ClassName → IssueKind × Nat × List String) :
    x.Tallies (Matched SameRegular) (classListWith x.context missing u)
      (AnalysisM.classListWith x.context missing v) := by
  intro o o' hl hr
  have hnames : Matched SameRegular ((u.typesIn x.left).filterMap (receiverClass x.context))
      ((v.typesIn x.right).filterMap (receiverClass x.context)) := by
    rw [UnionType.typesIn, UnionType.typesIn, List.filterMap_filterMap, List.filterMap_filterMap]
    exact Matched.filterMap huv fun i _ j _ hij => receiverClass_rel hij
  rw [hl.classListWith_eq huv.lt_size, hr.classListWith_eq huv.flip.lt_size,
    hnames.all_eq fun p _ q _ hpq => CodeBase.isRegistered_congr _ hpq.same]
  split
  · exact .some (UnionType.matched_foldl_addClass .nil hnames)
  · exact .none

theorem existingClass (h : p.fold = q.fold) (c : Context) (line : Nat) :
    x.Tallies (Matched SameRegular) (existingClass c p line) (AnalysisM.existingClass c q line) := by
  refine (hasClass h).bind (by grind) fun known _ hknown => ?_
  obtain ⟨rfl, hknown⟩ := hknown
  split
  · next hp => exact pure (.singleton (sameRegular_of_isRegistered h (hknown ▸ hp)))
  · exact fail _ _

/-- The classes that string literals of the types name. -/
theorem addNamedClasses (huv : x.left.SameTypes x.right u v) {found found' : List ClassName}
    (hfound : Matched SameRegular found found') :
    x.Tallies (Matched SameRegular) (addNamedClasses u found)
      (AnalysisM.addNamedClasses v found') := by
  let add (found more : List ClassName) := more.foldl UnionType.addClass found
  have hround (found : List ClassName) (name : ClassName) : (do
      if ← AnalysisM.hasClass name then return UnionType.addClass found name else return found) =
      add found <$> (do if ← AnalysisM.hasClass name then return [name] else return []) := by
    rw [map_bind]
    refine bind_congr fun known => ?_
    cases known <;> rfl
  refine foldlM_add add add huv (by grind) (fun i _ j _ hij => ?_) (fun found i => ?_)
    (fun found i => ?_) fun xs ys hxy => ?_
  · refine (fetch hij).bind (by grind) ?_
    rintro ⟨kind, nullable⟩ ⟨kind', nullable'⟩ ⟨-, -, -, hkind⟩
    cases kind with
    | stringLiteral s =>
      cases kind' with
      | stringLiteral s' =>
        obtain rfl : s = s' := hkind
        refine (hasClass rfl).bind (by grind) fun known _ hknown => ?_
        obtain ⟨rfl, hknown⟩ := hknown
        split
        · next hp => exact pure (.singleton (sameRegular_of_isRegistered rfl (hknown ▸ hp)))
        · exact pure .nil
      | _ => exact hkind.elim
    | _ => cases kind' <;> first | exact hkind.elim | exact pure .nil
  · rw [map_bind]
    refine bind_congr fun ty => ?_
    split
    · exact hround found _
    · rfl
  · rw [map_bind]
    refine bind_congr fun ty => ?_
    split
    · exact hround found _
    · rfl
  · have hall : ∀ (xs : List (List ClassName)) found, xs.foldl add found = add found xs.flatten := by
      intro xs
      induction xs with
      | nil => exact fun _ => rfl
      | cons more xs ih => exact fun found => (ih _).trans (List.foldl_append ..).symm
    rw [hall, hall]
    refine UnionType.matched_foldl_addClass hfound ?_
    rw [← List.flatMap_id, ← List.flatMap_id]
    exact Matched.flatMap hxy fun _ _ _ _ hab => hab

theorem proceeds_classReference {evaluate : Child → AnalysisM UnionType}
    (hp : x.Proceeds (evaluate child)) :
    x.Proceeds (AnalysisM.classReference x.context evaluate child) := by
  have hexpression (line : Nat) : x.Proceeds
      (do let u ← evaluate child; AnalysisM.addNamedClasses u (← classList x.context u line)) :=
    hp.bind fun u => ((repeats_classListWith x.context _ u).bind fun found =>
      repeats_addNamedClasses u found).proceeds
  unfold AnalysisM.classReference
  split
  · exact (repeats_existingClass ..).proceeds
  · next m =>
    split
    · exact ((repeats_classOfName x.context m).bind fun _ => repeats_existingClass ..).proceeds
    · exact hexpression m.line
  · exact hexpression x.context.line

/-- The classes that a child denotes, where children of other kinds than names have the same types. -/
theorem classReference {evaluate : Child → AnalysisM UnionType} (hchild : child.Fits r)
    (hevaluate : x.Tallies (x.left.SameTypes x.right) (evaluate child) (evaluate child))
    (hp : x.Proceeds (evaluate child)) (hf : Built (evaluate child)) :
    x.Tallies (Matched SameRegular) (classReference x.context evaluate child)
      (AnalysisM.classReference x.context evaluate child) := by
  have hexpression (line : Nat) : x.Tallies (Matched SameRegular)
      (do let u ← evaluate child; AnalysisM.addNamedClasses u (← classList x.context u line))
      (do let u ← evaluate child; AnalysisM.addNamedClasses u (← classList x.context u line)) := by
    refine hevaluate.bind ⟨hp, hp, by grind [classList], by grind [classList]⟩ fun u v huv => ?_
    exact (classListWith huv _).bind (by grind) fun _ _ hfound => addNamedClasses huv hfound
  unfold AnalysisM.classReference
  split
  · exact existingClass rfl _ _
  · next m =>
    split
    · next hkind =>
      refine (classOfName hchild hkind).bind (by grind) fun p q hpq => ?_
      obtain ⟨rfl, -⟩ := hpq
      exact existingClass rfl _ _
    · exact hexpression m.line
  · exact hexpression x.context.line

/-- What placeholders stand for in receivers of the same types. -/
theorem receiverTemplates (huv : x.left.SameTypes x.right u v) (h : p.fold = q.fold) :
    x.Tallies (x.left.SameMap x.right) (receiverTemplates u p)
      (AnalysisM.receiverTemplates v q) := by
  unfold AnalysisM.receiverTemplates
  refine (hasClass h).bind (by grind) fun known _ hknown => ?_
  obtain ⟨rfl, -⟩ := hknown
  split
  · exact pure TemplateMap.sameMap_nil
  refine getClass h fun d _ => ?_
  dsimp only
  split
  · exact pure TemplateMap.sameMap_nil
  have hround (owner : ClassName) (m : TemplateMap) (i : TypeId) : (do
      match (← AnalysisM.query fun t => t.fetch i).kind with
      | .object name args =>
        if name.sameClass owner then
          return (d.templates.zip args).foldl (fun m b => m.add b.1 b.2) m
        else return m
      | _ => return m) = (fun bs => bs.foldl (fun m b => m.add b.1 b.2) m) <$>
        Ty.assigns owner d.templates <$> AnalysisM.query fun t => t.fetch i := by
    simp only [map_eq_pure_bind, bind_assoc, pure_bind]
    refine bind_congr ?_
    rintro ⟨kind, nullable⟩
    cases kind with
    | object name args =>
      rw [Ty.assigns]
      dsimp only
      split
      · rfl
      · rfl
    | _ => rfl
  refine foldlM_matched (A := x.left.SameBindings x.right) (hround p) (hround q) huv
    (by grind) (fun i _ j _ hij => ?_) fun xs ys hxy => ?_
  · exact (fetch hij).map (by grind) fun ty ty' hty => hty.2.2.assigns h d.templates
  · have hall : ∀ (xs : List (List (String × UnionType))) (m : TemplateMap),
        xs.foldl (fun m bs => bs.foldl (fun m b => m.add b.1 b.2) m) m =
          xs.flatten.foldl (fun m b => m.add b.1 b.2) m := fun xs m => List.foldl_flatten.symm
    rw [hall, hall]
    refine TemplateMap.sameMap_foldl_add TemplateMap.sameMap_nil ?_
    rw [← List.flatMap_id, ← List.flatMap_id]
    exact Matched.flatMap hxy fun _ _ _ _ hab => hab

/-! ### Access -/

theorem canAccess {declaring declaring' owner owner' : ClassName}
    (hdeclaring : SameRegular declaring declaring') (howner : SameRegular owner owner')
    (isPrivate : Bool) :
    x.Tallies Eq (canAccess x.context declaring owner isPrivate)
      (AnalysisM.canAccess x.context declaring' owner' isPrivate) := by
  unfold AnalysisM.canAccess
  cases hhere : x.context.owner with
  | none => exact pure rfl
  | some here =>
    have hhere := sameRegular_owner hhere
    dsimp only
    rw [show here.sameClass declaring' = here.sameClass declaring by
      rw [QualifiedName.sameClass, QualifiedName.sameClass, hdeclaring.same]]
    split
    · exact pure rfl
    have hclass : ∀ (b b₁ : CodeBase), b.Supplements b₁ → b₁.class? = b.class? := fun b b₁ h => by
      funext q
      rw [CodeBase.class?, CodeBase.class?, h.classes]
    refine codeBase (fun b b₁ h => by rw [hclass b b₁ h]) (fun b b₁ h => by rw [hclass b b₁ h]) ?_
    rw [class?_eq hdeclaring.same, show here.sameClass owner' = here.sameClass owner by
      rw [QualifiedName.sameClass, QualifiedName.sameClass, howner.same]]
    split
    · exact pure rfl
    split
    · exact pure rfl
    refine (isSubclassOf hhere hdeclaring.same).bind (by grind) fun below _ hbelow => ?_
    cases hbelow
    split
    · exact pure rfl
    refine (isSubclassOf hdeclaring rfl).bind (by grind) fun above _ habove => ?_
    cases habove
    split
    · exact pure rfl
    split
    · exact isSubclassOf hhere howner.same
    · exact pure rfl

theorem checkMethodAccess {m m' : Method} (h : SameMethod r x.start.types m m') (line : Nat) :
    x.Tallies (fun _ _ => True) (checkMethodAccess x.context m line)
      (AnalysisM.checkMethodAccess x.context m' line) := by
  unfold AnalysisM.checkMethodAccess
  rw [h.modifiers]
  split
  · exact pure trivial
  refine (canAccess h.declaring h.owner _).bind (by grind) fun yes _ hyes => ?_
  cases hyes
  split
  · exact pure trivial
  · exact fail _ _

theorem checkPropertyAccess {k k' : Property} (h : SameProperty x.start.types k k') (line : Nat) :
    x.Tallies (fun _ _ => True) (checkPropertyAccess x.context k line)
      (AnalysisM.checkPropertyAccess x.context k' line) := by
  unfold AnalysisM.checkPropertyAccess
  rw [h.modifiers]
  split
  · exact pure trivial
  refine (canAccess h.declaring h.owner _).bind (by grind) fun yes _ hyes => ?_
  cases hyes
  split
  · exact pure trivial
  · exact fail _ _

/-! ### Members -/

theorem findMethod (h : p.fold = q.fold) (name : String) (isStatic : Bool) :
    x.Tallies (Resolution.Rel (SameMethod r x.start.types)) (findMethod p name isStatic)
      (AnalysisM.findMethod q name isStatic) := by
  unfold AnalysisM.findMethod
  refine (method? h name).bind (by grind) fun found found' hfound => ?_
  cases hfound with
  | some hm => exact pure (.found hm)
  | none =>
    refine (method? h _).bind (by grind) fun magic magic' hmagic => ?_
    cases hmagic with
    | some hm => exact pure (.viaMagic hm)
    | none => exact pure .notFound

/-- The methods of the same classes. -/
theorem resolveMethods {classes classes' : List ClassName}
    (hclasses : Matched SameRegular classes classes') (name : String) (isStatic : Bool)
    (line : Nat) :
    x.Tallies (Matched (Resolution.Rel (SameMethod r x.start.types)))
      (resolveMethods x.context classes name isStatic u line)
      (AnalysisM.resolveMethods x.context classes' name isStatic v line) := by
  unfold AnalysisM.resolveMethods
  have hempty := hclasses.isEmpty_eq
  cases classes with
  | nil =>
    cases classes' with
    | nil => exact (display u v).bind (by grind) fun _ _ _ => fail _ _
    | cons => cases hempty
  | cons first rest =>
    cases classes' with
    | nil => cases hempty
    | cons first' rest' =>
      refine (foldlM_append (A := Resolution.Rel (SameMethod r x.start.types)) hclasses
        (by grind) (fun p _ q _ hpq => ?_) (fun found p => ?_) fun found p => ?_).bind (by grind)
        fun found found' hfound => ?_
      · refine (findMethod hpq.same name isStatic).bind (by grind) fun m m' hm => ?_
        cases hm with
        | notFound => exact pure .nil
        | found hm =>
          exact (checkMethodAccess hm line).bind (by grind)
            fun _ _ _ => pure (.singleton (.found hm))
        | viaMagic hm => exact pure (.singleton (.viaMagic hm))
      · rw [map_bind]
        exact bind_congr fun m => by cases m <;> simp
      · rw [map_bind]
        exact bind_congr fun m => by cases m <;> simp
      · dsimp only
        rw [hfound.isEmpty_eq]
        split
        · exact fail _ _
        · exact pure hfound

theorem findProperty (h : SameRegular p q) (name : String) (isStatic : Bool) :
    x.Tallies (Resolution.Rel (SameProperty x.start.types)) (findProperty p name isStatic)
      (AnalysisM.findProperty q name isStatic) := by
  unfold AnalysisM.findProperty
  refine (property? h.same name).bind (by grind) fun found found' hfound => ?_
  cases hfound with
  | some hk =>
    dsimp only
    rw [hk.modifiers]
    split
    · exact pure (.found hk)
    · exact pure .notFound
  | none =>
    dsimp only
    split
    · exact pure .notFound
    refine (method? h.same "__get").bind (by grind) fun getter getter' hgetter => ?_
    cases hgetter with
    | some hm =>
      exact pure (.viaMagic ⟨h, h, congrArg Signature.result hm.signature, rfl, hm.sound.result⟩)
    | none => exact pure .notFound

/-- The properties of the same classes. -/
theorem resolveProperties {classes classes' : List ClassName}
    (hclasses : Matched SameRegular classes classes') (name : String) (isStatic : Bool)
    (line : Nat) :
    x.Tallies (Matched (SameProperty x.start.types))
      (resolveProperties x.context classes name isStatic line)
      (AnalysisM.resolveProperties x.context classes' name isStatic line) := by
  unfold AnalysisM.resolveProperties missingProperty
  refine (foldlM_append (A := SameProperty x.start.types) hclasses (by grind)
    (fun p _ q _ hpq => ?_) (fun found p => ?_) fun found p => ?_).bind (by grind)
    fun found found' hfound => ?_
  · refine (findProperty hpq name isStatic).bind (by grind) fun k k' hk => ?_
    cases hk with
    | notFound => exact pure .nil
    | found hk =>
      exact (checkPropertyAccess hk line).bind (by grind)
        fun _ _ _ => pure (.singleton hk)
    | viaMagic hk => exact pure (.singleton hk)
  · rw [map_bind]
    exact bind_congr fun k => by cases k <;> simp
  · rw [map_bind]
    exact bind_congr fun k => by cases k <;> simp
  · have hempty := hclasses.isEmpty_eq
    cases classes with
    | nil =>
      cases classes' with
      | nil => exact pure hfound
      | cons => cases hempty
    | cons first rest =>
      cases classes' with
      | nil => cases hempty
      | cons first' rest' =>
        dsimp only
        rw [hfound.isEmpty_eq]
        split
        · split
          · exact fail _ _
          · exact fail _ _
        · exact pure hfound

/-- The constants of the classes that a child denotes. -/
theorem resolveClassConstant {evaluate : Child → AnalysisM UnionType} (hchild : child.Fits r)
    (hevaluate : x.Tallies (x.left.SameTypes x.right) (evaluate child) (evaluate child))
    (hp : x.Proceeds (evaluate child)) (hf : Built (evaluate child)) (name : String)
    (line : Nat) :
    x.Tallies (Matched fun k k' => k'.type = k.type ∧ k.type.Inside x.start.types)
      (resolveClassConstant x.context evaluate child name line)
      (AnalysisM.resolveClassConstant x.context evaluate child name line) := by
  unfold AnalysisM.resolveClassConstant
  refine (classReference hchild hevaluate hp hf).bind ⟨proceeds_classReference hp,
    proceeds_classReference hp, by grind, by grind⟩ fun classes classes' hclasses => ?_
  refine (foldlM_append (A := fun k k' => k'.type = k.type ∧ k.type.Inside x.start.types) hclasses
    (by grind) (fun p _ q _ hpq => ?_) (fun found p => ?_) fun found p => ?_).bind (by grind)
    fun found found' hfound => ?_
  · refine (constant? hpq.same name).bind (by grind) fun k k' hk => ?_
    cases hk with
    | some hk => exact pure (.singleton hk)
    | none => exact pure .nil
  · rw [map_bind]
    exact bind_congr fun k => by cases k <;> simp
  · rw [map_bind]
    exact bind_congr fun k => by cases k <;> simp
  · have hempty := hclasses.isEmpty_eq
    cases classes with
    | nil =>
      cases classes' with
      | nil => exact pure hfound
      | cons => cases hempty
    | cons first rest =>
      cases classes' with
      | nil => cases hempty
      | cons first' rest' =>
        dsimp only
        rw [hfound.isEmpty_eq]
        split
        · exact fail _ _
        · exact pure hfound

/-! ### Functions and constants -/

theorem resolveFunction (n : Node) :
    x.Tallies (fun f g => f = g ∧ f.signature.Sound r x.start.types) (resolveFunction x.context n)
      (AnalysisM.resolveFunction x.context n) := by
  unfold AnalysisM.resolveFunction
  split
  · exact fail _ _
  · have hfunction : ∀ (b b₁ : CodeBase), b.Supplements b₁ → b₁.function? = b.function? :=
      fun b b₁ h => by
        funext k
        rw [CodeBase.function?, CodeBase.function?, h.functions]
    refine codeBase (fun b b₁ h => by rw [hfunction b b₁ h]) (fun b b₁ h => by rw [hfunction b b₁ h])
      ?_
    have hsound {k : FunctionName} {f : FunctionDecl} (hf : x.start.base.function? k = some f) :
        f.signature.Sound r x.start.types := x.sound.base.functions _ f hf
    dsimp only
    split
    · next _ _ f hf => exact pure ⟨rfl, hsound hf⟩
    · next f _ hf =>
      obtain ⟨k, -, hf⟩ := Option.bind_eq_some_iff.1 hf
      exact pure ⟨rfl, hsound hf⟩
    · exact fail _ _

theorem resolveGlobal (n : Node) :
    x.Tallies (fun k k' => k = k' ∧ k.type.Inside x.start.types) (resolveGlobal x.context n)
      (AnalysisM.resolveGlobal x.context n) := by
  unfold AnalysisM.resolveGlobal
  split
  · exact fail _ _
  · have hglobal : ∀ (b b₁ : CodeBase), b.Supplements b₁ → b₁.global? = b.global? :=
      fun b b₁ h => by
        funext k
        rw [CodeBase.global?, CodeBase.global?, h.globals]
    refine codeBase (fun b b₁ h => by rw [hglobal b b₁ h]) (fun b b₁ h => by rw [hglobal b b₁ h]) ?_
    have hsound {k : ConstantName} {g : GlobalConstant} (hg : x.start.base.global? k = some g) :
        g.type.Inside x.start.types := x.sound.base.globals _ g hg
    dsimp only
    split
    · next _ _ g hg => exact pure ⟨rfl, hsound hg⟩
    · next g _ hg =>
      obtain ⟨k, -, hg⟩ := Option.bind_eq_some_iff.1 hg
      exact pure ⟨rfl, hsound hg⟩
    · exact fail _ _

/-! ### Declared types -/

theorem declaredType (hn : n.Fits r) :
    x.Tallies (x.left.SameTypes x.right) (declaredType x.context n)
      (AnalysisM.declaredType x.context n) := by
  induction n using declaredType.induct with
  | case5 n hkind ih =>
    -- the types of a union are declared by the nodes in it
    rw [AnalysisM.declaredType, hkind]
    exact foldlM_union (fun _ _ => (map_eq_pure_bind _ _).symm)
      (fun _ _ => (map_eq_pure_bind _ _).symm) (.refl fun m _ => rfl) (by grind)
      fun m hm m' _ hmm => by
        cases hmm
        exact ih m (hn.listNode m.2)
  | case3 n hkind inner hinner ih =>
    rw [AnalysisM.declaredType, hkind]
    dsimp only
    split
    · next m hm =>
      rw [hinner] at hm
      cases hm
      refine (ih (hn.childNode? hinner)).bind (by grind) fun u v huv => ?_
      exact types (UnionType.tallies_withNull x.siblings huv)
    · next hnone =>
      rw [hinner] at hnone
      cases hnone
  | case6 n hkind =>
    rw [AnalysisM.declaredType, hkind]
    refine (classOfName hn hkind).bind (by grind) fun name _ hname => ?_
    obtain ⟨rfl, hname⟩ := hname
    exact (types (tallies_classType x.siblings ⟨rfl, hname, hname⟩)).bind (by grind)
      fun i j hij => pure (.of hij)
  | case1 n hkind hint hhint =>
    rw [AnalysisM.declaredType, hkind]
    simp only [hhint]
    exact pure (x.siblings.sameTypes_native _)
  | case2 n hkind hhint =>
    rw [AnalysisM.declaredType, hkind]
    simp only [hhint]
    exact fail _ _
  | case4 n hkind hinner =>
    rw [AnalysisM.declaredType, hkind]
    dsimp only
    split
    · next m hm =>
      rw [hinner] at hm
      cases hm
    · exact required fun _ _ => fail _ _
  | case7 n h₁ h₂ h₃ h₄ =>
    rw [AnalysisM.declaredType]
    split <;> first | contradiction | exact fail _ _

theorem declaredTypeIn (hn : n.Fits r) (slot : String) :
    x.Tallies (x.left.SameTypes x.right) (declaredTypeIn x.context n slot)
      (AnalysisM.declaredTypeIn x.context n slot) := by
  unfold AnalysisM.declaredTypeIn
  split
  · next m hm => exact declaredType (hn.childNode? hm)
  · exact pure .empty

end Tallies

end Comparison

end UnionInference
