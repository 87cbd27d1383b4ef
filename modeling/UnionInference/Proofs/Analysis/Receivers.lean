import UnionInference.Proofs.Analysis.Tracing
import UnionInference.Proofs.Types.Arrays

/-!
The classes of a receiver. Where they exist, the list of the classes of a receiver's type has the class
of every member but closures, each once and in the order of the members; the types of the class that the
code belongs to stand for that class. The class of closures is left out unless another member names it,
although it is the class that a closure is said to have.
-/

namespace UnionInference

/-! ### Names, each once -/

/-- The names of the list, each once up to letter case. -/
def distinctClasses (names : List ClassName) : List ClassName := names.foldl UnionType.addClass []

/-- The names are those of the list, each once up to letter case, in the order of the list. -/
structure ListsOnce (names wanted : List ClassName) : Prop where
  sublist : names.Sublist wanted
  nodup : (names.map QualifiedName.fold).Nodup
  covers : ∀ name ∈ wanted, name.fold ∈ names.map QualifiedName.fold

namespace UnionType

variable {names : List ClassName} {name x : ClassName} {key : QualifiedName}

theorem any_sameClass_iff : names.any name.sameClass = true ↔ name.fold ∈ names.map QualifiedName.fold := by
  rw [List.any_eq_true, List.mem_map]
  exact exists_congr fun x => and_congr_right fun _ => beq_iff_eq.trans eq_comm

theorem mem_fold_addClass : key ∈ (addClass names name).map QualifiedName.fold ↔
    key ∈ names.map QualifiedName.fold ∨ key = name.fold := by
  unfold addClass
  split
  · next hany =>
    refine ⟨.inl, fun h => h.elim id ?_⟩
    rintro rfl
    exact any_sameClass_iff.1 hany
  · rw [List.map_append, List.mem_append, List.map_singleton, List.mem_singleton]

theorem nodup_addClass (h : (names.map QualifiedName.fold).Nodup) (name : ClassName) :
    ((addClass names name).map QualifiedName.fold).Nodup := by
  unfold addClass
  split
  · exact h
  · next hany =>
    rw [List.map_append, List.map_singleton, ← List.concat_eq_append]
    exact h.concat (mt any_sameClass_iff.2 hany)

theorem addClass_sublist (names : List ClassName) (name : ClassName) :
    (addClass names name).Sublist (names ++ [name]) := by
  unfold addClass
  split
  · exact List.sublist_append_left names [name]
  · exact List.Sublist.refl _

end UnionType

/-- Adding names one by one keeps what is listed, and lists the names each once. -/
theorem listsOnce_foldl {names seen : List ClassName} (h : ListsOnce names seen) (more : List ClassName) :
    ListsOnce (more.foldl UnionType.addClass names) (seen ++ more) := by
  induction more generalizing names seen with
  | nil => rwa [List.append_nil]
  | cons name more ih =>
    have hstep : ListsOnce (UnionType.addClass names name) (seen ++ [name]) := by
      refine ⟨?_, UnionType.nodup_addClass h.nodup name, fun x hx => ?_⟩
      · exact (UnionType.addClass_sublist names name).trans (h.sublist.append_right [name])
      · rcases List.mem_append.1 hx with hx | hx
        · exact UnionType.mem_fold_addClass.2 (.inl (h.covers x hx))
        · exact UnionType.mem_fold_addClass.2 (.inr (List.mem_singleton.1 hx ▸ rfl))
    have hmore := ih hstep
    rwa [List.append_assoc, List.singleton_append] at hmore

theorem listsOnce_distinctClasses (wanted : List ClassName) :
    ListsOnce (distinctClasses wanted) wanted :=
  listsOnce_foldl ⟨.slnil, List.nodup_nil, nofun⟩ wanted

/-! ### The classes of types -/

/-- The types of the members that the table has, in order. -/
def UnionType.typesIn (u : UnionType) (t : TypeTable) : List Ty := u.members.filterMap t.get?

/-- Whether it is the type of a closure object. -/
def Ty.isClosure (ty : Ty) : Bool :=
  match ty.kind with
  | .callable sig => sig.isClosure
  | _ => false

/-- The class of closure objects. -/
def closureClass : ClassName := .make "\\" "Closure"

/-- The class that a type is said to have, or the one that the code belongs to. -/
def Context.classOf (c : Context) (ty : Ty) : Option ClassName :=
  if ty.isStaticLike then c.owner else ty.className?

variable {c : Context} {ty : Ty}

theorem Context.classOf_of_isClosure (h : ty.isClosure = true) : c.classOf ty = some closureClass := by
  obtain ⟨kind, nullable⟩ := ty
  cases kind with
  | callable sig =>
    have hsig : sig.isClosure = true := h
    simp [classOf, Ty.isStaticLike, Ty.className?, hsig, closureClass]
  | _ => cases h

/-- A receiver denotes the class of its type unless it is a closure. -/
theorem AnalysisM.receiverClass_eq (c : Context) (ty : Ty) :
    receiverClass c ty = if ty.isClosure then none else c.classOf ty := by
  obtain ⟨kind, nullable⟩ := ty
  cases kind with
  | native k => cases k <;> rfl
  | callable sig =>
    cases hsig : sig.isClosure <;>
      simp [receiverClass, Ty.isClosure, Context.classOf, Ty.isStaticLike, Ty.className?, hsig]
  | _ => rfl

/-! ### The list of the classes -/

theorem CodeBase.isRegistered_addClass {b : CodeBase} (h : b.classes.Valid) (d : ClassDecl) :
    (b.addClass d).isRegistered d.name = true := by
  have hclass : (b.addClass d).class? d.name = some d := (class?_addClass h d d.name).trans (if_pos rfl)
  obtain ⟨e, he, -⟩ := Option.map_eq_some_iff.1 hclass
  have hvalid : (b.addClass d).classes.Valid := h.insert _ _
  rw [isRegistered, hvalid.contains_eq_isSome, he]
  rfl

/-- A class that is registered exists as the code base is. -/
theorem CodeBase.hasClass_of_isRegistered {b : CodeBase} {name : ClassName}
    (h : b.isRegistered name = true) : hasClass name b = (true, b) := by
  show loadClass b.resolver [] name b = _
  rw [loadClass.eq_def]
  show (if b.isRegistered name then (pure true : BaseM Bool) else _) b = _
  rw [if_pos h]
  rfl

namespace AnalysisM

variable {s : Setup} {w : World} {missing : ClassName → IssueKind × Nat × List String}
  {u : UnionType}

/-- Classes that exist are added to the list one by one. -/
theorem foldlM_receivers {step : List ClassName → TypeId → AnalysisM (List ClassName)}
    {ids : List TypeId} (hids : ∀ i ∈ ids, i < w.types.size)
    (hstep : ∀ i ∈ ids, ∀ ty, w.types.get? i = some ty → ∀ found, step found i s w =
      .ok (.ok ((receiverClass c ty).elim found (UnionType.addClass found)), w))
    (found : List ClassName) :
    ids.foldlM step found s w = .ok (.ok
      (((ids.filterMap w.types.get?).filterMap (receiverClass c)).foldl UnionType.addClass found), w) := by
  induction ids generalizing found with
  | nil => rfl
  | cons i ids ih =>
    rw [List.forall_mem_cons] at hids hstep
    obtain ⟨ty, hty⟩ := TypeTable.exists_get? hids.1
    rw [List.foldlM_cons, bind_of_ok (hstep.1 ty hty found), ih hids.2 hstep.2,
      List.filterMap_cons_some hty]
    cases hclass : receiverClass c ty with
    | none => rw [List.filterMap_cons_none hclass, Option.elim_none]
    | some name => rw [List.filterMap_cons_some hclass, Option.elim_some, List.foldl_cons]

/-- A receiver whose classes exist has the list of the classes that its members denote. -/
theorem classListWith_eq (hu : ∀ i ∈ u.members, i < w.types.size)
    (hknown : ∀ ty ∈ u.typesIn w.types, ∀ name, receiverClass c ty = some name →
      w.base.isRegistered name = true) :
    classListWith c missing u s w =
      .ok (.ok (distinctClasses ((u.typesIn w.types).filterMap (receiverClass c))), w) := by
  refine foldlM_receivers hu (fun i hi ty hty found => ?_) []
  have hfetch : query (fun t => t.fetch i) s w = .ok (.ok ty, w) :=
    query_eq_ok.2 ⟨ty, TypeTable.fetch_of_get? hty, rfl, rfl⟩
  rw [bind_of_ok hfetch]
  cases hclass : receiverClass c ty with
  | none => rfl
  | some name =>
    have hhas : hasClass name s w = .ok (.ok true, w) :=
      base_of_eq (CodeBase.hasClass_of_isRegistered
        (hknown ty (List.mem_filterMap.2 ⟨i, hi, hty⟩) name hclass))
    dsimp only [Option.elim_some, UnionType.addClass]
    split
    · rfl
    · exact bind_of_ok hhas

/-- A receiver whose classes exist has the list of the classes of its members other than closures. It
has the class of every member unless the class of closures, which none of them names, is missing. -/
theorem classListWith_listsOnce (hu : ∀ i ∈ u.members, i < w.types.size)
    (hknown : ∀ ty ∈ u.typesIn w.types, ∀ name, c.classOf ty = some name →
      w.base.isRegistered name = true) :
    ∃ names, classListWith c missing u s w = .ok (.ok names, w) ∧
      names = distinctClasses (((u.typesIn w.types).filter (!·.isClosure)).filterMap c.classOf) ∧
      (ListsOnce names ((u.typesIn w.types).filterMap c.classOf) ↔
        ∀ ty ∈ u.typesIn w.types, ty.isClosure = true → ∃ other ∈ u.typesIn w.types,
          other.isClosure = false ∧ (c.classOf other).map QualifiedName.fold = some closureClass.fold) := by
  let types := u.typesIn w.types
  let others := types.filter fun ty => !ty.isClosure
  have hothers : types.filterMap (receiverClass c) = others.filterMap c.classOf := by
    rw [List.filterMap_filter]
    refine List.filterMap_congr fun ty _ => (receiverClass_eq c ty).trans ?_
    cases ty.isClosure <;> rfl
  have hlists := listsOnce_distinctClasses (others.filterMap c.classOf)
  refine ⟨_, ?_, rfl, fun h ty hty hclosure => ?_, fun h => ⟨?_, hlists.nodup, fun name hname => ?_⟩⟩
  · rw [← hothers]
    refine classListWith_eq hu fun ty hty name hname => hknown ty hty name ?_
    rw [receiverClass_eq] at hname
    split at hname
    · cases hname
    · exact hname
  · have hwanted : closureClass ∈ types.filterMap c.classOf :=
      List.mem_filterMap.2 ⟨ty, hty, Context.classOf_of_isClosure hclosure⟩
    obtain ⟨name, hname, hfold⟩ := List.mem_map.1 (h.covers closureClass hwanted)
    obtain ⟨other, hother, hclass⟩ := List.mem_filterMap.1 (hlists.sublist.mem hname)
    obtain ⟨hother, hnot⟩ := List.mem_filter.1 hother
    exact ⟨other, hother, by simpa using hnot, by rw [hclass, Option.map_some, hfold]⟩
  · exact hlists.sublist.trans (List.filter_sublist.filterMap _)
  · -- the class of a closure is covered by the member that names it
    have hcovers : ∀ ty ∈ types, ∀ x, ty.isClosure = false → c.classOf ty = some x →
        x.fold ∈ (distinctClasses (others.filterMap c.classOf)).map QualifiedName.fold :=
      fun ty hty x hnot hx => hlists.covers x
        (List.mem_filterMap.2 ⟨ty, List.mem_filter.2 ⟨hty, by rw [hnot]; rfl⟩, hx⟩)
    obtain ⟨ty, hty, hclass⟩ := List.mem_filterMap.1 hname
    cases hclosure : ty.isClosure with
    | false => exact hcovers ty hty name hclosure hclass
    | true =>
      obtain ⟨other, hother, hnot, hfold⟩ := h ty hty hclosure
      obtain ⟨x, hx, hxfold⟩ := Option.map_eq_some_iff.1 hfold
      have hname : closureClass = name :=
        Option.some.inj ((Context.classOf_of_isClosure hclosure).symm.trans hclass)
      exact hname ▸ hxfold ▸ hcovers other hother x hnot hx

/-- An object of the class `Box` and one of the class around. -/
def boxOrStatic : UnionType := .ofList [31, NativeKind.static.id]

/-- In the class `Box` both are of this class. -/
theorem classListWith_boxOrStatic : ∃ (w : World) (names : List ClassName),
    boxOrStatic.typesIn w.types =
      [⟨.object Evaluator.box.name [], false⟩, ⟨.native .static, false⟩] ∧
    classListWith { outside with owner := some Evaluator.box.name }
      (fun name => (.undeclaredClassReference, 1, [name.text])) boxOrStatic {} w =
        .ok (.ok names, w) ∧
    names = [Evaluator.box.name] ∧ ListsOnce names [Evaluator.box.name, Evaluator.box.name] := by
  let c : Context := { outside with owner := some Evaluator.box.name }
  obtain ⟨t, hlists, -⟩ := Evaluator.exists_boxTable
  have hbox : t.get? 31 = some ⟨.object Evaluator.box.name [], false⟩ :=
    TypeTable.get?_eq (hlists.entry (i := 31) (e := Evaluator.boxRows[0]) rfl)
  have hstatic : t.get? NativeKind.static.id = some ⟨.native .static, false⟩ :=
    TypeTable.get?_eq (hlists.entry (e := TypeTable.nativeEntry (.static, false)) rfl)
  have hmembers : boxOrStatic.members = [31, NativeKind.static.id] := by decide
  have htypes : boxOrStatic.typesIn t =
      [⟨.object Evaluator.box.name [], false⟩, ⟨.native .static, false⟩] := by
    rw [UnionType.typesIn, hmembers, List.filterMap_cons_some hbox, List.filterMap_cons_some hstatic,
      List.filterMap_nil]
  have hin : ∀ i ∈ boxOrStatic.members, i < t.size := by
    rw [hmembers]
    simp [TypeTable.lt_size_of_get? hbox, TypeTable.lt_size_of_get? hstatic]
  have hregistered : Evaluator.boxBase.isRegistered Evaluator.box.name = true :=
    CodeBase.isRegistered_addClass OrderedTable.valid_empty Evaluator.box
  have hknown : ∀ ty ∈ boxOrStatic.typesIn t, ∀ name, c.classOf ty = some name →
      Evaluator.boxBase.isRegistered name = true := by
    rw [htypes]
    simp [Context.classOf, Ty.isStaticLike, Ty.className?, c, hregistered]
  obtain ⟨names, hrun, hnames, hlist⟩ :=
    classListWith_listsOnce (w := Evaluator.boxWorld t) (s := {}) hin hknown
  have hwanted : (boxOrStatic.typesIn t).filterMap c.classOf =
      [Evaluator.box.name, Evaluator.box.name] := by
    rw [htypes]
    rfl
  have hnone : ∀ ty ∈ boxOrStatic.typesIn t, ty.isClosure = false := by
    rw [htypes]
    simp [Ty.isClosure]
  have hothers : (boxOrStatic.typesIn t).filter (fun ty => !ty.isClosure) = boxOrStatic.typesIn t :=
    List.filter_eq_self.2 fun ty hty => by rw [hnone ty hty]; rfl
  refine ⟨Evaluator.boxWorld t, names, htypes, hrun, ?_, hwanted ▸ hlist.2 fun ty hty hclosure => ?_⟩
  · show names = [Evaluator.box.name]
    have hbox : distinctClasses [Evaluator.box.name, Evaluator.box.name] = [Evaluator.box.name] := by
      decide
    exact hnames.trans ((congrArg (fun tys => distinctClasses (tys.filterMap c.classOf)) hothers).trans
      ((congrArg distinctClasses hwanted).trans hbox))
  · cases (hnone ty hty).symm.trans hclosure

/-! ### A closure -/

/-- The class of closures is registered, but a closure has no class in the list, though it has one where
the classes of a type are asked for. -/
theorem not_listsOnce_closure : ∃ (w : World) (i : TypeId) (sig : CallableSignature),
    w.types.get? i = some ⟨.callable sig, false⟩ ∧ sig.isClosure = true ∧
    w.base.isRegistered closureClass = true ∧
    (UnionType.of i).classNames w.types = .ok [closureClass] ∧
    classList outside (.of i) 1 {} w = .ok (.ok [], w) := by
  let kind : TypeKind := .callable ⟨true, [], .native .int⟩
  have hin : ∀ e ∈ kind.embedded, e < (TypeTable.initial false).size := by
    intro e he
    obtain rfl : e = NativeKind.int.id := UnionType.mem_of.1 he
    exact (TypeTable.rooted_initial false).native_lt_size .int
  have hnamed : kind.WellNamed := trivial
  obtain ⟨i, t, found, -, -, hi, halike⟩ :=
    (TypeTable.canonical_initial false).exists_intern hnamed hin
  cases found with
  | callable sig =>
    have hsig : sig.isClosure = true := halike.1
    let closures : ClassDecl := { name := closureClass, type := .native .object }
    let w : World := { types := t, base := (CodeBase.create false).addClass closures }
    refine ⟨w, i, sig, hi, hsig, CodeBase.isRegistered_addClass OrderedTable.valid_empty closures,
      ?_, ?_⟩
    · have hclass : (⟨.callable sig, false⟩ : Ty).className? = some closureClass := if_pos hsig
      rw [UnionType.classNames, UnionType.members_of, List.foldlM_cons, TypeTable.fetch_of_get? hi]
      dsimp only [bind, Except.bind]
      rw [hclass]
      rfl
    · have htypes : (UnionType.of i).typesIn t = [⟨.callable sig, false⟩] := by
        rw [UnionType.typesIn, UnionType.members_of, List.filterMap_cons_some hi, List.filterMap_nil]
      have hin : ∀ j ∈ (UnionType.of i).members, j < t.size :=
        fun j hj => UnionType.mem_of.1 hj ▸ TypeTable.lt_size_of_get? hi
      have hnone : ((UnionType.of i).typesIn t).filterMap (receiverClass outside) = [] := by
        rw [htypes]
        rfl
      refine (classListWith_eq (w := w) hin fun ty hty name hname => ?_).trans ?_
      · rw [htypes, List.mem_singleton] at hty
        rw [hty] at hname
        cases hname
      · rw [hnone]
        rfl
  | _ => exact halike.elim

end AnalysisM

end UnionInference
