import Mathlib.Logic.Function.Iterate
import UnionInference.Proofs.Types.Casting
import UnionInference.Proofs.Types.Grounded
import UnionInference.Types.Expand
import UnionInference.Types.Template

/-!
Walks down into types come to an end. Here every walk is taken apart into one level of it, which says
nothing about why it ends: what the walk finds out about other types is a parameter. A level asks
only about types that stand before its own, since these are what a type is made of. So when levels are
stacked higher than the place of the type, what stands at the bottom is never asked for, and the
stack does what the walk does. This holds for walks that store types on their way too, because a type
that is stored moves nothing that was there.
-/

namespace UnionInference

/-! ### Levels -/

section

variable {ι α : Type} {level : (ι → α) → ι → α} {size : ι → Nat} {run : ι → α}

/-- A recursion, told by one level of it, ends in what the run does: whatever stands at the bottom,
enough levels give the same. -/
def EndsIn (level : (ι → α) → ι → α) (size : ι → Nat) (run : ι → α) : Prop :=
  ∀ (bottom : ι → α) (n : Nat) (i : ι), size i < n → level^[n] bottom i = run i

/-- It suffices that a level asks about smaller things only. -/
theorem endsIn_of_level
    (hlevel : ∀ (f : ι → α) (i : ι), (∀ j, size j < size i → f j = run j) → level f i = run i) :
    EndsIn level size run := by
  intro bottom n
  induction n with
  | zero => exact fun _ hi => absurd hi (Nat.not_lt_zero _)
  | succ n ih =>
    intro i hi
    rw [Function.iterate_succ_apply']
    exact hlevel _ i fun j hj => ih j (Nat.lt_of_lt_of_le hj (Nat.le_of_lt_succ hi))

end

section

variable {α β : Type} {m : Type → Type} [Monad m]

theorem mapM_attach [LawfulMonad m] {as : List α} {f : { a // a ∈ as } → m β} {g : α → m β}
    (h : ∀ a, f a = g a.1) : as.attach.mapM f = as.mapM g := by
  rw [funext h]
  conv_rhs => rw [← List.attach_map_subtype_val as, List.mapM_map]
  rfl

/-- Only what a step does for the elements of the list matters. -/
theorem foldlM_congr {as : List α} {f g : β → α → m β} (h : ∀ a ∈ as, ∀ b, f b a = g b a)
    (init : β) : as.foldlM f init = as.foldlM g init := by
  induction as generalizing init with
  | nil => rfl
  | cons a as ih =>
    obtain ⟨ha, has⟩ := List.forall_mem_cons.1 h
    rw [List.foldlM_cons, List.foldlM_cons, ha]
    exact congrArg (g init a >>= ·) (funext fun b => ih has b)

theorem foldlM_attach {as : List α} {f : β → { a // a ∈ as } → m β} {g : β → α → m β}
    (h : ∀ b a, f b a = g b a.1) (init : β) : as.attach.foldlM f init = as.foldlM g init := by
  rw [funext fun b => funext (h b)]
  conv_rhs => rw [← List.attach_map_subtype_val as, List.foldlM_map]

end

namespace TypeM

theorem fetch_bind {α : Type} (id : TypeId) (k : Ty → TypeM α) :
    (fetch id >>= k) = fetchBelow id >>= fun ty => k ty.1 := by
  funext t
  rw [bind_apply, bind_apply, fetch, fetchBelow, query, query, TypeTable.fetch]
  cases t.fetchBelow id <;> rfl

end TypeM

/-! ### Casting -/

namespace TypeTable

variable {t : TypeTable}

/-- One level of casting: of the types that the two types are made of it is told whether they cast. -/
def castLevel (t : TypeTable) (cast : TypeId × TypeId → Checked Bool) (p : TypeId × TypeId) :
    Checked Bool :=
  if p.1 = p.2 then .ok true
  else do
    let s ← t.fetch p.1
    let d ← t.fetch p.2
    if d.isNative .mixed || s.isNative .mixed then return true
    else if s.isNative .null then return d.admitsNull || t.nullCasts
    else if s.nullable && !d.admitsNull && !t.nullCasts then return false
    else castsKind t.nullCasts s.kind d.kind fun a _ b => cast (a, b)

theorem endsIn_castLevel (t : TypeTable) :
    EndsIn t.castLevel Prod.fst fun p => t.canCast p.1 p.2 := by
  refine endsIn_of_level fun cast p hcast => ?_
  rw [castLevel, canCast]
  split
  · rfl
  · rw [fetch]
    cases t.fetchBelow p.1 with
    | error v => rfl
    | ok s =>
      -- the parts of the source stand before it
      have hparts : (fun (a : TypeId) (_ : a ∈ s.1.kind.embedded) (b : TypeId) => cast (a, b)) =
          fun a _ b => t.canCast a b :=
        funext fun a => funext fun ha => funext fun b => hcast (a, b) (s.2 a ha)
      show (t.fetch p.2 >>= _) = (t.fetch p.2 >>= _)
      rw [hparts]

/-! ### Finding placeholders -/

/-- One level of finding placeholders. -/
def collectLevel (t : TypeTable) (collect : List String × TypeId → Checked (List String))
    (p : List String × TypeId) : Checked (List String) := do
  let ty ← t.fetch p.2
  match ty.kind with
  | .template name => return addName p.1 name
  | kind => kind.embedded.foldlM (fun found e => collect (found, e)) p.1

theorem endsIn_collectLevel (t : TypeTable) :
    EndsIn t.collectLevel Prod.snd fun p => t.collectTemplates p.1 p.2 := by
  refine endsIn_of_level fun collect p hcollect => ?_
  rw [collectLevel, collectTemplates, fetch]
  cases t.fetchBelow p.2 with
  | error v => rfl
  | ok ty =>
    have hparts : ty.1.kind.embedded.foldlM (fun found e => collect (found, e)) p.1 =
        ty.1.kind.embedded.attach.foldlM (fun found e => t.collectTemplates found e.1) p.1 :=
      (foldlM_attach (fun found e => (hcollect (found, e.1) (ty.2 e.1 e.2)).symm) p.1).symm
    rcases ty with ⟨⟨kind, nullable⟩, below⟩
    cases kind with
    | template name => rfl
    | _ => exact hparts

/-! ### Arrays of objects -/

/-- One level of looking for a class below arrays. -/
def isArrayOfClassLevel (t : TypeTable) (isArrayOfClass : TypeId → Checked Bool) (id : TypeId) :
    Checked Bool := do
  let ty ← t.fetch id
  match ty.kind with
  | .array _ element =>
    if (← t.fetch element).className?.isSome then return true else isArrayOfClass element
  | _ => return false

theorem endsIn_isArrayOfClassLevel (t : TypeTable) :
    EndsIn t.isArrayOfClassLevel id t.isArrayOfClass := by
  refine endsIn_of_level fun next i hnext => ?_
  rw [isArrayOfClassLevel, isArrayOfClass, fetch]
  cases t.fetchBelow i with
  | error v => rfl
  | ok ty =>
    rcases ty with ⟨⟨kind, nullable⟩, below⟩
    cases kind with
    | array key element =>
      have helement : next element = t.isArrayOfClass element :=
        hnext element (below element List.mem_cons_self)
      show (t.fetch element >>= _) = (t.fetch element >>= _)
      rw [helement]
    | _ => rfl

end TypeTable

/-! ### Putting types in the places of placeholders -/

namespace TypeM

/-- One level of replacing placeholders. -/
def substituteLevel (m : TemplateMap) (substitute : TypeId → TypeM UnionType) (id : TypeId) :
    TypeM UnionType := do
  let ty ← fetch id
  match ty.kind with
  | .template name =>
    match m.get? name with
    | some bound => if ty.nullable then bound.withNull else return bound
    | none => return .of id
  | .array key element =>
    let elements ← substitute element
    elements.orMixed.mapMembers fun e => array key e ty.nullable
  | .shape fields =>
    let fields ← fields.mapM fun f => do
      let type ← f.2.type.bindMembers fun a _ => substitute a
      return (f.1, { f.2 with type })
    return .of (← intern (.shape (ShapeFields.ofList fields)) ty.nullable)
  | .object name args =>
    if args.isEmpty then return .of id
    else
      let args ← args.mapM fun arg => arg.bindMembers fun a _ => substitute a
      return .of (← make name.space name.name args ty.nullable)
  | .callable sig =>
    let params ← sig.params.mapM fun p => do
      let type ← p.type.bindMembers fun a _ => substitute a
      return { p with type }
    let result ← sig.result.bindMembers fun a _ => substitute a
    return .of (← intern (.callable { sig with params, result }) ty.nullable)
  | _ => return .of id

theorem bindMembers_congr {u : UnionType} {f g : (a : TypeId) → a ∈ u.members → TypeM UnionType}
    (h : ∀ a ha, f a ha = g a ha) : u.bindMembers f = u.bindMembers g :=
  congrArg u.bindMembers (funext fun a => funext (h a))

theorem substituteLevel_eq {m : TemplateMap} {next : TypeId → TypeM UnionType} {i : TypeId}
    (hnext : ∀ j < i, next j = substitute m j) : substituteLevel m next i = substitute m i := by
  rw [substituteLevel, substitute, fetch_bind]
  refine congrArg (fetchBelow i >>= ·) (funext fun ⟨⟨kind, nullable⟩, below⟩ => ?_)
  have hpart : ∀ e ∈ kind.embedded, next e = substitute m e := fun e he => hnext e (below e he)
  cases kind with
  | array key element =>
    show (next element >>= _) = (substitute m element >>= _)
    rw [hpart element List.mem_cons_self]
  | shape fields =>
    have hfields : fields.mapM (fun f => do
          let type ← f.2.type.bindMembers fun a _ => next a
          return (f.1, { f.2 with type })) =
        fields.attach.mapM fun f => do
          let type ← f.1.2.type.bindMembers fun a _ => substitute m a
          return (f.1.1, { f.1.2 with type }) := by
      refine (mapM_attach fun f => ?_).symm
      rw [bindMembers_congr fun a ha => (hpart a (List.mem_flatMap.2 ⟨f.1, f.2, ha⟩)).symm]
    exact congrArg (· >>= _) hfields
  | object name args =>
    have hargs : args.mapM (fun arg => arg.bindMembers fun a _ => next a) =
        args.attach.mapM fun arg => arg.1.bindMembers fun a _ => substitute m a := by
      refine (mapM_attach fun arg => ?_).symm
      exact bindMembers_congr fun a ha =>
        (hpart a (List.mem_flatMap.2 ⟨arg.1, arg.2, ha⟩)).symm
    show (if args.isEmpty then _ else args.mapM _ >>= _) = if args.isEmpty then _ else _
    rw [hargs]
  | callable sig =>
    have hparams : sig.params.mapM (fun p => do
          let type ← p.type.bindMembers fun a _ => next a
          return { p with type }) =
        sig.params.attach.mapM fun p => do
          let type ← p.1.type.bindMembers fun a _ => substitute m a
          return { p.1 with type } := by
      refine (mapM_attach fun p => ?_).symm
      rw [bindMembers_congr fun a ha =>
        (hpart a (List.mem_append_left _ (List.mem_flatMap.2 ⟨p.1, p.2, ha⟩))).symm]
    have hresult : (sig.result.bindMembers fun a _ => next a) =
        sig.result.bindMembers fun a _ => substitute m a :=
      bindMembers_congr fun a ha => hpart a (List.mem_append_right _ ha)
    show (sig.params.mapM _ >>= fun params => sig.result.bindMembers _ >>= _) = _
    rw [hparams, hresult]
  | _ => rfl

theorem endsIn_substituteLevel (m : TemplateMap) :
    EndsIn (substituteLevel m) id (substitute m) :=
  endsIn_of_level fun _ _ => substituteLevel_eq

/-! ### Putting a class in place of what stands for it -/

/-- One level of replacing the types that stand for the class the code belongs to. -/
def resolveStaticLevel (owner : TypeId) (resolveStatic : TypeId → TypeM TypeId) (id : TypeId) :
    TypeM TypeId := do
  let ty ← fetch id
  if ty.isStaticLike then withNull owner ty.nullable
  else
    match ty.kind with
    | .array key element =>
      let element ← resolveStatic element
      array key element ty.nullable
    | .shape fields =>
      let fields ← fields.mapM fun f => do
        let members ← f.2.type.members.mapM resolveStatic
        return (f.1, { f.2 with type := UnionType.ofList members })
      intern (.shape (ShapeFields.ofList fields)) ty.nullable
    | _ => return id

theorem resolveStaticLevel_eq {owner : TypeId} {next : TypeId → TypeM TypeId} {i : TypeId}
    (hnext : ∀ j < i, next j = resolveStatic owner j) :
    resolveStaticLevel owner next i = resolveStatic owner i := by
  rw [resolveStaticLevel, resolveStatic, fetch_bind]
  refine congrArg (fetchBelow i >>= ·) (funext fun ⟨⟨kind, nullable⟩, below⟩ => ?_)
  have hpart : ∀ e ∈ kind.embedded, next e = resolveStatic owner e :=
    fun e he => hnext e (below e he)
  dsimp only
  split
  · rfl
  · cases kind with
    | array key element =>
      show (next element >>= _) = (resolveStatic owner element >>= _)
      rw [hpart element List.mem_cons_self]
    | shape fields =>
      have hfields : fields.mapM (fun f => do
            let members ← f.2.type.members.mapM next
            return (f.1, { f.2 with type := UnionType.ofList members })) =
          fields.attach.mapM fun f => do
            let members ← f.1.2.type.members.attach.mapM fun a => resolveStatic owner a.1
            return (f.1.1, { f.1.2 with type := UnionType.ofList members }) := by
        refine (mapM_attach fun f => ?_).symm
        rw [mapM_attach fun a => (hpart a.1 (List.mem_flatMap.2 ⟨f.1, f.2, a.2⟩)).symm]
      exact congrArg (· >>= _) hfields
    | _ => rfl

theorem endsIn_resolveStaticLevel (owner : TypeId) :
    EndsIn (resolveStaticLevel owner) id (resolveStatic owner) :=
  endsIn_of_level fun _ _ => resolveStaticLevel_eq

end TypeM

/-! ### Learning what placeholders stand for -/

namespace UnionType

/-- One more than the last place of a member. -/
def reach (u : UnionType) : Nat := u.members.foldr (fun i n => max (i + 1) n) 0

theorem reach_le_iff {u : UnionType} {n : Nat} : u.reach ≤ n ↔ ∀ i ∈ u.members, i < n := by
  unfold reach
  induction u.members with
  | nil => simp
  | cons i is ih => rw [List.foldr_cons, Nat.max_le, ih, List.forall_mem_cons, Nat.succ_le_iff]

theorem lt_reach {u : UnionType} {i : TypeId} (hi : i ∈ u.members) : i < u.reach :=
  reach_le_iff.1 (Nat.le_refl _) i hi

/-- One level of learning what placeholders stand for: the declared types, the actual types and what
is known so far. -/
def bindLevel (bind : UnionType × UnionType × TemplateMap → TypeM TemplateMap)
    (p : UnionType × UnionType × TemplateMap) : TypeM TemplateMap :=
  let (declared, actual, m) := p
  if actual.isEmpty then return m
  else
    declared.members.foldlM (fun m id => do
      let ty ← TypeM.fetch id
      match ty.kind with
      | .template name =>
        let bound ← (← actual.widenLiterals).withoutNull
        return m.add name bound
      | .array _ element =>
        let elements ← (← TypeM.query actual.elementTypes).widenLiterals
        bind (.of element, elements, m)
      | .object name params =>
        if params.isEmpty then return m
        else
          actual.members.foldlM (fun m candidate => do
            match (← TypeM.fetch candidate).kind with
            | .object other args =>
              if other.sameClass name then
                (params.zip args).foldlM (fun m q => bind (q.1, q.2, m)) m
              else return m
            | _ => return m) m
      | _ => return m) m

theorem bindTemplates_of (element : TypeId) (actual : UnionType) (m : TemplateMap) :
    (of element).bindTemplates actual m = TypeM.bindType actual m element := by
  rw [bindTemplates, members_of, List.foldlM_cons]
  exact bind_pure _

/-- Nothing is learned where there is nothing. -/
theorem bindTemplates_of_isEmpty {actual : UnionType} (h : actual.isEmpty = true)
    (declared : UnionType) (m : TemplateMap) : declared.bindTemplates actual m = pure m := by
  unfold bindTemplates
  induction declared.members generalizing m with
  | nil => rfl
  | cons i is ih =>
    rw [List.foldlM_cons, TypeM.bindType, if_pos h, pure_bind]
    exact ih m

/-- The arguments of a class are learned from one by one. -/
theorem foldlM_zip_attach {params args : List UnionType}
    {bind : UnionType × UnionType × TemplateMap → TypeM TemplateMap}
    (h : ∀ u ∈ params, ∀ v m, bind (u, v, m) = u.bindTemplates v m) (m : TemplateMap) :
    (params.zip args).foldlM (fun m q => bind (q.1, q.2, m)) m =
      (params.attach.zip args).foldlM (fun m q =>
        q.1.1.members.attach.foldlM (fun m d => TypeM.bindType q.2 m d.1) m) m := by
  rw [← map_attach_zip params args, List.foldlM_map]
  refine foldlM_congr (fun q _ m => ?_) m
  refine (h q.1.1 q.1.2 q.2 m).trans ?_
  exact (foldlM_attach (fun _ _ => rfl) m).symm

theorem bindLevel_eq {next : UnionType × UnionType × TemplateMap → TypeM TemplateMap}
    {declared : UnionType}
    (hnext : ∀ q, q.1.reach < declared.reach → next q = q.1.bindTemplates q.2.1 q.2.2)
    (actual : UnionType) (m : TemplateMap) :
    bindLevel next (declared, actual, m) = declared.bindTemplates actual m := by
  unfold bindLevel
  dsimp only
  by_cases hempty : actual.isEmpty = true
  · rw [if_pos hempty, bindTemplates_of_isEmpty hempty]
  rw [if_neg hempty, bindTemplates]
  refine foldlM_congr (fun i hi m => ?_) m
  rw [TypeM.bindType, if_neg hempty, TypeM.fetch_bind]
  refine congrArg (TypeM.fetchBelow i >>= ·) (funext fun ⟨⟨kind, nullable⟩, below⟩ => ?_)
  -- unions of parts of a member reach less far
  have hpart : ∀ (u v : UnionType) (m : TemplateMap), (∀ e ∈ u.members, e ∈ kind.embedded) →
      next (u, v, m) = u.bindTemplates v m := fun u v m hu =>
    hnext (u, v, m) (Nat.lt_of_le_of_lt (reach_le_iff.2 fun e he => below e (hu e he)) (lt_reach hi))
  cases kind with
  | array key element =>
    have helement : ∀ elements, next (of element, elements, m) =
        TypeM.bindType elements m element := fun elements =>
      (hpart (of element) elements m fun e he => by
        rw [members_of] at he
        exact he).trans (bindTemplates_of element elements m)
    show (TypeM.query actual.elementTypes >>= fun v => v.widenLiterals >>= fun elements =>
      next (of element, elements, m)) = _
    rw [funext helement]
  | object name params =>
    have hparams : ∀ u ∈ params, ∀ v m, next (u, v, m) = u.bindTemplates v m := fun u hu v m =>
      hpart u v m fun e he => List.mem_flatMap.2 ⟨u, hu, he⟩
    dsimp only
    split
    · rfl
    · refine foldlM_congr (fun candidate _ m => ?_) m
      refine congrArg (TypeM.fetch candidate >>= ·) (funext fun ⟨found, _⟩ => ?_)
      cases found with
      | object other args =>
        dsimp only
        rw [foldlM_zip_attach hparams]
      | _ => rfl
  | _ => rfl

theorem endsIn_bindLevel :
    EndsIn bindLevel (fun p => p.1.reach) fun p => p.1.bindTemplates p.2.1 p.2.2 :=
  endsIn_of_level fun _ p hnext => bindLevel_eq hnext p.2.1 p.2.2

end UnionType

/-- Walks down into types end in every table that requests lead to, resets among them. The table
holds what the bare rows hold that answer the same requests. A type that is not made of types that
are there is refused, and whatever is refused is not stored; hence all that lies inside a type stands
before it. So casting, replacing placeholders, putting a class in place of what stands for it, finding
placeholders, learning what they stand for and looking for a class below arrays all come to an end,
though some of them store types while they walk. -/
theorem walks_end (nullCasts : Bool) (requests : List TableRequest) :
    let t := requests.foldl TypeTable.serve (.initial nullCasts)
    let r := TypeRows.served requests
    t.rows = r ∧
      (∀ (q : TypeRequest) (v : Violation), (r.answer q).1 = .error v → (r.answer q).2 = r) ∧
      (∀ (kind : TypeKind) (nullable : Bool), (∀ e ∈ kind.embedded, e < r.entries.size) ∨
        ∃ v, r.intern kind nullable = (.error v, r)) ∧
      (∀ e id : TypeId, Relation.TransGen r.Embeds e id → e < id ∧ id < r.entries.size) ∧
      EndsIn t.castLevel Prod.fst (fun p => t.canCast p.1 p.2) ∧
      (∀ m : TemplateMap, EndsIn (TypeM.substituteLevel m) id (TypeM.substitute m)) ∧
      (∀ owner : TypeId, EndsIn (TypeM.resolveStaticLevel owner) id (TypeM.resolveStatic owner)) ∧
      EndsIn t.collectLevel Prod.snd (fun p => t.collectTemplates p.1 p.2) ∧
      EndsIn UnionType.bindLevel (fun p => p.1.reach) (fun p => p.1.bindTemplates p.2.1 p.2.2) ∧
      EndsIn t.isArrayOfClassLevel id t.isArrayOfClass := by
  intro t r
  have hrows : t.rows = r := TypeTable.rows_served nullCasts requests
  refine ⟨hrows, fun _ _ => TypeRows.answer_of_error, ?_, ?_, TypeTable.endsIn_castLevel t,
    TypeM.endsIn_substituteLevel, TypeM.endsIn_resolveStaticLevel, TypeTable.endsIn_collectLevel t,
    UnionType.endsIn_bindLevel, TypeTable.endsIn_isArrayOfClassLevel t⟩
  · rw [← hrows]
    exact t.intern_rows_cases
  · rw [← hrows]
    exact fun _ _ => t.lt_of_embeds

/-- Arrays of arrays of integers, an array of a type that is not there, and after a reset an array
that is made of a place that is free now. -/
def nestedRequests : List TableRequest :=
  [.ask (.array .mixed NativeKind.int.id false), .ask (.array .int 31 true),
    .ask (.array .mixed 99 false), .reset, .ask (.array .string 31 false)]

theorem walks_end_nested :
    (nestedRequests.foldl TypeTable.serve (.initial true)).rows = .served nestedRequests ∧
      ∀ e id : TypeId, Relation.TransGen (TypeRows.served nestedRequests).Embeds e id → e < id := by
  obtain ⟨hrows, -, -, hembeds, -⟩ := walks_end true nestedRequests
  exact ⟨hrows, fun e id h => (hembeds e id h).1⟩

end UnionInference
