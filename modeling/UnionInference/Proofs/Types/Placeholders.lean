import UnionInference.Proofs.Types.Supply

/-!
Template placeholders on sound tables. Putting types in the places of placeholders supplies a union
whose placeholders come from what was put in, or were left over; learning what placeholders stand
for supplies unions whose placeholders come from the actual types. The placeholders that are found
inside a type are those that it holds.
-/

namespace UnionInference

variable {r : Regime} {t t₁ t₂ : TypeTable} {p q : String → Prop} {u v : UnionType} {i : TypeId}

namespace TemplateMap

variable {m : TemplateMap}

@[grind →]
theorem Held.keeps (h : m.Held p t) (hk : t.Keeps t₁) : m.Held p t₁ :=
  fun b hb => (h b hb).keeps hk

theorem held_nil : Held p t [] := fun _ hb => nomatch hb

theorem Held.get? (h : m.Held p t) {name : String} (hu : m.get? name = some u) : u.Held p t := by
  obtain ⟨l₁, l₂, rfl, -⟩ := List.lookup_eq_some_iff.1 hu
  exact h (name, u) (by simp)

theorem Held.add (h : m.Held p t) (name : String) (hu : u.Held p t) : (m.add name u).Held p t := by
  induction m with
  | nil =>
    rintro b (_ | ⟨_, ⟨⟩⟩)
    exact UnionType.held_empty.union hu
  | cons b m ih =>
    have hm : Held p t m := fun c hc => h c (List.mem_cons_of_mem _ hc)
    have hb := h b List.mem_cons_self
    rw [TemplateMap.add]
    split
    · exact List.forall_mem_cons.2 ⟨hb.union hu, hm⟩
    · exact List.forall_mem_cons.2 ⟨hb, ih hm⟩

theorem Held.foldl_add (h : m.Held p t) {bs : List (String × UnionType)}
    (hbs : ∀ b ∈ bs, b.2.Held p t) : (bs.foldl (fun m b => m.add b.1 b.2) m).Held p t := by
  induction bs generalizing m with
  | nil => exact h
  | cons b bs ih =>
    exact ih (h.add b.1 (hbs b List.mem_cons_self)) fun b' hb' =>
      hbs b' (List.mem_cons_of_mem _ hb')

theorem Held.put (h : m.Held p t) (name : String) (hu : u.Held p t) : (m.put name u).Held p t := by
  induction m with
  | nil =>
    rintro b (_ | ⟨_, ⟨⟩⟩)
    exact hu
  | cons b m ih =>
    have hm : Held p t m := fun c hc => h c (List.mem_cons_of_mem _ hc)
    rw [TemplateMap.put]
    split
    · exact List.forall_mem_cons.2 ⟨hu, hm⟩
    · exact List.forall_mem_cons.2 ⟨h b List.mem_cons_self, ih hm⟩

end TemplateMap

namespace ShapeFields

theorem mem_of_mem_ofList {fields : List (ShapeKey × ShapeField)} {f : ShapeKey × ShapeField}
    (h : f ∈ ofList fields) : f ∈ fields := by
  have hloop : ∀ (fs : List (ShapeKey × ShapeField)) (acc : ShapeFields),
      f ∈ fs.foldl (fun fs f => insert fs f.1 f.2) acc → f ∈ acc ∨ f ∈ fs := by
    intro fs
    induction fs with
    | nil => exact fun acc h => .inl h
    | cons g fs ih =>
      intro acc h
      rcases ih _ h with h | h
      · rcases mem_insert h with h | rfl
        · exact .inl h
        · exact .inr List.mem_cons_self
      · exact .inr (List.mem_cons_of_mem _ h)
  exact (hloop fields [] h).resolve_left (by simp)

end ShapeFields

namespace TypeTable

theorem HoldsKind.object {name : ClassName} {args : List UnionType}
    (h : ∀ u ∈ args, u.Held p t) : t.HoldsKind p (.object name args) := by
  refine ⟨fun e he => ?_, by simp⟩
  obtain ⟨u, hu, heu⟩ := List.mem_flatMap.1 he
  exact h u hu e heu

theorem HoldsKind.shape {fields : ShapeFields} (h : ∀ f ∈ fields, f.2.type.Held p t) :
    t.HoldsKind p (.shape fields) := by
  refine ⟨fun e he => ?_, by simp⟩
  obtain ⟨f, hf, hef⟩ := List.mem_flatMap.1 he
  exact h f hf e hef

theorem HoldsKind.callable {sig : CallableSignature} (hparams : ∀ q ∈ sig.params, q.type.Held p t)
    (hresult : sig.result.Held p t) : t.HoldsKind p (.callable sig) := by
  refine ⟨fun e he => ?_, by simp⟩
  rcases List.mem_append.1 he with he | he
  · obtain ⟨q, hq, heq⟩ := List.mem_flatMap.1 he
    exact hparams q hq e heq
  · exact hresult e he

end TypeTable

namespace UnionType

open TypeM

theorem supplies_bindMembers {f : (a : TypeId) → a ∈ u.members → TypeM UnionType} (ht : t.Sound r)
    (hf : ∀ t₁ a ha, t.Keeps t₁ → t₁.Sound r → Supplies r t₁ (f a ha) fun t v => v.Held p t) :
    Supplies r t (u.bindMembers f) fun t₁ v => v.Held p t₁ := by
  refine supplies_foldlM ht held_empty fun result t₁ a _ hk ht₁ hresult => ?_
  exact (hf t₁ a.1 a.2 hk ht₁).map _ fun v t₂ hk₂ _ hv => (hresult.keeps hk₂).union hv

end UnionType

namespace TypeM

/-- A shape whose fields hold other types under the keys of a shape that the table holds. -/
theorem supplies_internShape (hp : Traces r p) (ht : t.Sound r) {fields : ShapeFields}
    (hfit : (TypeKind.shape fields).Fit r) {fields' : List (ShapeKey × ShapeField)}
    (h : List.Forall₂ (fun (f : { f // f ∈ fields }) (g : ShapeKey × ShapeField) =>
      g.1 = f.1.1 ∧ g.2.type.Held p t) fields.attach fields') (nullable : Bool) :
    Supplies r t (intern (.shape (ShapeFields.ofList fields')) nullable)
      fun t₁ i => t₁.Holds p i := by
  have hfield : ∀ g ∈ ShapeFields.ofList fields', ∃ f ∈ fields, g.1 = f.1 ∧ g.2.type.Held p t := by
    intro g hg
    obtain ⟨f, -, hfg⟩ := exists_of_forall₂ h.flip (ShapeFields.mem_of_mem_ofList hg)
    exact ⟨f.1, f.2, hfg⟩
  refine (supplies_intern hp ht (.shape (ShapeFields.ofList fields')) nullable
    (.shape fun g hg => ?_) ?_ (by simp)).imp fun j t₂ _ _ hj => hj.1
  · obtain ⟨f, -, -, hheld⟩ := hfield g hg
    exact hheld
  · intro hs g hg n hn
    obtain ⟨f, hf, hkey, -⟩ := hfield g hg
    exact hfit hs f hf n (hkey ▸ hn)

/-! Putting types in the places of placeholders goes down the parts of a kind. There is one lemma for
each way in which a type can be made of parts. -/

/-- Putting types in the places of placeholders inside a union of parts of the kind supplies a
union. -/
def SuppliesInside (r : Regime) (p : String → Prop) (t : TypeTable) (m : TemplateMap)
    (kind : TypeKind) : Prop :=
  ∀ u : UnionType, (∀ e ∈ u.members, e ∈ kind.embedded) → ∀ t₁, t.Keeps t₁ → t₁.Sound r →
    Supplies r t₁ (u.bindMembers fun a _ => substitute m a) fun t v => v.Held p t

section

variable {m : TemplateMap} {fields : ShapeFields} {c : ClassName} {args : List UnionType}
  {sig : CallableSignature}

/-- A type without parts holds no more than it did. -/
theorem supplies_self (ht : t.Sound r) {ty : Ty} (hty : t.get? i = some ty)
    (hnil : ty.kind.embedded = []) (hname : ∀ s, ty.kind = .template s → p s) :
    Supplies r t (pure (UnionType.of i)) fun t u => u.Held p t :=
  supplies_pure ht (UnionType.held_of (.intro hty (by simp [hnil]) hname))

theorem supplies_shape (hp : Traces r p) (ht : t.Sound r)
    (hinner : SuppliesInside r p t m (.shape fields)) (hfit : (TypeKind.shape fields).Fit r)
    (nullable : Bool) :
    Supplies r t (do
        let fields ← fields.attach.mapM fun f => do
          let type ← f.1.2.type.bindMembers fun a _ => substitute m a
          return (f.1.1, { f.1.2 with type })
        return UnionType.of (← intern (.shape (ShapeFields.ofList fields)) nullable))
      fun t u => u.Held p t := by
  refine (supplies_mapM (P := fun t (f : { f // f ∈ fields }) (g : ShapeKey × ShapeField) =>
    g.1 = f.1.1 ∧ g.2.type.Held p t) (fun _ _ _ _ hk h => ⟨h.1, h.2.keeps hk⟩) ht
    fun t₁ f _ hk ht₁ => ?_).bind fun fields' t₁ _ ht₁ hfields' => ?_
  · exact (hinner f.1.2.type (fun e he => List.mem_flatMap.2 ⟨f.1, f.2, he⟩) t₁ hk ht₁).bind
      fun type t₂ _ ht₂ htype => supplies_pure ht₂ ⟨rfl, htype⟩
  · exact (supplies_internShape hp ht₁ hfit hfields' nullable).bind fun j t₂ _ ht₂ hj =>
      supplies_pure ht₂ (UnionType.held_of hj)

theorem supplies_object (hp : Traces r p) (ht : t.Sound r) {nullable : Bool}
    (hty : t.get? i = some ⟨.object c args, nullable⟩)
    (hinner : SuppliesInside r p t m (.object c args)) (hfit : (TypeKind.object c args).Fit r) :
    Supplies r t (if args.isEmpty then pure (UnionType.of i) else do
        let args ← args.attach.mapM fun arg => arg.1.bindMembers fun a _ => substitute m a
        return UnionType.of (← make c.space c.name args nullable))
      fun t u => u.Held p t := by
  split
  · next hempty =>
    obtain rfl : args = [] := List.isEmpty_iff.1 hempty
    exact supplies_self ht hty rfl (by simp)
  · next hne =>
    refine (supplies_mapM (P := fun t (_ : { u // u ∈ args }) (v : UnionType) => v.Held p t)
      (fun _ _ _ _ hk h => h.keeps hk) ht fun t₁ arg _ hk ht₁ =>
        hinner arg.1 (fun e he => List.mem_flatMap.2 ⟨arg.1, arg.2, he⟩) t₁ hk ht₁).bind
      fun args' t₁ _ ht₁ hargs' => ?_
    have hregular : c.Regular := hfit.2 (.inr (by simpa using hne))
    rw [make_of_typable hregular.typable]
    refine (supplies_intern hp ht₁ (.object c args') nullable (.object fun v hv => ?_)
      ⟨hregular.typable, fun _ => hregular⟩ ?_).bind fun j t₂ _ ht₂ hj =>
        supplies_pure ht₂ (UnionType.held_of hj.1)
    · obtain ⟨_, -, hheld⟩ := exists_of_forall₂ hargs'.flip hv
      exact hheld
    · rintro - _ _ ⟨⟩
      exact .inl hregular

theorem supplies_callable (hp : Traces r p) (ht : t.Sound r)
    (hinner : SuppliesInside r p t m (.callable sig)) (nullable : Bool) :
    Supplies r t (do
        let params ← sig.params.attach.mapM fun p => do
          let type ← p.1.type.bindMembers fun a _ => substitute m a
          return { p.1 with type }
        let result ← sig.result.bindMembers fun a _ => substitute m a
        return UnionType.of (← intern (.callable { sig with params, result }) nullable))
      fun t u => u.Held p t := by
  refine (supplies_mapM (P := fun t (_ : { q // q ∈ sig.params }) (q' : CallableParam) =>
    q'.type.Held p t) (fun _ _ _ _ hk h => h.keeps hk) ht fun t₁ q _ hk ht₁ => ?_).bind
    fun params t₁ hk ht₁ hparams => ?_
  · exact (hinner q.1.type (fun e he => List.mem_append_left _
      (List.mem_flatMap.2 ⟨q.1, q.2, he⟩)) t₁ hk ht₁).bind
      fun type t₂ _ ht₂ htype => supplies_pure ht₂ htype
  · refine (hinner sig.result (fun e he => List.mem_append_right _ he) t₁ hk ht₁).bind
      fun result t₂ hk₂ ht₂ hresult => ?_
    refine (supplies_intern hp ht₂ (.callable { sig with params, result }) nullable
      (.callable (fun q' hq' => ?_) hresult) trivial (by simp)).bind fun j t₃ _ ht₃ hj =>
        supplies_pure ht₃ (UnionType.held_of hj.1)
    obtain ⟨_, -, hheld⟩ := exists_of_forall₂ hparams.flip hq'
    exact UnionType.Held.keeps hheld hk₂

end

/-- What stands for placeholders is put in their places; those that stand for nothing stay. -/
theorem supplies_substitute (hp : Traces r p) {m : TemplateMap} (ht : t.Sound r)
    (hi : t.Holds q i) (hm : m.Held p t) (hq : ∀ s, q s → m.get? s = none → p s) :
    Supplies r t (substitute m i) fun t₁ u => u.Held p t₁ := by
  induction i using Nat.strong_induction_on generalizing t with
  | _ i ih =>
    obtain ⟨⟨kind, nullable⟩, hty, hkind⟩ := hi.kind
    have hfit := ht.fit i _ hty
    rw [substitute]
    refine supplies_fetchBelow_bind hty fun below => ?_
    -- what is inside stands before, so the induction hypothesis speaks about it
    have hinner : SuppliesInside r p t m kind := by
      intro u hu t₁ hk ht₁
      refine UnionType.supplies_bindMembers ht₁ fun t₂ a ha hk₂ ht₂ => ?_
      have hkeeps := hk.trans hk₂
      exact ih a (below a (hu a ha)) ht₂ (hkeeps.holds (hkind.parts a (hu a ha))) (hm.keeps hkeeps)
    cases kind with
    | template name =>
      dsimp only
      split
      · next bound hbound =>
        split
        · exact UnionType.supplies_withNull hp ht (hm.get? hbound)
        · exact supplies_pure ht (hm.get? hbound)
      · next hnone =>
        refine supplies_self ht hty rfl ?_
        rintro s ⟨⟩
        exact hq name (hkind.template name rfl) hnone
    | array key element =>
      have hmem : element ∈ (TypeKind.array key element).embedded := List.mem_singleton.2 rfl
      refine (ih element (below element hmem) ht (hkind.parts element hmem) hm).bind
        fun elements t₁ _ ht₁ helements => ?_
      refine UnionType.supplies_mapMembers ht₁ fun t₂ e he hk₂ ht₂ => ?_
      exact supplies_array hp ht₂ key (hk₂.holds (helements.orMixed ht₁ e he)) nullable
    | shape fields => exact supplies_shape hp ht hinner hfit nullable
    | object name args => exact supplies_object hp ht hty hinner hfit
    | callable sig => exact supplies_callable hp ht hinner nullable
    | native k | intLiteral n | stringLiteral s => exact supplies_self ht hty rfl (by simp)

/-- The type of the class that the code belongs to is put in its places. -/
theorem supplies_resolveStatic (hp : Traces r p) {owner : TypeId} (ht : t.Sound r)
    (hi : t.Holds p i) (howner : t.Holds p owner) :
    Supplies r t (resolveStatic owner i) fun t₁ j => t₁.Holds p j := by
  induction i using Nat.strong_induction_on generalizing t with
  | _ i ih =>
    obtain ⟨⟨kind, nullable⟩, hty, hkind⟩ := hi.kind
    have hfit := ht.fit i _ hty
    rw [resolveStatic]
    refine supplies_fetchBelow_bind hty fun below => ?_
    show Supplies r t (if Ty.isStaticLike ⟨kind, nullable⟩ then _ else _) _
    split
    · exact supplies_withNull hp ht howner nullable
    · cases kind with
      | array key element =>
        have hmem : element ∈ (TypeKind.array key element).embedded := List.mem_singleton.2 rfl
        refine (ih element (below element hmem) ht (hkind.parts element hmem) howner).bind
          fun e t₁ _ ht₁ he => supplies_array hp ht₁ key he nullable
      | shape fields =>
        refine (supplies_mapM (P := fun t (f : { f // f ∈ fields }) (g : ShapeKey × ShapeField) =>
          g.1 = f.1.1 ∧ g.2.type.Held p t) (fun _ _ _ _ hk h => ⟨h.1, h.2.keeps hk⟩) ht ?_).bind ?_
        · intro t₁ f _ hk ht₁
          refine (supplies_mapM (P := fun t (_ : { a // a ∈ f.1.2.type.members }) j => t.Holds p j)
            (fun _ _ _ _ hk h => hk.holds h) ht₁ fun t₂ a _ hk₂ ht₂ => ?_).bind ?_
          · have hmem : a.1 ∈ (TypeKind.shape fields).embedded :=
              List.mem_flatMap.2 ⟨f.1, f.2, a.2⟩
            have hkeeps := hk.trans hk₂
            exact ih a.1 (below a.1 hmem) ht₂ (hkeeps.holds (hkind.parts a.1 hmem))
              (hkeeps.holds howner)
          · intro members t₂ _ ht₂ hmembers
            refine supplies_pure ht₂ ⟨rfl, UnionType.held_ofList fun j hj => ?_⟩
            obtain ⟨_, -, hheld⟩ := exists_of_forall₂ hmembers.flip hj
            exact hheld
        · intro fields' t₁ _ ht₁ hfields'
          exact supplies_internShape hp ht₁ hfit hfields' nullable
      | _ => exact supplies_pure ht hi

/-- What is learned of placeholders comes from the actual types. -/
theorem supplies_bindType (hp : Traces r p) {actual : UnionType} {m : TemplateMap} (ht : t.Sound r)
    (hi : i < t.size) (hactual : actual.Held p t) (hm : m.Held p t) :
    Supplies r t (bindType actual m i) fun t₁ m => m.Held p t₁ := by
  induction i using Nat.strong_induction_on generalizing t actual m with
  | _ i ih =>
    obtain ⟨⟨kind, nullable⟩, hty⟩ := TypeTable.exists_get? hi
    rw [bindType]
    split
    · exact supplies_pure ht hm
    refine supplies_fetchBelow_bind hty fun below => ?_
    cases kind with
    | template name =>
      refine (UnionType.supplies_widenLiterals hp ht hactual).bind fun v t₁ hk ht₁ hv => ?_
      refine (UnionType.supplies_withoutNull hp ht₁ hv).bind fun v' t₂ hk₂ ht₂ hv' => ?_
      exact supplies_pure ht₂ ((hm.keeps (hk.trans hk₂)).add name hv')
    | array key element =>
      obtain ⟨v, hv, hheld⟩ := UnionType.exists_elementTypes ht hactual
      have hlt : element < i := below element (List.mem_singleton.2 rfl)
      refine supplies_query_bind hv ?_
      refine (UnionType.supplies_widenLiterals hp ht hheld).bind fun w t₁ hk ht₁ hw => ?_
      exact ih element hlt ht₁ (hk.lt_size (hlt.trans hi)) hw (hm.keeps hk)
    | object name params =>
      show Supplies r t (if params.isEmpty then pure m else _) _
      split
      · exact supplies_pure ht hm
      refine supplies_foldlM ht hm fun m t₁ candidate hcandidate hk ht₁ hm => ?_
      obtain ⟨⟨kind', nullable'⟩, hty', hkind'⟩ := (hk.holds (hactual candidate hcandidate)).kind
      refine supplies_fetch_bind hty' ?_
      cases kind' with
      | object other args =>
        show Supplies r t₁ (if other.sameClass name then _ else pure m) _
        split
        · refine supplies_foldlM ht₁ hm fun m t₂ pair hpair hk₂ ht₂ hm => ?_
          refine supplies_foldlM ht₂ hm fun m t₃ d _ hk₃ ht₃ hm => ?_
          have hlt : d.1 < i := below d.1 (List.mem_flatMap.2 ⟨pair.1.1, pair.1.2, d.2⟩)
          have hkeeps := hk₂.trans hk₃
          have hargs : pair.2.Held p t₁ := fun e he =>
            hkind'.parts e (List.mem_flatMap.2 ⟨pair.2, (List.of_mem_zip hpair).2, he⟩)
          exact ih d.1 hlt ht₃ ((hk.trans hkeeps).lt_size (hlt.trans hi)) (hargs.keeps hkeeps) hm
        · exact supplies_pure ht₁ hm
      | _ => exact supplies_pure ht₁ hm
    | _ => exact supplies_pure ht hm

end TypeM

namespace UnionType

open TypeM

/-- Placeholders that stand for nothing stay. -/
theorem supplies_substitute (hp : Traces r p) {m : TemplateMap} (ht : t.Sound r) (hu : u.Held q t)
    (hm : m.Held p t) (hq : ∀ s, q s → m.get? s = none → p s) :
    Supplies r t (u.substitute m) fun t₁ v => v.Held p t₁ := by
  rw [UnionType.substitute]
  split
  · next hempty =>
    have hnil : m = [] := List.isEmpty_iff.1 hempty
    subst hnil
    exact supplies_pure ht (hu.imp fun s hs => hq s hs rfl)
  · exact supplies_bindMembers ht fun t₁ a ha hk ht₁ =>
      TypeM.supplies_substitute hp ht₁ (hk.holds (hu a ha)) (hm.keeps hk) hq

theorem supplies_resolveStatic (hp : Traces r p) {owner : ClassName} (ht : t.Sound r)
    (hu : u.Held p t) (howner : r.Admits owner) :
    Supplies r t (u.resolveStatic owner) fun t₁ v => v.Held p t₁ := by
  refine (supplies_classType hp ht howner).bind fun j t₁ hk ht₁ hj => ?_
  refine supplies_mapMembers ht₁ fun t₂ i hi hk₂ ht₂ => ?_
  exact TypeM.supplies_resolveStatic hp ht₂ (hk₂.holds (hk.holds (hu i hi))) (hk₂.holds hj.1)

theorem supplies_bindTemplates (hp : Traces r p) {declared actual : UnionType} {m : TemplateMap}
    (ht : t.Sound r) (hdeclared : declared.Inside t) (hactual : actual.Held p t) (hm : m.Held p t) :
    Supplies r t (declared.bindTemplates actual m) fun t₁ m => m.Held p t₁ := by
  refine supplies_foldlM ht hm fun m t₁ i hi hk ht₁ hm => ?_
  exact supplies_bindType hp ht₁ (hk.lt_size (hdeclared i hi).lt_size) (hactual.keeps hk) hm

end UnionType

/-! ### The placeholders inside a type -/

namespace TypeTable

theorem mem_addName {names : List String} {name s : String} :
    s ∈ addName names name ↔ s ∈ names ∨ s = name := by
  rw [addName]
  split
  · next h =>
    refine ⟨.inl, ?_⟩
    rintro (h' | rfl)
    · exact h'
    · exact List.contains_iff_mem.1 h
  · simp

/-- The names that are collected are those of the placeholders inside the type. -/
theorem exists_collectTemplates (found : List String) (hi : i < t.size) :
    ∃ names, t.collectTemplates found i = .ok names ∧ found ⊆ names ∧
      t.Holds (· ∈ names) i ∧ ∀ p : String → Prop, t.Holds p i → ∀ s ∈ names, s ∈ found ∨ p s := by
  induction i using Nat.strong_induction_on generalizing found with
  | _ i ih =>
    obtain ⟨⟨kind, nullable⟩, hty⟩ := exists_get? hi
    obtain ⟨hbelow, hfetch⟩ := exists_fetchBelow hty
    rw [collectTemplates, hfetch]
    -- the parts, one after the other
    have hloop : ∀ (parts : List { e // e ∈ kind.embedded }) (found : List String),
        ∃ names, parts.foldlM (fun found e => t.collectTemplates found e.1) found = .ok names ∧
          found ⊆ names ∧ (∀ e ∈ parts, t.Holds (· ∈ names) e.1) ∧
          ∀ p : String → Prop, (∀ e ∈ parts, t.Holds p e.1) → ∀ s ∈ names, s ∈ found ∨ p s := by
      intro parts
      induction parts with
      | nil => exact fun found => ⟨found, rfl, fun s => id, by simp, fun p _ s hs => .inl hs⟩
      | cons e parts ihparts =>
        intro found
        have hlt : e.1 < i := hbelow e.1 e.2
        obtain ⟨names, hrun, hsub, hholds, honly⟩ := ih e.1 hlt found (hlt.trans hi)
        obtain ⟨names', hrun', hsub', hholds', honly'⟩ := ihparts names
        refine ⟨names', ?_, fun s hs => hsub' (hsub hs), ?_, ?_⟩
        · rw [List.foldlM_cons, hrun]
          exact hrun'
        · refine List.forall_mem_cons.2 ⟨hholds.imp fun s hs => hsub' hs, hholds'⟩
        · intro p hp s hs
          rcases honly' p (fun e he => hp e (List.mem_cons_of_mem _ he)) s hs with hs | hs
          · exact honly p (hp e List.mem_cons_self) s hs
          · exact .inr hs
    cases kind with
    | template name =>
      refine ⟨addName found name, rfl, fun s hs => mem_addName.2 (.inl hs), ?_, ?_⟩
      · refine .intro hty (by simp [TypeKind.embedded]) ?_
        rintro s ⟨⟩
        exact mem_addName.2 (.inr rfl)
      · intro p hp s hs
        refine (mem_addName.1 hs).imp_right fun heq => ?_
        exact ((holds_iff hty).1 hp).template s (by rw [heq])
    | _ =>
      obtain ⟨names, hrun, hsub, hholds, honly⟩ := hloop (List.attach _) found
      refine ⟨names, hrun, hsub, .intro hty (fun e he => ?_) (by simp), fun p hp => ?_⟩
      · exact hholds ⟨e, he⟩ (List.mem_attach _ _)
      · exact honly p fun e _ => ((holds_iff hty).1 hp).parts e.1 e.2

end TypeTable

namespace UnionType

/-- The names that are found are those of the placeholders inside the members. -/
theorem exists_templateNames (hu : u.Inside t) :
    ∃ names, u.templateNames t = .ok names ∧ u.Held (· ∈ names) t ∧
      ∀ p : String → Prop, u.Held p t → ∀ s ∈ names, p s := by
  have hloop : ∀ (ids : List TypeId) (found : List String), (∀ i ∈ ids, i < t.size) →
      ∃ names, ids.foldlM t.collectTemplates found = .ok names ∧ found ⊆ names ∧
        (∀ i ∈ ids, t.Holds (· ∈ names) i) ∧
        ∀ p : String → Prop, (∀ i ∈ ids, t.Holds p i) → ∀ s ∈ names, s ∈ found ∨ p s := by
    intro ids
    induction ids with
    | nil => exact fun found _ => ⟨found, rfl, fun s => id, by simp, fun p _ s hs => .inl hs⟩
    | cons i ids ih =>
      intro found hids
      obtain ⟨names, hrun, hsub, hholds, honly⟩ :=
        t.exists_collectTemplates found (hids i List.mem_cons_self)
      obtain ⟨names', hrun', hsub', hholds', honly'⟩ :=
        ih names fun i hi => hids i (List.mem_cons_of_mem _ hi)
      refine ⟨names', ?_, fun s hs => hsub' (hsub hs), ?_, ?_⟩
      · rw [List.foldlM_cons, hrun]
        exact hrun'
      · exact List.forall_mem_cons.2 ⟨hholds.imp fun s hs => hsub' hs, hholds'⟩
      · intro p hp s hs
        rcases honly' p (fun i hi => hp i (List.mem_cons_of_mem _ hi)) s hs with hs | hs
        · exact honly p (hp i List.mem_cons_self) s hs
        · exact .inr hs
  obtain ⟨names, hrun, -, hholds, honly⟩ := hloop u.members [] fun i hi => (hu i hi).lt_size
  exact ⟨names, hrun, hholds, fun p hp s hs => (honly p hp s hs).resolve_left (by simp)⟩

end UnionType

end UnionInference
