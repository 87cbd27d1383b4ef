import UnionInference.Proofs.Types.Arrays
import UnionInference.Proofs.Types.Substitution

/-!
What is learned of template placeholders from an argument. Where the argument admits no null and holds
no shapes the work adds no types to the table, and what placeholders stand for only grows. What it has
learned is told by the declared type: a placeholder stands for the widened members that it met, an array
looks at the elements of all arrays at once, and a class at each argument of every object of the class.
-/

namespace UnionInference

open TypeTable

/-! ### Maps that grow -/

namespace TemplateMap

variable {m m₁ m₂ : TemplateMap} {s : String} {t : TypeTable} {u b : UnionType}

/-- All that placeholders stand for in the first map they stand for in the second one. -/
def Within (m₁ m₂ : TemplateMap) : Prop :=
  ∀ s b, m₁.get? s = some b → ∃ c, m₂.get? s = some c ∧ b.members ⊆ c.members

theorem Within.refl (m : TemplateMap) : m.Within m := fun _ b hb => ⟨b, hb, List.Subset.refl _⟩

theorem Within.trans (h : m.Within m₁) (h₁ : m₁.Within m₂) : m.Within m₂ := by
  intro s b hb
  obtain ⟨c, hc, hbc⟩ := h s b hb
  obtain ⟨d, hd, hcd⟩ := h₁ s c hc
  exact ⟨d, hd, List.Subset.trans hbc hcd⟩

theorem get?_cons (n : String) (v : UnionType) (m : TemplateMap) (s : String) :
    get? ((n, v) :: m) s = if s = n then some v else m.get? s := by
  rw [get?, List.lookup_cons]
  split
  · next hs => rw [if_pos (beq_iff_eq.1 hs)]
  · next hs => rw [if_neg (beq_eq_false_iff_ne.1 hs), get?]

/-- Adding types touches one placeholder, which stands for them and for what it stood for. -/
theorem get?_add (m : TemplateMap) (name : String) (u : UnionType) (s : String) :
    (m.add name u).get? s =
      if s = name then some (((m.get? name).getD .empty).union u) else m.get? s := by
  induction m with
  | nil => rw [add, get?_cons]; rfl
  | cons entry m ih =>
    obtain ⟨n, v⟩ := entry
    rw [add, get?_cons n v m name]
    split
    · next hn =>
      subst hn
      rw [if_pos rfl, get?_cons, get?_cons]
      split <;> rfl
    · next hn =>
      rw [get?_cons, get?_cons, ih, if_neg (Ne.symm hn)]
      split
      · next hs => rw [if_neg (hs ▸ hn)]
      · rfl

theorem within_add (m : TemplateMap) (name : String) (u : UnionType) : m.Within (m.add name u) := by
  intro s b hb
  rw [get?_add]
  split
  · next hs =>
    subst hs
    exact ⟨_, rfl, fun i hi => UnionType.mem_union.2 (.inl (by rwa [hb]))⟩
  · exact ⟨b, hb, List.Subset.refl _⟩

end TemplateMap

/-! ### Arguments without null and shapes -/

/-- A literal is widened to the type of integers or to that of strings. -/
theorem TypeKind.IsLiteral.exists_widened {kind : TypeKind} (h : kind.IsLiteral) :
    ∃ k : NativeKind, kind.widened = .native k := by
  cases kind with
  | intLiteral => exact ⟨.int, rfl⟩
  | stringLiteral => exact ⟨.string, rfl⟩
  | _ => cases h

namespace TypeTable

variable {t t₁ : TypeTable} {i j : TypeId} {ty : Ty} {u v : UnionType}

/-- Neither the type nor anything inside it admits null or is a shape. -/
def Plain (t : TypeTable) (i : TypeId) : Prop :=
  ∀ j ty, t.Within i j → t.get? j = some ty → ty.admitsNull = false ∧ ty.isShape = false

theorem Plain.part (h : t.Plain i) (hty : t.get? i = some ty) (hj : j ∈ ty.kind.embedded) :
    t.Plain j := by
  obtain ⟨entry, hentry, rfl⟩ := Option.map_eq_some_iff.1 hty
  exact fun k d hk => h k d (.part hentry hj hk)

theorem Plain.admitsNull (h : t.Plain i) (hty : t.get? i = some ty) : ty.admitsNull = false :=
  (h i ty (.self i) hty).1

theorem Within.eq_of_embedded (h : t.Within i j) (hi : t.get? i = some ty)
    (hnil : ty.kind.embedded = []) : j = i := by
  cases h with
  | self => rfl
  | part he hmem =>
    cases hi.symm.trans (get?_eq he)
    rw [hnil] at hmem
    cases hmem

/-- A type is plain if it admits no null and is no shape, and what it is made of is plain. -/
theorem plain_intro (hi : t.get? i = some ty) (hnull : ty.admitsNull = false)
    (hshape : ty.isShape = false) (hparts : ∀ e ∈ ty.kind.embedded, t.Plain e) : t.Plain i := by
  intro j d hj hd
  cases hj with
  | self =>
    cases hi.symm.trans hd
    exact ⟨hnull, hshape⟩
  | part he hmem hj =>
    cases hi.symm.trans (get?_eq he)
    exact hparts _ hmem j d hj hd

theorem Plain.widens (h : t.Plain i) (hij : t.Widens i j) : t.Plain j := by
  obtain ⟨⟨kind, nullable⟩, hi, hj, hother⟩ := hij
  by_cases hliteral : kind.IsLiteral
  · obtain ⟨k, hk⟩ := hliteral.exists_widened
    have hnull := Ty.admitsNull_widened ⟨kind, nullable⟩
    rw [h.admitsNull hi] at hnull
    rw [Ty.widened, hk] at hj hnull
    exact plain_intro hj hnull rfl fun _ h => absurd h List.not_mem_nil
  · exact hother hliteral ▸ h

/-- The elements of plain types are plain. -/
theorem plain_elementTypes (ht : t.Rooted) (hu : u.Inside t) (hplain : ∀ i ∈ u.members, t.Plain i)
    (h : u.elementTypes t = .ok v) : ∀ e ∈ v.members, t.Plain e := by
  obtain ⟨w, hw, hopen, hmem⟩ := UnionType.elementTypes_eq hu
  obtain rfl : v = w := Except.ok.inj (h.symm.trans hw)
  intro e he
  by_cases hu : UnionType.HasOpen t u
  · rw [hopen hu, UnionType.mixed, UnionType.members_native, List.mem_singleton] at he
    exact he ▸ plain_intro (ht.get?_native .mixed) rfl rfl fun _ h => absurd h List.not_mem_nil
  · obtain ⟨i, hi, ty, hty, he⟩ := (hmem hu e).1 he
    exact (hplain i hi).part hty (UnionType.elementsOf_subset_embedded he)

/-- Nothing is to be taken away from members that admit no null. -/
theorem Rooted.withoutNull (ht : t.Rooted)
    (hu : ∀ i ∈ u.members, ∃ ty, t.get? i = some ty ∧ ty.admitsNull = false) :
    ∃ v, u.withoutNull t = .ok (v, t) ∧ v.SameMembers u := by
  have hnull : NativeKind.null.id ∉ u.members := by
    intro hmem
    obtain ⟨ty, hty, hno⟩ := hu _ hmem
    cases hty.symm.trans (ht.get?_native .null)
    cases hno
  have herase : (u.erase NativeKind.null.id).SameMembers u := by
    intro i
    rw [UnionType.erase, UnionType.filter, List.mem_filter]
    refine and_iff_left_of_imp fun hi => ?_
    rw [bne_iff_ne]
    rintro rfl
    exact hnull hi
  have hstep : ∀ i ∈ (u.erase NativeKind.null.id).members,
      ∃ j, TypeM.withNull i false t = .ok (j, t) ∧ i = j := by
    intro i hi
    obtain ⟨ty, hty, hno⟩ := hu i ((herase i).1 hi)
    exact ⟨i, TypeM.withNull_of_not_admitsNull hty hno, rfl⟩
  obtain ⟨ids, hrun, hids⟩ := TypeM.mapM_of_forall hstep
  rw [List.forall₂_eq_eq_eq] at hids
  refine ⟨.ofList ids, TypeM.bind_eq_ok.2 ⟨ids, t, hrun, rfl⟩, .trans (fun i => ?_) herase⟩
  rw [UnionType.mem_ofList, hids]

end TypeTable

/-! ### What is learned -/

namespace TypeTable

open UnionType

variable {t : TypeTable} {m m₁ : TemplateMap} {u v : UnionType} {d i j : TypeId} {ty : Ty}

/-- The map says of the placeholders inside a declared type what the members of an argument tell. -/
inductive Learns (t : TypeTable) (m : TemplateMap) : UnionType → TypeId → Prop
  | nothing {u : UnionType} {d : TypeId} (hu : u.members = []) : Learns t m u d
  | template {u : UnionType} {d : TypeId} {s : String} {n : Bool}
      (hd : t.get? d = some ⟨.template s, n⟩)
      (hu : ∀ i ∈ u.members, ∀ j, t.Widens i j → ∃ b, m.get? s = some b ∧ j ∈ b.members) :
      Learns t m u d
  | array {u elements widened : UnionType} {d e : TypeId} {k : KeyKind} {n : Bool}
      (hd : t.get? d = some ⟨.array k e, n⟩) (hu : u.elementTypes t = .ok elements)
      (hw : Image t.Widens elements widened) (he : Learns t m widened e) : Learns t m u d
  | object {u : UnionType} {d : TypeId} {name : ClassName} {params : List UnionType} {n : Bool}
      (hd : t.get? d = some ⟨.object name params, n⟩)
      (hu : ∀ i ∈ u.members, ∀ other args n', t.get? i = some ⟨.object other args, n'⟩ →
        other.sameClass name = true → ∀ p ∈ params.zip args, ∀ e ∈ p.1.members, Learns t m p.2 e) :
      Learns t m u d
  | other {u : UnionType} {d : TypeId} {ty : Ty} (hd : t.get? d = some ty)
      (htemplate : ∀ s, ty.kind ≠ .template s) (harray : ∀ k e, ty.kind ≠ .array k e)
      (hobject : ∀ name args, ty.kind ≠ .object name args) : Learns t m u d

theorem Learns.mono (h : t.Learns m u d) (hm : m.Within m₁) : t.Learns m₁ u d := by
  induction h with
  | nothing hu => exact .nothing hu
  | template hd hu =>
    refine .template hd fun i hi j hij => ?_
    obtain ⟨b, hb, hj⟩ := hu i hi j hij
    obtain ⟨c, hc, hbc⟩ := hm _ b hb
    exact ⟨c, hc, hbc hj⟩
  | array hd hu hw _ ih => exact .array hd hu hw ih
  | object hd _ ih => exact .object hd ih
  | other hd htemplate harray hobject => exact .other hd htemplate harray hobject

end TypeTable

/-! ### Runs -/

namespace TypeM

open UnionType

variable {t : TypeTable} {m : TemplateMap} {u : UnionType} {d : TypeId}

/-- The work ends with a larger map that has the property, and adds no types to the table. -/
def Gathers (t : TypeTable) (m : TemplateMap) (work : TypeM TemplateMap)
    (Q : TemplateMap → Prop) : Prop :=
  ∃ m₁, work t = .ok (m₁, t) ∧ m.Within m₁ ∧ m₁.Held (fun _ => True) t ∧ Q m₁

theorem gathers_pure {Q : TemplateMap → Prop} (hm : m.Held (fun _ => True) t) (hQ : Q m) :
    Gathers t m (pure m) Q :=
  ⟨m, rfl, .refl m, hm, hQ⟩

theorem Gathers.imp {work : TypeM TemplateMap} {Q Q' : TemplateMap → Prop} (h : Gathers t m work Q)
    (hQ : ∀ m₁, Q m₁ → Q' m₁) : Gathers t m work Q' := by
  obtain ⟨m₁, hrun, hwithin, hheld, hq⟩ := h
  exact ⟨m₁, hrun, hwithin, hheld, hQ m₁ hq⟩

/-- Work that first asks and changes nothing. -/
theorem gathers_bind {α : Type} {ask : TypeM α} {a : α} {f : α → TypeM TemplateMap}
    {Q : TemplateMap → Prop} (hask : ask t = .ok (a, t)) (h : Gathers t m (f a) Q) :
    Gathers t m (ask >>= f) Q := by
  obtain ⟨m₁, hrun, hrest⟩ := h
  exact ⟨m₁, bind_eq_ok.2 ⟨a, t, hask, hrun⟩, hrest⟩

/-- What is learned in one round of a loop is not forgotten in the others. -/
theorem gathers_foldlM {α : Type} {f : TemplateMap → α → TypeM TemplateMap}
    {Q : TemplateMap → α → Prop} (hmono : ∀ m m₁ a, Q m a → m.Within m₁ → Q m₁ a) {as : List α}
    (hm : m.Held (fun _ => True) t)
    (hstep : ∀ m, m.Held (fun _ => True) t → ∀ a ∈ as, Gathers t m (f m a) fun m => Q m a) :
    Gathers t m (as.foldlM f m) fun m => ∀ a ∈ as, Q m a := by
  induction as generalizing m with
  | nil => exact gathers_pure hm nofun
  | cons a as ih =>
    obtain ⟨m₁, hrun, hwithin, hheld, hQ⟩ := hstep m hm a List.mem_cons_self
    obtain ⟨m₂, hrun₂, hwithin₂, hheld₂, hQ₂⟩ := ih hheld fun m hm b hb =>
      hstep m hm b (List.mem_cons_of_mem _ hb)
    rw [List.foldlM_cons]
    exact ⟨m₂, bind_eq_ok.2 ⟨m₁, t, hrun, hrun₂⟩, hwithin.trans hwithin₂, hheld₂,
      List.forall_mem_cons.2 ⟨hmono m₁ m₂ a hQ hwithin₂, hQ₂⟩⟩

theorem gathers_template (hc : t.Canonical) (ht : t.Rooted) (hu : u.Inside t)
    (hplain : ∀ i ∈ u.members, t.Plain i) (hm : m.Held (fun _ => True) t) {s : String} {n : Bool}
    (hd : t.get? d = some ⟨.template s, n⟩) :
    Gathers t m (do
      let bound ← (← u.widenLiterals).withoutNull
      return m.add s bound) fun m => t.Learns m u d := by
  obtain ⟨w, hwiden, himage⟩ := image_widenLiterals hc ht fun i hi => (hu i hi).lt_size
  have hw : ∀ j ∈ w.members, t.Plain j := by
    intro j hj
    obtain ⟨i, hi, hij⟩ := (himage.mem j).1 hj
    exact (hplain i hi).widens hij
  have hin : ∀ j ∈ w.members, j < t.size := by
    intro j hj
    obtain ⟨i, -, hij⟩ := (himage.mem j).1 hj
    exact hij.lt_size
  obtain ⟨bound, hbound, hsame⟩ := ht.withoutNull (u := w) fun j hj => by
    obtain ⟨ty, hty⟩ := exists_get? (hin j hj)
    exact ⟨ty, hty, (hw j hj).admitsNull hty⟩
  refine gathers_bind hwiden (gathers_bind hbound ?_)
  refine ⟨m.add s bound, rfl, m.within_add s bound, hm.add s ?_, .template hd fun i hi j hij => ?_⟩
  · exact fun j hj => holds_of_lt (hin j ((hsame j).1 hj)) fun _ => trivial
  · rw [TemplateMap.get?_add, if_pos rfl]
    exact ⟨_, rfl, mem_union.2 (.inr ((hsame j).2 ((himage.mem j).2 ⟨i, hi, hij⟩)))⟩

/-- Binding to a declared type learns what the members of an argument without null and shapes tell. -/
def Teaches (t : TypeTable) (d : TypeId) : Prop :=
  ∀ ⦃u : UnionType⦄ ⦃m : TemplateMap⦄, u.Inside t → (∀ i ∈ u.members, t.Plain i) →
    m.Held (fun _ => True) t → Gathers t m (bindType u m d) fun m => t.Learns m u d

theorem gathers_elements (hc : t.Canonical) (ht : t.Rooted) (hu : u.Inside t)
    (hplain : ∀ i ∈ u.members, t.Plain i) (hm : m.Held (fun _ => True) t) {k : KeyKind} {e : TypeId}
    {n : Bool} (hd : t.get? d = some ⟨.array k e, n⟩) (he : Teaches t e) :
    Gathers t m (do
      let elements ← (← query u.elementTypes).widenLiterals
      bindType elements m e) fun m => t.Learns m u d := by
  obtain ⟨elements, helements, -⟩ := elementTypes_eq hu
  have hin := lt_size_of_elementTypes ht hu helements
  obtain ⟨w, hwiden, himage⟩ := image_widenLiterals hc ht hin
  have hinner := plain_elementTypes ht hu hplain helements
  have hask : query u.elementTypes t = .ok (elements, t) := by
    rw [query, helements]
    rfl
  refine gathers_bind hask (gathers_bind hwiden ?_)
  refine (he (fun j hj => ?_) (fun j hj => ?_) hm).imp fun m hm => .array hd helements himage hm
  · obtain ⟨i, -, hij⟩ := (himage.mem j).1 hj
    exact holds_of_lt hij.lt_size fun _ => trivial
  · obtain ⟨i, hi, hij⟩ := (himage.mem j).1 hj
    exact (hinner i hi).widens hij

/-- The arguments of one object are bound to the parameters in turn. -/
theorem gathers_arguments (hm : m.Held (fun _ => True) t) {i : TypeId} (hi : i < t.size)
    (hplain : t.Plain i) {other : ClassName} {args params : List UnionType} {n : Bool}
    (hobject : t.get? i = some ⟨.object other args, n⟩)
    (hparams : ∀ v ∈ params, ∀ e ∈ v.members, Teaches t e) :
    Gathers t m ((params.attach.zip args).foldlM (fun m p =>
      p.1.1.members.attach.foldlM (fun m e => bindType p.2 m e.1) m) m) fun m =>
        ∀ p ∈ params.zip args, ∀ e ∈ p.1.members, t.Learns m p.2 e := by
  have hargs : ∀ v ∈ args, ∀ j ∈ v.members, j ∈ (TypeKind.object other args).embedded :=
    fun v hv j hj => List.mem_flatMap.2 ⟨v, hv, hj⟩
  have hrow : Gathers t m ((params.attach.zip args).foldlM (fun m p =>
      p.1.1.members.attach.foldlM (fun m e => bindType p.2 m e.1) m) m) fun m =>
      ∀ p ∈ params.attach.zip args, ∀ e ∈ p.1.1.members.attach, t.Learns m p.2 e.1 := by
    refine gathers_foldlM (fun m m₁ p h hm e he => (h e he).mono hm) hm fun m hm p hp => ?_
    refine gathers_foldlM (fun m m₁ e h hm => h.mono hm) hm fun m hm e _ => ?_
    have hv := (List.of_mem_zip hp).2
    refine hparams p.1.1 p.1.2 e.1 e.2 (fun j hj => ?_) (fun j hj => ?_) hm
    · exact holds_of_lt ((embedded_lt_of_get? hobject (hargs _ hv j hj)).trans hi) fun _ => trivial
    · exact hplain.part hobject (hargs _ hv j hj)
  refine hrow.imp fun m hm => ?_
  exact forall_mem_attach_zip (P := fun v w => ∀ e ∈ v.members, t.Learns m w e) |>.1
    fun p hp e he => hm p hp ⟨e, he⟩ (List.mem_attach _ _)

/-- Every member of the argument that is an object of the class gives its arguments. -/
theorem gathers_candidates (hu : u.Inside t) (hplain : ∀ i ∈ u.members, t.Plain i)
    (hm : m.Held (fun _ => True) t) {name : ClassName} {params : List UnionType} {n : Bool}
    (hd : t.get? d = some ⟨.object name params, n⟩)
    (hparams : ∀ v ∈ params, ∀ e ∈ v.members, Teaches t e) :
    Gathers t m (u.members.foldlM (fun m candidate => do
      match (← fetch candidate).kind with
      | .object other args =>
        if other.sameClass name then
          (params.attach.zip args).foldlM (fun m p =>
            p.1.1.members.attach.foldlM (fun m e => bindType p.2 m e.1) m) m
        else return m
      | _ => return m) m) fun m => t.Learns m u d := by
  refine (gathers_foldlM (Q := fun m i => ∀ other args n', t.get? i = some ⟨.object other args, n'⟩ →
    other.sameClass name = true → ∀ p ∈ params.zip args, ∀ e ∈ p.1.members, t.Learns m p.2 e)
    ?_ hm fun m hm i hi => ?_).imp fun m hm => .object hd hm
  · exact fun m m₁ i h hm other args n' hi hsame p hp e he =>
      (h other args n' hi hsame p hp e he).mono hm
  obtain ⟨⟨kind, nullable⟩, hkind, -⟩ := (hu i hi).kind
  obtain ⟨entry, hentry, hentry'⟩ := Option.map_eq_some_iff.1 hkind
  refine gathers_bind (fetch_eq_ok.2 ⟨rfl, entry, hentry, hentry'⟩) ?_
  cases kind with
  | object other args =>
    dsimp only
    split
    · refine (gathers_arguments hm (hu i hi).lt_size (hplain i hi) hkind hparams).imp
        fun m hm other' args' n' hother _ => ?_
      cases hkind.symm.trans hother
      exact hm
    · next hsame =>
      refine gathers_pure hm fun other' args' n' hother hsame' => ?_
      cases hkind.symm.trans hother
      exact absurd hsame' hsame
  | _ =>
    refine gathers_pure hm fun other' args' n' hother => ?_
    cases hkind.symm.trans hother

/-- From an argument without null and shapes the work learns what its members tell. -/
theorem gathers_bindType (hc : t.Canonical) (ht : t.Rooted) (hu : u.Inside t)
    (hplain : ∀ i ∈ u.members, t.Plain i) (hm : m.Held (fun _ => True) t) (hd : d < t.size) :
    Gathers t m (bindType u m d) fun m => t.Learns m u d := by
  induction d using Nat.strong_induction_on generalizing u m with
  | _ d ih =>
    obtain ⟨⟨kind, nullable⟩, hty⟩ := exists_get? hd
    rw [bindType]
    split
    · next hempty => exact gathers_pure hm (.nothing (isEmpty_iff.1 hempty))
    obtain ⟨below, hfetch⟩ := TypeM.exists_fetchBelow hty
    have hpart : ∀ e ∈ kind.embedded, Teaches t e := fun e he u m hu hplain hm =>
      ih e (below e he) hu hplain hm ((below e he).trans hd)
    refine gathers_bind hfetch ?_
    cases kind with
    | template s => exact gathers_template hc ht hu hplain hm hty
    | array k e => exact gathers_elements hc ht hu hplain hm hty (hpart e (List.mem_singleton_self e))
    | object name params =>
      dsimp only
      split
      · next hempty =>
        obtain rfl := List.isEmpty_iff.1 hempty
        exact gathers_pure hm (.object hty (by simp))
      · exact gathers_candidates hu hplain hm hty fun v hv e he =>
          hpart e (List.mem_flatMap.2 ⟨v, hv, he⟩)
    | _ =>
      exact gathers_pure hm (.other hty (by rintro _ ⟨⟩) (by rintro _ _ ⟨⟩) (by rintro _ _ ⟨⟩))

end TypeM

end UnionInference
