import UnionInference.Proofs.Types.Placeholders
import UnionInference.Proofs.Types.Substitution

/-!
Putting a class in the places of the types that stand for the class the code belongs to. The work
looks into the elements of arrays and the fields of shapes, not into the arguments of classes and the
signatures of callable types. So nothing is left of these types exactly when none of them stood there,
and in that case each was replaced by the type of the class, with null where it had null.
-/

namespace UnionInference

/-- The kind stands for the class that the code belongs to. -/
def TypeKind.IsStatic (kind : TypeKind) : Prop := kind = .native .static ∨ kind = .native .self

instance (kind : TypeKind) : Decidable kind.IsStatic := inferInstanceAs (Decidable (_ ∨ _))

theorem Ty.isStaticLike_iff {ty : Ty} : ty.isStaticLike = true ↔ ty.kind.IsStatic := by
  rw [isStaticLike, TypeKind.IsStatic]
  split
  · next h => simp [h]
  · next h => simp [h]
  · next hstatic hself =>
    simp only [Bool.false_eq_true, false_iff, not_or]
    exact ⟨hstatic, hself⟩

/-- The type of a class is put in the places of the types that stand for it. -/
def Replacement.ofClass (owner : TypeId) : Replacement where
  get? kind := if kind.IsStatic then some (.of owner) else none
  isMark {kind u} h := by
    split at h
    · next hstatic => rcases hstatic with rfl | rfl <;> trivial
    · cases h

theorem Replacement.ofClass_eq_some {owner : TypeId} {kind : TypeKind} {b : UnionType} :
    (ofClass owner).get? kind = some b ↔ kind.IsStatic ∧ .of owner = b := by
  simp [ofClass]

theorem Replacement.ofClass_eq_none {owner : TypeId} {kind : TypeKind} :
    (ofClass owner).get? kind = none ↔ ¬ kind.IsStatic := by
  simp [ofClass]

namespace TypeTable

variable {t t₀ t₁ : TypeTable} {ty : Ty} {i j owner : TypeId} {v : UnionType}

/-- Nothing at the place or inside it stands for the class that the code belongs to. -/
abbrev Settled (t : TypeTable) (i : TypeId) : Prop := t.Everywhere (fun kind => ¬ kind.IsStatic) i

theorem kindProperty_not_isStatic : KindProperty fun kind => ¬ kind.IsStatic where
  alike {a b} h hb ha := by
    have hmark : a.IsMark := by rcases ha with rfl | rfl <;> trivial
    exact hb (TypeKind.Alike.eq_of_isMark h (.inl hmark) ▸ ha)
  mixed := by decide

/-- Inside the arguments of a class and the signature of a callable type nothing stands for the class
that the code belongs to. -/
def Exposed (t : TypeTable) : TypeKind → Prop
  | .array .. | .shape _ => True
  | kind => ∀ e ∈ kind.embedded, t.Settled e

/-- What is settled hides nothing. -/
theorem Everywhere.exposed (h : t.Settled i) : t.Everywhere t.Exposed i := by
  induction h with
  | @intro i ty hty _ hparts ih =>
    refine .intro hty ?_ ih
    obtain ⟨kind, nullable⟩ := ty
    cases kind with
    | array | shape => trivial
    | _ => exact hparts

/-- Everything that stands for the class is replaced by its type. -/
theorem Turns.settled (hc : t.Canonical) (howner : t.Settled owner) (hi : i < t.size)
    (h : t.Turns (.ofClass owner) i v) : ∀ j ∈ v.members, t.Settled j := by
  have hall : t.Everywhere (fun _ => True) i := everywhere_of_forall (fun _ _ _ => trivial) hi
  refine (h.everywhere_iff hc kindProperty_not_isStatic ?_ ?_ ?_).2 hall
  · exact fun key e => ⟨by simp [TypeKind.IsStatic], trivial⟩
  · intro kind b hb
    obtain ⟨-, rfl⟩ := Replacement.ofClass_eq_some.1 hb
    simpa using howner
  · intro kind f hkind _
    have hnot := Replacement.ofClass_eq_none.1 hkind.stays
    cases kind with
    | object | shape | callable => simp [TypeKind.mapParts, TypeKind.IsStatic]
    | _ => simpa [TypeKind.mapParts] using hnot

/-- A type that is settled turns into itself. -/
theorem Canonical.turns_self_of_settled (hc : t.Canonical) (h : t.Settled i) :
    t.Turns (.ofClass owner) i (.of i) := by
  refine hc.turns_self (h.imp fun kind hkind b hb => ?_)
  rw [Replacement.ofClass_eq_none.2 hkind] at hb
  cases hb

/-- What becomes of a type when a class is put in its places, seen from an earlier table. -/
structure StaticResolution (t₀ t : TypeTable) (owner i j : TypeId) : Prop where
  inside : j < t.size
  /-- All is replaced where nothing is hidden. -/
  turns : t₀.Everywhere t₀.Exposed i → t.Turns (.ofClass owner) i (.of j)
  /-- Where something is hidden it stays. -/
  exposed : t.Settled j → t₀.Everywhere t₀.Exposed i

theorem StaticResolution.extends (hc : t.Canonical) (h : StaticResolution t₀ t owner i j)
    (hext : t.Extends t₁) : StaticResolution t₀ t₁ owner i j where
  inside := hext.lt_size h.inside
  turns hi := (h.turns hi).extends hc hext
  exposed hj := h.exposed ((hext.keeps.everywhere_iff h.inside).1 hj)

/-- One type after the other becomes another one. -/
def ResolvedUnion (t₀ t : TypeTable) (owner : TypeId) (u v : UnionType) : Prop :=
  ∃ js, List.Forall₂ (StaticResolution t₀ t owner) u.members js ∧ v = .ofList js

section

variable {u : UnionType} (h : ResolvedUnion t₀ t owner u v)
include h

theorem ResolvedUnion.extends (hc : t.Canonical) (hext : t.Extends t₁) :
    ResolvedUnion t₀ t₁ owner u v := by
  obtain ⟨js, hjs, rfl⟩ := h
  exact ⟨js, hjs.imp fun _ _ hij => hij.extends hc hext, rfl⟩

theorem ResolvedUnion.exists_left (hi : i ∈ u.members) :
    ∃ j ∈ v.members, StaticResolution t₀ t owner i j := by
  obtain ⟨js, hjs, rfl⟩ := h
  obtain ⟨j, hj, hij⟩ := exists_of_forall₂ hjs hi
  exact ⟨j, UnionType.mem_ofList.2 hj, hij⟩

theorem ResolvedUnion.exists_right (hj : j ∈ v.members) :
    ∃ i ∈ u.members, StaticResolution t₀ t owner i j := by
  obtain ⟨js, hjs, rfl⟩ := h
  exact exists_of_forall₂ hjs.flip (UnionType.mem_ofList.1 hj)

/-- Where nothing is hidden all is replaced. -/
theorem ResolvedUnion.becomes (hc : t.Canonical)
    (hu : ∀ i ∈ u.members, t₀.Everywhere t₀.Exposed i) : t.Becomes (.ofClass owner) u v := by
  have hexists : ∀ i ∈ u.members, ∃ j ∈ v.members, t.Turns (.ofClass owner) i (.of j) := by
    intro i hi
    obtain ⟨j, hj, hij⟩ := h.exists_left hi
    exact ⟨j, hj, hij.turns (hu i hi)⟩
  choose! f hmem hf using hexists
  refine ⟨fun i => .of (f i), hf, fun j => ⟨fun hj => ?_, fun hj => ?_⟩⟩
  · obtain ⟨i, hi, hij⟩ := h.exists_right hj
    refine UnionType.mem_flatMap.2 ⟨i, hi, ?_⟩
    exact ((hij.turns (hu i hi)).unique hc (hf i hi) j).1 (UnionType.mem_of.2 rfl)
  · obtain ⟨i, hi, hij⟩ := UnionType.mem_flatMap.1 hj
    exact UnionType.mem_of.1 hij ▸ hmem i hi

end

end TypeTable

namespace TypeM

open TypeTable

variable {t t₀ : TypeTable} {i owner : TypeId}

/-- The type of a class is found, maybe under its name in other letter case. -/
theorem delivers_classType (ht : t.Proper) {c : ClassName} (hname : c.WellFormed)
    (hnormal : c.Normalized) :
    Delivers t (classType c) fun t owner => t.Finds ⟨.object c [], false⟩ owner ∧
      ∃ name, t.get? owner = some ⟨.object name [], false⟩ := by
  have hproper : (TypeKind.object c []).Proper := ⟨hname, hnormal⟩
  have hinside : ∀ {t : TypeTable}, ∀ e ∈ (TypeKind.object c []).embedded, e < t.size := by
    simp [TypeKind.embedded]
  rw [classType, classTypeWith, make_of_typable (hname.typable hnormal)]
  refine (delivers_intern ht false hproper hinside).imp fun owner t₁ _ ht₁ howner => ⟨howner, ?_⟩
  obtain ⟨⟨kind, nullable⟩, hfound, ⟨hnull, hkind⟩, -⟩ :=
    ht₁.canonical.alike_of_finds (writable_normalize false hinside hname) howner
  obtain rfl : nullable = false := hnull
  cases kind with
  | object name args =>
    obtain rfl : args = [] := List.forall₂_nil_right_iff.1 hkind.2
    exact ⟨name, hfound⟩
  | _ => exact hkind.elim

section

variable {kind : TypeKind} {key : KeyKind} {element e : TypeId} {fields : ShapeFields}
  {nullable : Bool}

/-- A type that stands for the class is replaced by the type of the class, null kept. -/
theorem delivers_owner (hext : t₀.Extends t) (ht : t.Proper) {name : ClassName}
    (howner : t.get? owner = some ⟨.object name [], false⟩) (hty : t₀.get? i = some ⟨kind, nullable⟩)
    (hstatic : kind.IsStatic) :
    Delivers t (withNull owner nullable) fun t j => StaticResolution t₀ t owner i j := by
  have hof : (Replacement.ofClass owner).get? kind = some (.of owner) :=
    Replacement.ofClass_eq_some.2 ⟨hstatic, rfl⟩
  have hmark := (Replacement.ofClass owner).isMark hof
  refine (delivers_withNull ht howner fun h => by cases h).imp fun j t₁ hext₁ ht₁ hj =>
    ⟨hj.lt_size ht₁.canonical, fun _ => ?_, fun _ => ?_⟩
  · exact .bound ((hext.trans hext₁).keeps.get? hty) hof (UnionType.image_of hj fun _ hk => hk.unique hj)
  · refine .intro hty ?_ (by simp [hmark.embedded])
    rcases hstatic with rfl | rfl <;> simp [Exposed, TypeKind.embedded]

/-- A type that is not looked into stays. -/
theorem delivers_unseen (hext : t₀.Extends t) (ht : t.Proper)
    (hty : t₀.get? i = some ⟨kind, nullable⟩) (hnot : ¬ kind.IsStatic)
    (hview : t₀.Exposed kind → ∀ e ∈ kind.embedded, t₀.Settled e) :
    Delivers t (pure i) fun t j => StaticResolution t₀ t owner i j := by
  have hi := lt_size_of_get? hty
  refine delivers_pure ht ⟨hext.lt_size hi, fun hexposed => ?_, fun hsettled => ?_⟩
  · have hparts := hview ((everywhere_iff hty).1 hexposed).1
    have hsettled : t₀.Settled i := .intro hty hnot hparts
    exact ht.canonical.turns_self_of_settled ((hext.keeps.everywhere_iff hi).2 hsettled)
  · exact ((hext.keeps.everywhere_iff hi).1 hsettled).exposed

/-- Arrays are made anew over what becomes of their elements. -/
theorem delivers_arrayOver (hext : t₀.Extends t) (ht : t.Proper)
    (hty : t₀.get? i = some ⟨.array key element, nullable⟩)
    (he : StaticResolution t₀ t owner element e) :
    Delivers t (array key e nullable) fun t j => StaticResolution t₀ t owner i j := by
  refine (delivers_array ht key he.inside nullable).imp fun j t₁ hext₁ ht₁ hj => ?_
  have he := he.extends ht.canonical hext₁
  refine ⟨ht₁.canonical.lt_size_of_finds hj, fun hexposed => ?_, fun hsettled => ?_⟩
  · have helement := ((everywhere_iff hty).1 hexposed).2 element (List.mem_singleton_self element)
    refine .array ((hext.trans hext₁).keeps.get? hty) (he.turns helement) ?_
    rw [UnionType.orMixed_of]
    exact UnionType.image_of hj fun _ hk => Finds.unique hk hj
  · rw [Settled, ht₁.canonical.everywhere_finds kindProperty_not_isStatic
      (writable_array he.inside nullable) hj] at hsettled
    refine .intro hty trivial fun x hx => ?_
    rw [List.mem_singleton.1 hx]
    exact he.exposed (hsettled.2 e (List.mem_singleton_self e))

/-- A shape is made anew over what becomes of its fields. -/
theorem delivers_shapeOver (hext : t₀.Extends t) (ht : t.Proper)
    (hty : t₀.get? i = some ⟨.shape fields, nullable⟩) {fields' : List (ShapeKey × ShapeField)}
    (hfields : List.Forall₂ (ShapeField.Remade (ResolvedUnion t₀ t owner)) fields fields') :
    Delivers t (intern (.shape (ShapeFields.ofList fields')) nullable)
      fun t j => StaticResolution t₀ t owner i j := by
  have hremade : (TypeKind.shape fields).Remade (ResolvedUnion t₀ t owner) (.shape fields') :=
    .shape hfields
  have hproper := hremade.proper (ht.kinds i _ (hext.keeps.get? hty))
  have hinside : ∀ j ∈ (TypeKind.shape fields').embedded, j < t.size := by
    intro j hj
    obtain ⟨u, v, huv, hjv, -⟩ := hremade.exists_right hj
    obtain ⟨_, -, hij⟩ := huv.exists_right hjv
    exact hij.inside
  rw [ShapeFields.ofList_eq_self hproper.2]
  refine (delivers_intern ht nullable hproper hinside).imp fun j t₁ hext₁ ht₁ hj => ?_
  rw [normalize_of_acceptsNull rfl] at hj
  have hremade := hremade.mono fun u v _ huv => huv.extends ht.canonical hext₁
  refine ⟨ht₁.canonical.lt_size_of_finds hj, fun hexposed => ?_, fun hsettled => ?_⟩
  · have hparts := ((everywhere_iff hty).1 hexposed).2
    refine ht₁.canonical.turns_remade ((hext.trans hext₁).keeps.get? hty)
      (hremade.mono fun u v hu huv => ?_) hj
    exact huv.becomes ht₁.canonical fun e he => hparts e (hu e he)
  · have hw : t₁.Writable ⟨.shape fields', nullable⟩ :=
      ⟨fun e he => hext₁.lt_size (hinside e he), fun _ => rfl, hproper.wellNamed⟩
    rw [Settled, ht₁.canonical.everywhere_finds kindProperty_not_isStatic hw hj] at hsettled
    refine .intro hty trivial fun e he => ?_
    obtain ⟨u, v, huv, heu, hv⟩ := hremade.exists_left he
    obtain ⟨x, hx, hex⟩ := huv.exists_left heu
    exact hex.exposed (hsettled.2 x (hv x hx))

end

/-- Putting a class in the places that are looked into ends. -/
theorem delivers_resolveStatic (hext : t₀.Extends t) (ht : t.Proper)
    (howner : ∃ name, t.get? owner = some ⟨.object name [], false⟩) (hi : i < t₀.size) :
    Delivers t (resolveStatic owner i) fun t j => StaticResolution t₀ t owner i j := by
  induction i using Nat.strong_induction_on generalizing t with
  | _ i ih =>
    obtain ⟨⟨kind, nullable⟩, hty⟩ := exists_get? hi
    have hparts : ∀ e ∈ kind.embedded, e < t₀.size := fun e he => (embedded_lt_of_get? hty he).trans hi
    rw [resolveStatic]
    refine delivers_fetchBelow_bind (hext.keeps.get? hty) fun below => ?_
    show Delivers t (if Ty.isStaticLike ⟨kind, nullable⟩ then _ else _) _
    split
    · next hstatic =>
      obtain ⟨name, howner⟩ := howner
      exact delivers_owner hext ht howner hty (Ty.isStaticLike_iff.1 hstatic)
    · next hstatic =>
      have hnot : ¬ kind.IsStatic := fun h => hstatic (Ty.isStaticLike_iff.2 h)
      cases kind with
      | array key element =>
        have hmem : element ∈ (TypeKind.array key element).embedded := List.mem_singleton_self element
        exact (ih element (below element hmem) hext ht howner (hparts element hmem)).bind
          fun e t₁ hext₁ ht₁ he => delivers_arrayOver (hext.trans hext₁) ht₁ hty he
      | shape fields =>
        refine (delivers_mapM_attach (P := fun t => ShapeField.Remade (ResolvedUnion t₀ t owner))
          ?_ ht fun t₁ hext₁ ht₁ f => ?_).bind fun fields' t₁ hext₁ ht₁ hfields =>
            delivers_shapeOver (hext.trans hext₁) ht₁ hty hfields
        · exact fun _ _ ht _ hext _ _ h => h.mono fun hr => hr.extends ht.canonical hext
        · refine (delivers_mapM_attach (P := fun t => StaticResolution t₀ t owner) ?_ ht₁
            fun t₂ hext₂ ht₂ a => ?_).bind fun js t₂ _ ht₂ hjs =>
              delivers_pure ht₂ ⟨rfl, rfl, js, hjs, rfl⟩
          · exact fun _ _ ht _ hext _ _ h => h.extends ht.canonical hext
          · have hmem : a.1 ∈ (TypeKind.shape fields).embedded := List.mem_flatMap.2 ⟨f.1, f.2, a.2⟩
            have hext₂ := hext₁.trans hext₂
            exact ih a.1 (below a.1 hmem) (hext.trans hext₂) ht₂
              (howner.imp fun _ h => hext₂.keeps.get? h) (hparts a.1 hmem)
      | native | intLiteral | stringLiteral | template | object | callable =>
        exact delivers_unseen hext ht hty hnot id

end TypeM

namespace UnionType

open TypeM TypeTable

variable {t : TypeTable} {u : UnionType} {c : ClassName}

/-- The class is put in the places of the types that stand for it. If none of these is hidden in the
arguments of a class or in the signature of a callable type, each of them is replaced by the type of
the class, with null where it had null; and none of them is left, at any depth, exactly when none was
hidden. -/
theorem resolveStatic_settles_iff (h : Reachable TypeKind.Proper t) (hu : u.Inside t)
    (hname : c.WellFormed) (hnormal : c.Normalized) :
    ∃ owner v t₁, u.resolveStatic c t = .ok (v, t₁) ∧ t₁.Finds ⟨.object c [], false⟩ owner ∧
      ((∀ i ∈ u.members, t.Everywhere t.Exposed i) → t₁.Becomes (.ofClass owner) u v) ∧
      ((∀ j ∈ v.members, t₁.Settled j) ↔ ∀ i ∈ u.members, t.Everywhere t.Exposed i) := by
  have hin : ∀ i ∈ u.members, i < t.size := fun i hi => (hu i hi).lt_size
  obtain ⟨owner, t₁, hclass, hext₁, ht₁, howner, hobject⟩ := delivers_classType h.proper hname hnormal
  obtain ⟨v, t₂, hrun, hext₂, ht₂, hv⟩ : Delivers t₁ (u.mapMembers (TypeM.resolveStatic owner))
      fun t₂ v => ResolvedUnion t t₂ owner u v := by
    refine (delivers_mapM (P := fun t₂ => StaticResolution t t₂ owner) ?_ ht₁ fun t₂ hext₂ ht₂ i hi => ?_).map
      _ fun js _ _ _ hjs => ⟨js, hjs, rfl⟩
    · exact fun _ _ ht _ hext _ _ h => h.extends ht.canonical hext
    · exact delivers_resolveStatic (hext₁.trans hext₂) ht₂
        (hobject.imp fun _ h => hext₂.keeps.get? h) (hin i hi)
  have hext := hext₁.trans hext₂
  have hsettled : t₂.Settled owner := by
    obtain ⟨name, hobject⟩ := hobject
    exact .intro (hext₂.keeps.get? hobject) (by simp [TypeKind.IsStatic]) (by simp [TypeKind.embedded])
  refine ⟨owner, v, t₂, bind_eq_ok.2 ⟨owner, t₁, hclass, hrun⟩, howner.extends ?_ hext₂,
    hv.becomes ht₂.canonical, fun hall i hi => ?_, fun hall j hj => ?_⟩
  · simp [TypeKind.embedded]
  · obtain ⟨j, hj, hij⟩ := hv.exists_left hi
    exact hij.exposed (hall j hj)
  · obtain ⟨i, hi, hij⟩ := hv.exists_right hj
    exact (hij.turns (hall i hi)).settled ht₂.canonical hsettled (hext.lt_size (hin i hi)) j
      (mem_of.2 rfl)

/-- In an array nothing is hidden, so nothing is left. -/
theorem resolveStatic_settles_array : ∃ t a owner v t₁, Reachable TypeKind.Proper t ∧
    t.get? a = some ⟨.array .mixed NativeKind.static.id, true⟩ ∧
    (of a).resolveStatic (.make "\\" "A") t = .ok (v, t₁) ∧
    t₁.Becomes (.ofClass owner) (of a) v ∧ ∀ j ∈ v.members, t₁.Settled j := by
  have hinitial : Reachable TypeKind.Proper (initial false) := ⟨false, .refl⟩
  have hnative : ∀ {t : TypeTable}, t.Proper → NativeKind.static.id < t.size := fun ht =>
    lt_size_of_entry (ht.canonical.natives .static)
  have hproper : (TypeKind.array .mixed NativeKind.static.id).Proper := trivial
  obtain ⟨a, t, h, -, ha⟩ := hinitial.exists_finds true hproper
    (writable_array (hnative hinitial.proper) true).inside
  have ha := h.proper.canonical.get?_of_finds_array (hnative h.proper) ha
  have hexposed : ∀ i ∈ (of a).members, t.Everywhere t.Exposed i := by
    intro i hi
    refine mem_of.1 hi ▸ .intro ha trivial fun e he => ?_
    rw [List.mem_singleton.1 he]
    exact .intro (get?_eq (h.proper.canonical.natives .static)) (by simp [Exposed, TypeKind.embedded])
      (by simp [TypeKind.embedded])
  obtain ⟨owner, v, t₁, hrun, -, hbecomes, hsettled⟩ := resolveStatic_settles_iff h (inside_of_get? ha)
    (c := .make "\\" "A") ⟨["A".toList], by decide, by decide, by decide⟩ (by decide)
  exact ⟨t, a, owner, v, t₁, h, ha, hrun, hbecomes hexposed, hsettled.2 hexposed⟩

/-- The argument of a class is not looked into, so it is left. -/
theorem resolveStatic_leaves_argument : ∃ t b t₁, Reachable TypeKind.Proper t ∧
    t.Finds ⟨.object (.make "\\" "Box") [native .static], false⟩ b ∧
    (of b).resolveStatic (.make "\\" "A") t = .ok (of b, t₁) ∧ ¬ t₁.Settled b := by
  have hinitial : Reachable TypeKind.Proper (initial false) := ⟨false, .refl⟩
  have hproper : (TypeKind.object (.make "\\" "Box") [native .static]).Proper :=
    ⟨⟨["Box".toList], by decide, by decide, by decide⟩, by decide⟩
  have hinside : ∀ {t : TypeTable}, t.Proper →
      ∀ e ∈ (TypeKind.object (.make "\\" "Box") [native .static]).embedded, e < t.size := by
    intro t ht e he
    have he : e ∈ [NativeKind.static.id] := he
    exact List.mem_singleton.1 he ▸ lt_size_of_entry (ht.canonical.natives .static)
  obtain ⟨b, t, h, -, hb⟩ := hinitial.exists_finds false hproper (hinside hinitial.proper)
  obtain ⟨owner, t₁, hclass, hext, ht₁, -⟩ := delivers_classType h.proper
    (c := .make "\\" "A") ⟨["A".toList], by decide, by decide, by decide⟩ (by decide)
  have hw := writable_normalize false (hinside h.proper) hproper.wellNamed
  obtain ⟨⟨kind, nullable⟩, hfound, ⟨-, hkind⟩, -⟩ := h.proper.canonical.alike_of_finds hw hb
  have hrun : TypeM.resolveStatic owner b t₁ = .ok (b, t₁) := by
    obtain ⟨below, hfetch⟩ := TypeM.exists_fetchBelow (hext.keeps.get? hfound)
    rw [TypeM.resolveStatic]
    refine bind_eq_ok.2 ⟨_, _, hfetch, ?_⟩
    cases kind with
    | object => rfl
    | _ => exact hkind.elim
  refine ⟨t, b, t₁, h, hb, bind_eq_ok.2 ⟨owner, t₁, hclass, ?_⟩, fun hsettled => ?_⟩
  · exact bind_eq_ok.2 ⟨[b], t₁, bind_eq_ok.2 ⟨b, t₁, hrun, rfl⟩, rfl⟩
  · rw [Settled, ht₁.canonical.everywhere_finds kindProperty_not_isStatic (hw.extends hext)
      (hb.extends hw.inside hext)] at hsettled
    have hstatic := hsettled.2 NativeKind.static.id (by decide)
    exact ((everywhere_iff (get?_eq (ht₁.canonical.natives .static))).1 hstatic).1 (.inl rfl)

end UnionType

end UnionInference
