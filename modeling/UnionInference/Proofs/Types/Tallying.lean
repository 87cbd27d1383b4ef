import UnionInference.Proofs.Types.Flattening
import UnionInference.Proofs.Types.Correspondence

/-!
Work on two tables. Questions about unions that have the same types, each in its own table, have the
same answers, and work on the two tables that adds no types to them comes to results that correspond:
the order in which the members of a union came, and what else the tables hold, makes no difference.
-/

namespace UnionInference

/-! ### Types without their parts -/

/-- What is left of a kind without the types that it is made of and without the names of classes. -/
def TypeKind.bare : TypeKind → TypeKind
  | .object _ _ => .object default []
  | .array key _ => .array key 0
  | .shape fields => .shape (fields.map fun f => (f.1, { type := .empty }))
  | .callable sig => .callable { sig with params := [], result := .empty }
  | kind => kind

/-- What is left of a type without the types that it is made of. -/
def Ty.bare (ty : Ty) : Ty := ⟨ty.kind.bare, ty.nullable⟩

theorem TypeKind.Matches.bare_eq {N : ClassName → ClassName → Prop} {R : TypeId → TypeId → Prop} :
    ∀ {a b : TypeKind}, a.Matches N R b → a.bare = b.bare
  | .native _, .native _, h => by rw [show _ = _ from h]
  | .object _ _, .object _ _, _ => rfl
  | .array .., .array .., h => by rw [bare, bare, h.1]
  | .shape _, .shape _, h => by
    have hkeys :=
      (List.Forall₂.imp (fun _ _ hfg => hfg.1) h : List.Forall₂ (fun f g => f.1 = g.1) _ _)
    rw [bare, bare, TypeKind.shape.injEq]
    refine List.forall₂_eq_eq_eq ▸ ?_
    rw [List.forall₂_map_left_iff, List.forall₂_map_right_iff]
    exact hkeys.imp fun f g hfg => by rw [hfg]
  | .intLiteral _, .intLiteral _, h => by rw [show _ = _ from h]
  | .stringLiteral _, .stringLiteral _, h => by rw [show _ = _ from h]
  | .callable _, .callable _, h => by rw [bare, bare, h.1]
  | .template _, .template _, h => by rw [show _ = _ from h]

theorem Ty.Matches.bare_eq {R : TypeId → TypeId → Prop} {a b : Ty} (h : a.Matches R b) :
    a.bare = b.bare := by
  rw [bare, bare, h.1, h.2.bare_eq]

/-- The question about a type does not look at what the type is made of. -/
def Outward {α : Type} (f : Ty → α) : Prop := ∀ ty : Ty, f ty.bare = f ty

namespace Outward

theorem eq {α : Type} {f : Ty → α} (hf : Outward f) {R : TypeId → TypeId → Prop} {a b : Ty}
    (h : a.Matches R b) : f a = f b := by
  rw [← hf a, ← hf b, h.bare_eq]

theorem comp {α β : Type} {f : Ty → α} (hf : Outward f) (g : α → β) : Outward fun ty => g (f ty) :=
  fun ty => congrArg g (hf ty)

theorem comp₂ {α β γ : Type} {f : Ty → α} {f' : Ty → β} (hf : Outward f) (hf' : Outward f')
    (g : α → β → γ) : Outward fun ty => g (f ty) (f' ty) :=
  fun ty => congrArg₂ g (hf ty) (hf' ty)

theorem nullable : Outward Ty.nullable := fun _ => rfl

theorem native? : Outward Ty.native? := fun ⟨kind, _⟩ => by cases kind <;> rfl

theorem isNative (k : NativeKind) : Outward (Ty.isNative · k) := native?.comp (· == some k)

theorem admitsNull : Outward Ty.admitsNull := nullable.comp₂ (isNative .null) (· || ·)

theorem isArrayLike : Outward Ty.isArrayLike := fun ⟨kind, _⟩ => by cases kind <;> rfl

theorem isIterableLike : Outward Ty.isIterableLike := isArrayLike.comp₂ (isNative .iterable) (· || ·)

theorem isShape : Outward Ty.isShape := fun ⟨kind, _⟩ => by cases kind <;> rfl

theorem isObjectLike : Outward Ty.isObjectLike := fun ⟨kind, _⟩ => by cases kind <;> rfl

theorem isIntLike : Outward Ty.isIntLike := fun ⟨kind, _⟩ => by cases kind <;> rfl

theorem isStringLike : Outward Ty.isStringLike := fun ⟨kind, _⟩ => by cases kind <;> rfl

theorem isBoolLike : Outward Ty.isBoolLike := fun ⟨kind, _⟩ => by cases kind <;> rfl

theorem isScalar : Outward Ty.isScalar := fun ⟨kind, _⟩ => by cases kind <;> rfl

theorem isTemplate : Outward Ty.isTemplate := fun ⟨kind, _⟩ => by cases kind <;> rfl

theorem isStaticLike : Outward Ty.isStaticLike := fun ⟨kind, _⟩ => by cases kind <;> rfl

theorem keyKindOf : Outward UnionType.keyKindOf := fun ⟨kind, _⟩ => by
  cases kind with
  | shape fields =>
    show some ((ShapeFields.keyKind (fields.map _)).getD .mixed) = _
    rw [ShapeFields.keyKind, List.map_map]
    rfl
  | _ => rfl

end Outward

/-! ### Questions -/

theorem anyM_eq_ok {α : Type} {f : α → Checked Bool} {g : α → Bool} {as : List α}
    (h : ∀ a ∈ as, f a = .ok (g a)) : as.anyM f = .ok (as.any g) := by
  induction as with
  | nil => rfl
  | cons a as ih =>
    have hrest := ih fun b hb => h b (List.mem_cons_of_mem _ hb)
    rw [List.anyM, h a List.mem_cons_self, List.any_cons]
    cases g a with
    | true => rfl
    | false => exact hrest

theorem allM_eq_ok {α : Type} {f : α → Checked Bool} {g : α → Bool} {as : List α}
    (h : ∀ a ∈ as, f a = .ok (g a)) : as.allM f = .ok (as.all g) := by
  induction as with
  | nil => rfl
  | cons a as ih =>
    have hrest := ih fun b hb => h b (List.mem_cons_of_mem _ hb)
    rw [List.allM, h a List.mem_cons_self, List.all_cons]
    cases g a with
    | true => exact hrest
    | false => rfl

theorem filterM_eq_ok {α : Type} {f : α → Checked Bool} {g : α → Bool} {as : List α}
    (h : ∀ a ∈ as, f a = .ok (g a)) : as.filterM f = .ok (as.filter g) := by
  have hkept : ∀ kept, as.filterAuxM f kept = .ok ((as.filter g).reverse ++ kept) := by
    induction as with
    | nil => exact fun kept => rfl
    | cons a as ih =>
      intro kept
      rw [List.filterAuxM, h a List.mem_cons_self]
      refine (ih (fun b hb => h b (List.mem_cons_of_mem _ hb)) _).trans ?_
      rw [List.filter_cons]
      cases g a <;> simp
  rw [List.filterM, hkept]
  simp [bind, Except.bind, pure, Except.pure]

namespace TypeTable

variable {t t' : TypeTable} {u v : UnionType} {p : Ty → Bool}

theorem fetch_map_eq (h : ∀ i ∈ u.members, i < t.size) (p : Ty → Bool) :
    ∀ i ∈ u.members, (t.fetch i).map p = .ok ((t.get? i).any p) := by
  intro i hi
  obtain ⟨ty, hty⟩ := exists_get? (h i hi)
  rw [fetch_of_get? hty, hty]
  rfl

namespace SameTypes

theorem flip (huv : t.SameTypes t' u v) : t'.SameTypes t v u :=
  Matched.flip (huv.imp fun _ _ _ _ => Corresponds.flip)

theorem lt_size (huv : t.SameTypes t' u v) : ∀ i ∈ u.members, i < t.size := by
  intro i hi
  obtain ⟨j, -, hij⟩ := huv.forth i hi
  obtain ⟨ty, ty', hty, -⟩ := hij.types
  exact lt_size_of_get? hty

theorem inside (huv : t.SameTypes t' u v) : u.Inside t :=
  fun i hi => holds_of_lt (huv.lt_size i hi) fun _ => trivial

theorem any_get?_eq {i j : TypeId} (hij : t.Corresponds t' i j) (hp : Outward p) :
    (t.get? i).any p = (t'.get? j).any p := by
  obtain ⟨ty, ty', hty, hty', hmatch⟩ := hij.types
  rw [hty, hty']
  exact hp.eq hmatch

theorem anyMember_eq (huv : t.SameTypes t' u v) (hp : Outward p) :
    ∃ b, u.anyMember t p = .ok b ∧ v.anyMember t' p = .ok b := by
  refine ⟨_, anyM_eq_ok (fetch_map_eq huv.lt_size p), ?_⟩
  rw [huv.any_eq fun i _ j _ hij => any_get?_eq hij hp]
  exact anyM_eq_ok (fetch_map_eq huv.flip.lt_size p)

theorem allMembers_eq (huv : t.SameTypes t' u v) (hp : Outward p) :
    ∃ b, u.allMembers t p = .ok b ∧ v.allMembers t' p = .ok b := by
  unfold UnionType.allMembers
  rw [← UnionType.Matches.isEmpty_eq huv]
  split
  · exact ⟨false, rfl, rfl⟩
  · refine ⟨_, allM_eq_ok (fetch_map_eq huv.lt_size p), ?_⟩
    rw [huv.all_eq fun i _ j _ hij => any_get?_eq hij hp]
    exact allM_eq_ok (fetch_map_eq huv.flip.lt_size p)

theorem filterMembers (huv : t.SameTypes t' u v) (hp : Outward p) :
    ∃ a b, u.filterMembers t p = .ok a ∧ v.filterMembers t' p = .ok b ∧ t.SameTypes t' a b := by
  refine ⟨_, _, ?_, ?_, .ofList (Matched.filter huv fun i _ j _ hij => any_get?_eq hij hp)⟩
  · rw [UnionType.filterMembers, filterM_eq_ok (fetch_map_eq huv.lt_size p)]
    rfl
  · rw [UnionType.filterMembers, filterM_eq_ok (fetch_map_eq huv.flip.lt_size p)]
    rfl

/-- The kinds of the keys of array members are the same. -/
theorem keyKind_eq (huv : t.SameTypes t' u v) :
    ∃ k, u.keyKind t = .ok k ∧ v.keyKind t' = .ok k := by
  obtain ⟨ks, hks, hmem⟩ := UnionType.keyKind_eq huv.inside
  obtain ⟨ks', hks', hmem'⟩ := UnionType.keyKind_eq huv.flip.inside
  have hsub : ∀ {t t' : TypeTable} {u v : UnionType}, t.SameTypes t' u v → ∀ k : KeyKind,
      (∃ i ∈ u.members, ∃ ty, t.get? i = some ty ∧ UnionType.keyKindOf ty = some k) →
      ∃ i ∈ v.members, ∃ ty, t'.get? i = some ty ∧ UnionType.keyKindOf ty = some k := by
    rintro t t' u v huv k ⟨i, hi, ty, hty, hk⟩
    obtain ⟨j, hj, hij⟩ := huv.forth i hi
    obtain ⟨a, b, ha, hb, hab⟩ := hij.types
    cases hty.symm.trans ha
    exact ⟨j, hj, b, hb, (Outward.keyKindOf.eq hab).symm.trans hk⟩
  have hsame : KeyKind.mergeAll ks = KeyKind.mergeAll ks' := KeyKind.mergeAll_congr fun k => by
    rw [hmem, hmem']
    exact ⟨hsub huv k, hsub huv.flip k⟩
  exact ⟨_, hks, hsame ▸ hks'⟩

end SameTypes

/-! ### Elements -/

/-- Kinds that match have related elements. -/
theorem elementsOf_matched {N : ClassName → ClassName → Prop} {R : TypeId → TypeId → Prop} :
    ∀ {a b : TypeKind}, a.Matches N R b →
      Matched R (UnionType.elementsOf a) (UnionType.elementsOf b)
  | .native _, .native _, _ => .nil
  | .object _ _, .object _ _, _ => .nil
  | .array .., .array .., h => .singleton h.2
  | .shape _, .shape _, h => (Matched.of_forall₂ h).flatMap fun _ _ _ _ hfg => hfg.2.2
  | .intLiteral _, .intLiteral _, _ => .nil
  | .stringLiteral _, .stringLiteral _, _ => .nil
  | .callable _, .callable _, _ => .nil
  | .template _, .template _, _ => .nil

theorem SameTypes.hasOpen (huv : t.SameTypes t' u v) (hu : UnionType.HasOpen t u) :
    UnionType.HasOpen t' v := by
  obtain ⟨i, hi, ty, hty, hopen⟩ := hu
  obtain ⟨j, hj, hij⟩ := huv.forth i hi
  obtain ⟨a, ⟨kind, nullable⟩, ha, hb, -, hkind⟩ := hij.types
  cases hty.symm.trans ha
  refine ⟨j, hj, _, hb, ?_⟩
  rcases hopen with hopen | hopen <;> rw [hopen] at hkind <;> cases kind <;>
    simp_all [TypeKind.Matches]

section

variable {r : Regime} {t₀ : TypeTable} (h : Siblings r t₀ t t')
include h

theorem Siblings.elementTypes (huv : t.SameTypes t' u v) :
    ∃ a b, u.elementTypes t = .ok a ∧ v.elementTypes t' = .ok b ∧ t.SameTypes t' a b := by
  obtain ⟨a, ha, hopen, hmem⟩ := UnionType.elementTypes_eq huv.inside
  obtain ⟨b, hb, hopen', hmem'⟩ := UnionType.elementTypes_eq huv.flip.inside
  refine ⟨a, b, ha, hb, ?_⟩
  by_cases hu : UnionType.HasOpen t u
  · rw [hopen hu, hopen' (huv.hasOpen hu)]
    exact h.sameTypes_native .mixed
  have hv : ¬ UnionType.HasOpen t' v := fun hv => hu (huv.flip.hasOpen hv)
  have hforth : ∀ {t t' : TypeTable} {u v : UnionType}, t.SameTypes t' u v → ∀ x,
      UnionType.IsElement t u x → ∃ y, UnionType.IsElement t' v y ∧ t.Corresponds t' x y := by
    rintro t t' u v huv x ⟨i, hi, ty, hty, hx⟩
    obtain ⟨j, hj, hij⟩ := huv.forth i hi
    obtain ⟨ty', ty'', hty', hty'', -, hkind⟩ := hij.types
    cases hty.symm.trans hty'
    obtain ⟨y, hy, hxy⟩ := (elementsOf_matched hkind).forth x hx
    exact ⟨y, ⟨j, hj, ty'', hty'', hy⟩, hxy⟩
  constructor
  · intro x hx
    obtain ⟨y, hy, hxy⟩ := hforth huv x ((hmem hu x).1 hx)
    exact ⟨y, (hmem' hv y).2 hy, hxy⟩
  · intro y hy
    obtain ⟨x, hx, hxy⟩ := hforth huv.flip y ((hmem' hv y).1 hy)
    exact ⟨x, (hmem hu x).2 hx, hxy.flip⟩

theorem Siblings.iterableValues (huv : t.SameTypes t' u v) :
    ∃ a b, u.iterableValues t = .ok a ∧ v.iterableValues t' = .ok b ∧ t.SameTypes t' a b := by
  obtain ⟨a, b, ha, hb, hab⟩ := h.elementTypes huv
  obtain ⟨more, hmore, hmore'⟩ :=
    huv.anyMember_eq ((Outward.isNative .iterable).comp₂ .isObjectLike (· || ·))
  unfold UnionType.iterableValues
  rw [ha, hb]
  show ∃ _ _, (u.anyMember t _ >>= fun b => if b then _ else _ : Checked UnionType) = _ ∧
    (v.anyMember t' _ >>= fun b => if b then _ else _ : Checked UnionType) = _ ∧ _
  rw [hmore, hmore']
  cases more with
  | true => exact ⟨_, _, rfl, rfl, h.insert_native hab .mixed⟩
  | false => exact ⟨a, b, rfl, rfl, hab⟩

end

/-! ### Fields -/

theorem get?_rel {R : TypeId → TypeId → Prop} {fs gs : ShapeFields}
    (h : List.Forall₂ (ShapeField.Matches R) fs gs) (key : ShapeKey) :
    Option.Rel (fun f g => f.optional = g.optional ∧ f.type.Matches R g.type)
      (ShapeFields.get? fs key) (ShapeFields.get? gs key) := by
  induction h with
  | nil => exact .none
  | @cons f g fs gs hfg _ ih =>
    obtain ⟨k, f⟩ := f
    obtain ⟨k', g⟩ := g
    obtain ⟨rfl, hrest⟩ := hfg
    rw [ShapeFields.get?, ShapeFields.get?, List.lookup_cons, List.lookup_cons]
    cases key == k with
    | true => exact .some hrest
    | false => exact ih

/-- A loop over the members of a union that adds what types have to what was found. -/
theorem foldlM_found {has : Ty → Option UnionType}
    {step : Option UnionType → TypeId → Checked (Option UnionType)} {ids : List TypeId}
    (hstep : ∀ acc, ∀ i ∈ ids, ∀ ty, t.get? i = some ty → step acc i =
      .ok ((has ty).elim acc fun type => some ((acc.getD .empty).union type)))
    (hids : ∀ i ∈ ids, i < t.size) (acc : Option UnionType) :
    ids.foldlM step acc = .ok ((ids.filterMap fun i => (t.get? i).bind has).foldl
      (fun acc type => some ((acc.getD .empty).union type)) acc) := by
  induction ids generalizing acc with
  | nil => rfl
  | cons i ids ih =>
    obtain ⟨ty, hty⟩ := exists_get? (hids i List.mem_cons_self)
    rw [List.foldlM_cons, hstep acc i List.mem_cons_self ty hty]
    refine (ih (fun acc j hj => hstep acc j (List.mem_cons_of_mem i hj))
      (fun j hj => hids j (List.mem_cons_of_mem i hj)) _).trans ?_
    cases hhas : has ty <;> simp [hty, hhas]

/-- What is found in this way is the same if the types have the same. -/
theorem foldl_found {us vs : List UnionType} (h : Matched (t.SameTypes t') us vs) :
    Option.Rel (t.SameTypes t')
      (us.foldl (fun acc type => some ((acc.getD .empty).union type)) none)
      (vs.foldl (fun acc type => some ((acc.getD .empty).union type)) none) := by
  have hsome : ∀ (us : List UnionType) (u : UnionType),
      us.foldl (fun acc type => some ((acc.getD .empty).union type)) (some u) =
        some (us.foldl UnionType.union u) := by
    intro us
    induction us with
    | nil => exact fun u => rfl
    | cons v us ih => exact fun u => ih _
  have hempty := h.isEmpty_eq
  cases us with
  | nil =>
    cases vs with
    | nil => exact .none
    | cons v vs => cases hempty
  | cons u us =>
    cases vs with
    | nil => cases hempty
    | cons v vs =>
      rw [List.foldl_cons, List.foldl_cons, hsome, hsome]
      have hall : (List.foldl UnionType.union .empty (u :: us)).Matches (t.Corresponds t')
          (List.foldl UnionType.union .empty (v :: vs)) := .foldl_union h .empty
      exact .some hall

/-- The type of a field that is held under a key. -/
def fieldType? (key : ShapeKey) (ty : Ty) : Option UnionType :=
  match ty.kind with
  | .shape fields => (ShapeFields.get? fields key).map ShapeField.type
  | _ => none

theorem shapeField?_eq (hu : ∀ i ∈ u.members, i < t.size) (key : ShapeKey) :
    u.shapeField? t key = .ok ((u.members.filterMap fun i => (t.get? i).bind (fieldType? key)).foldl
      (fun acc type => some ((acc.getD .empty).union type)) none) := by
  refine foldlM_found (fun acc i _ ⟨kind, nullable⟩ hty => ?_) hu none
  rw [fetch_of_get? hty, fieldType?]
  cases kind with
  | shape fields =>
    dsimp only [bind, Except.bind]
    cases ShapeFields.get? fields key <;> rfl
  | _ => rfl

theorem fieldType?_rel {i j : TypeId} (hij : t.Corresponds t' i j) (key : ShapeKey) :
    Option.Rel (t.SameTypes t') ((t.get? i).bind (fieldType? key))
      ((t'.get? j).bind (fieldType? key)) := by
  obtain ⟨⟨kind, nullable⟩, ⟨kind', nullable'⟩, hi, hj, -, hkind⟩ := hij.types
  rw [hi, hj, Option.bind_some, Option.bind_some, fieldType?, fieldType?]
  cases kind with
  | shape fields =>
    cases kind' with
    | shape fields' => exact optionRel_map (get?_rel hkind key) fun _ _ h => h.2
    | _ => exact hkind.elim
  | _ => cases kind' <;> first | exact .none | exact hkind.elim

/-- What the shape members hold under a key is found alike. -/
theorem SameTypes.shapeField? (huv : t.SameTypes t' u v) (key : ShapeKey) :
    ∃ a b, u.shapeField? t key = .ok a ∧ v.shapeField? t' key = .ok b ∧
      Option.Rel (t.SameTypes t') a b :=
  ⟨_, _, shapeField?_eq huv.lt_size key, shapeField?_eq huv.flip.lt_size key,
    foldl_found (huv.filterMap fun _ _ _ _ hij => fieldType?_rel hij key)⟩

/-! ### Tables with the same types -/

variable {t₁ t₂ : TypeTable}

theorem keeps_of_entries (h : t.entries = t₁.entries) : t.Keeps t₁ := fun i e he => by rwa [← h]

/-- Canonical tables with the same types find the same. -/
theorem Canonical.extends_of_entries (hc : t.Canonical) (hc₁ : t₁.Canonical)
    (h : t₁.entries = t.entries) : t.Extends t₁ := by
  refine ⟨keeps_of_entries h.symm, fun s i hi => ?_⟩
  obtain ⟨e, he, hs⟩ := hc.onlyFound s i hi
  have he₁ : t₁.entries[i]? = some e := h ▸ he
  have hidentity : t₁.identity e.type = t.identity e.type := by
    -- the text under which a type is looked for is told by the types
    have hbare : ∀ t' : TypeTable, t'.entries = t.entries →
        ({ t with byKey := {} } : TypeTable).Extends t' :=
      fun t' h => ⟨fun i e he => h ▸ he, fun s i hi => by simp at hi⟩
    have hin : ∀ j ∈ e.type.kind.embedded, j < ({ t with byKey := {} } : TypeTable).size :=
      fun j hj => (embedded_lt he hj).trans (lt_size_of_entry he)
    rw [(hbare t₁ h).identity_eq hin, (hbare t rfl).identity_eq hin]
  rcases hs with rfl | rfl
  · exact hc₁.keyFound i e he₁
  · rw [← hidentity]
    exact hc₁.identityFound i e he₁

/-- What stands between two tables with the same types has the same types. -/
theorem Keeps.entries_eq (h : t.Keeps t₁) (h₁ : t₁.Keeps t₂) (he : t₂.entries = t.entries) :
    t₁.entries = t.entries := by
  refine Array.ext_getElem? fun i => ?_
  cases hi : t₁.entries[i]? with
  | some e => rw [← he, h₁ i e hi]
  | none =>
    cases hj : t.entries[i]? with
    | none => rfl
    | some e => cases hi.symm.trans (h i e hj)

end TypeTable

/-! ### Work -/

namespace TypeM

open TypeTable (Siblings)

variable {α β γ δ : Type} {T T' : TypeTable} {p : TypeM α} {q : TypeM β}

/-- On every canonical table with the given types the work comes to the result, and it adds none. -/
structure Yields (T : TypeTable) (p : TypeM α) (a : α) : Prop where
  canonical : T.Canonical
  run : ∀ t : TypeTable, t.Canonical → t.entries = T.entries → p t = .ok (a, t)

/-- Work that adds no types to a canonical table comes to the same on every table with its types. -/
theorem Recurs.yields (hp : Recurs p) {t t₁ : TypeTable} {a : α} (hT : T.Canonical)
    (ht : t.Canonical) (he : t.entries = T.entries) (hrun : p t = .ok (a, t₁))
    (he₁ : t₁.entries = T.entries) : Yields T p a where
  canonical := hT
  run t₂ ht₂ he₂ := by
    have hn₁ : t₁.WellNamed := TypeTable.WellNamed.of_entries ht.named (he₁.trans he.symm)
    have ht₁ := (hp.grows ht hrun hn₁).1
    exact hp.again ht hrun hn₁ (ht₁.extends_of_entries ht₂ (he₂.trans he₁.symm))

theorem Yields.self {a : α} (h : Yields T p a) : p T = .ok (a, T) := h.run T h.canonical rfl

theorem Yields.unique {a b : α} (h : Yields T p a) (h' : Yields T p b) : a = b := by
  have heq := h.self.symm.trans h'.self
  cases heq
  rfl

theorem Yields.pure (hT : T.Canonical) (a : α) : Yields T (pure a) a := ⟨hT, fun _ _ _ => rfl⟩

theorem Yields.pure_eq {a b : α} (h : Yields T (Pure.pure a) b) : b = a := by
  have hrun := h.self
  cases hrun
  rfl

theorem Yields.query_eq {f : TypeTable → Checked α} {a : α} (h : Yields T (query f) a) :
    f T = .ok a := by
  have hrun := h.self
  unfold query at hrun
  cases hx : f T with
  | error v =>
    rw [hx] at hrun
    cases hrun
  | ok b =>
    rw [hx] at hrun
    cases hrun
    rfl

theorem Yields.bind {f : α → TypeM β} {a : α} {b : β} (h : Yields T p a) (h' : Yields T (f a) b) :
    Yields T (p >>= f) b :=
  ⟨h.canonical, fun t ht he => bind_eq_ok.2 ⟨a, t, h.run t ht he, h'.run t ht he⟩⟩

/-- Work in two steps comes to what the second step comes to after the first one. -/
theorem Yields.bind_inv {f : α → TypeM β} {b : β} (h : Yields T (p >>= f) b) (hp : Recurs p)
    (hf : ∀ a, Recurs (f a)) : ∃ a, Yields T p a ∧ Yields T (f a) b := by
  obtain ⟨a, t₁, hfirst, hrest⟩ := bind_eq_ok.1 h.self
  have he₁ : t₁.entries = T.entries :=
    (hp.keeps hfirst).1.entries_eq ((hf a).keeps hrest).1 rfl
  have hc₁ := (hp.grows h.canonical hfirst
    (TypeTable.WellNamed.of_entries h.canonical.named he₁)).1
  exact ⟨a, hp.yields h.canonical h.canonical rfl hfirst he₁,
    (hf a).yields h.canonical hc₁ he₁ hrest rfl⟩

theorem Yields.mapM_inv {f : α → TypeM β} (hf : ∀ a, Recurs (f a)) {as : List α} {bs : List β}
    (h : Yields T (as.mapM f) bs) : List.Forall₂ (fun a b => Yields T (f a) b) as bs := by
  induction as generalizing bs with
  | nil =>
    rw [List.mapM_nil] at h
    rw [h.pure_eq]
    exact .nil
  | cons a as ih =>
    rw [List.mapM_cons] at h
    obtain ⟨b, hb, h⟩ := h.bind_inv (hf a) fun b => (Recurs.mapM hf as).bind fun bs => .pure _
    obtain ⟨bs, hbs, h⟩ := h.bind_inv (Recurs.mapM hf as) fun bs => .pure _
    rw [h.pure_eq]
    exact .cons hb (ih hbs)

/-- What is found for a type stands in the table and is like the type. -/
theorem Yields.intern_inv {kind : TypeKind} {nullable : Bool} {i : TypeId}
    (h : Yields T (intern kind nullable) i) (hn : kind.WellNamed) :
    ∃ ty, T.get? i = some ty ∧ ty.Alike SameName (TypeTable.normalize kind nullable) ∧
      (TypeTable.normalize kind nullable).Alike SameName ty := by
  have hin := inside_of_intern h.self
  obtain ⟨j, t', hrun', hgrows, hfinds⟩ := intern_spec h.canonical nullable hn hn hin
  rw [h.self] at hrun'
  cases hrun'
  exact h.canonical.alike_of_finds (TypeTable.writable_normalize nullable hin hn) hfinds

/-- Where both pieces of work come to results, each on the types of its own table, the results are
related. -/
structure Tallies (T T' : TypeTable) (A : α → β → Prop) (p : TypeM α) (q : TypeM β) : Prop where
  left : Recurs p
  right : Recurs q
  tally : ∀ a b, Yields T p a → Yields T' q b → A a b

namespace Tallies

variable {A : α → β → Prop} {B : γ → δ → Prop}

theorem imp {A' : α → β → Prop} (h : Tallies T T' A p q) (hA : ∀ a b, A a b → A' a b) :
    Tallies T T' A' p q := ⟨h.left, h.right, fun a b ha hb => hA a b (h.tally a b ha hb)⟩

theorem pure {a : α} {b : β} (h : A a b) : Tallies T T' A (pure a) (pure b) where
  left := .pure a
  right := .pure b
  tally a' b' ha hb := by
    rw [ha.pure_eq, hb.pure_eq]
    exact h

theorem bind {f : α → TypeM γ} {g : β → TypeM δ} (h : Tallies T T' A p q)
    (hs : (∀ a, Recurs (f a)) ∧ ∀ b, Recurs (g b))
    (hfg : ∀ a b, A a b → Tallies T T' B (f a) (g b)) : Tallies T T' B (p >>= f) (q >>= g) where
  left := h.left.bind hs.1
  right := h.right.bind hs.2
  tally c d hc hd := by
    obtain ⟨a, ha, hc⟩ := hc.bind_inv h.left hs.1
    obtain ⟨b, hb, hd⟩ := hd.bind_inv h.right hs.2
    exact (hfg a b (h.tally a b ha hb)).tally c d hc hd

theorem map {f : α → γ} {g : β → δ} (h : Tallies T T' A p q)
    (hfg : ∀ a b, A a b → B (f a) (g b)) : Tallies T T' B (f <$> p) (g <$> q) :=
  h.bind ⟨fun _ => .pure _, fun _ => .pure _⟩ fun a b hab => pure (hfg a b hab)

theorem query {f : TypeTable → Checked α} {g : TypeTable → Checked β} [TypeTable.Lasting f]
    [TypeTable.Lasting g] (h : ∃ a b, f T = .ok a ∧ g T' = .ok b ∧ A a b) :
    Tallies T T' A (query f) (TypeM.query g) where
  left := .query f
  right := .query g
  tally a b ha hb := by
    obtain ⟨a', b', ha', hb', hab⟩ := h
    cases ha.query_eq.symm.trans ha'
    cases hb.query_eq.symm.trans hb'
    exact hab

/-- In step through rows that are related row by row. -/
theorem mapM_forall₂ {R : γ → δ → Prop} {f : γ → TypeM α} {g : δ → TypeM β} {as : List γ}
    {bs : List δ} (h : List.Forall₂ R as bs) (hf : ∀ a, Recurs (f a)) (hg : ∀ b, Recurs (g b))
    (hfg : ∀ a ∈ as, ∀ b ∈ bs, R a b → Tallies T T' A (f a) (g b)) :
    Tallies T T' (List.Forall₂ A) (as.mapM f) (bs.mapM g) where
  left := .mapM hf as
  right := .mapM hg bs
  tally xs ys hxs hys := by
    have hleft := hxs.mapM_inv hf
    have hright := hys.mapM_inv hg
    clear hxs hys
    induction h generalizing xs ys with
    | nil =>
      cases hleft
      cases hright
      exact .nil
    | cons hab _ ih =>
      obtain _ | ⟨hx, hxs⟩ := hleft
      obtain _ | ⟨hy, hys⟩ := hright
      refine .cons ((hfg _ List.mem_cons_self _ List.mem_cons_self hab).tally _ _ hx hy) ?_
      exact ih (fun a ha b hb => hfg a (List.mem_cons_of_mem _ ha) b (List.mem_cons_of_mem _ hb))
        _ _ hxs hys

/-- Through the elements of lists that match, in whatever order they come. -/
theorem mapM_matched {R : γ → δ → Prop} {f : γ → TypeM α} {g : δ → TypeM β} {as : List γ}
    {bs : List δ} (h : Matched R as bs) (hf : ∀ a, Recurs (f a)) (hg : ∀ b, Recurs (g b))
    (hfg : ∀ a ∈ as, ∀ b ∈ bs, R a b → Tallies T T' A (f a) (g b)) :
    Tallies T T' (Matched A) (as.mapM f) (bs.mapM g) where
  left := .mapM hf as
  right := .mapM hg bs
  tally xs ys hxs hys := by
    refine h.rows (hxs.mapM_inv hf) (hys.mapM_inv hg) fun a ha b hb hab x y hx hy => ?_
    exact (hfg a ha b hb hab).tally x y hx hy

end Tallies

/-! ### Types that are asked for -/

/-- The names denote one class, and both are regular. -/
structure SameRegular (x y : ClassName) : Prop where
  same : x.fold = y.fold
  regular : x.Regular
  regular' : y.Regular

theorem tallies_fetch {i j : TypeId} (h : T.Corresponds T' i j) :
    Tallies T T' (fun ty ty' => T.get? i = some ty ∧ T'.get? j = some ty' ∧
      ty.Matches (T.Corresponds T') ty') (fetch i) (fetch j) := by
  obtain ⟨ty, ty', hty, hty', hmatch⟩ := h.types
  exact .query ⟨ty, ty', TypeTable.fetch_of_get? hty, TypeTable.fetch_of_get? hty', hty, hty',
    hmatch⟩

theorem Yields.fetch {i : TypeId} {ty : Ty} (hT : T.Canonical) (hty : T.get? i = some ty) :
    Yields T (fetch i) ty := by
  refine ⟨hT, fun t _ he => ?_⟩
  rw [TypeM.fetch, query, TypeTable.fetch_of_get? ((TypeTable.keeps_of_entries he.symm).get? hty)]
  rfl

theorem Yields.exists_fetch {i : TypeId} {f : Ty → TypeM α} {a : α}
    (h : Yields T (TypeM.fetch i >>= f) a) : ∃ ty, T.get? i = some ty ∧ Yields T (f ty) a := by
  obtain ⟨ty, T', hfetch, -⟩ := bind_eq_ok.1 h.self
  have hlt : i < T.size := by
    by_contra hout
    rw [TypeM.fetch, query, TypeTable.fetch_eq_error (Nat.not_lt.1 hout)] at hfetch
    cases hfetch
  obtain ⟨ty, hty⟩ := TypeTable.exists_get? hlt
  refine ⟨ty, hty, h.canonical, fun t ht he => ?_⟩
  obtain ⟨ty', t', hfetch, hrest⟩ := bind_eq_ok.1 (h.run t ht he)
  cases ((Yields.fetch h.canonical hty).run t ht he).symm.trans hfetch
  exact hrest

theorem Yields.fetch_inv {i : TypeId} {ty : Ty} {f : Ty → TypeM α} {a : α}
    (h : Yields T (TypeM.fetch i >>= f) a) (hty : T.get? i = some ty) : Yields T (f ty) a := by
  obtain ⟨ty', hty', hrest⟩ := h.exists_fetch
  cases hty.symm.trans hty'
  exact hrest

/-- Work that first asks for types that correspond goes on with types that match. -/
theorem Tallies.fetch_bind {A : α → β → Prop} {i j : TypeId} {f : Ty → TypeM α} {g : Ty → TypeM β}
    (h : T.Corresponds T' i j) (hf : Recurs (fetch i >>= f)) (hg : Recurs (fetch j >>= g))
    (hfg : ∀ ty ty', T.get? i = some ty → T'.get? j = some ty' → ty.Matches (T.Corresponds T') ty' →
      Tallies T T' A (f ty) (g ty')) : Tallies T T' A (fetch i >>= f) (fetch j >>= g) where
  left := hf
  right := hg
  tally a b ha hb := by
    obtain ⟨ty, ty', hty, hty', hmatch⟩ := h.types
    exact (hfg ty ty' hty hty' hmatch).tally a b (ha.fetch_inv hty) (hb.fetch_inv hty')

section

variable {r : Regime} {t₀ : TypeTable} (h : Siblings r t₀ T T')
include h

/-- Types that match are found in places that correspond. -/
theorem tallies_intern {a b : TypeKind} (hn : a.WellNamed) (hn' : b.WellNamed)
    (hkind : a.Matches (fun x y => x.fold = y.fold) (T.Corresponds T') b) (nullable : Bool) :
    Tallies T T' (T.Corresponds T') (intern a nullable) (intern b nullable) where
  left := .intern a nullable
  right := .intern b nullable
  tally i j hi hj := by
    obtain ⟨ty, hty, halike, -⟩ := hi.intern_inv hn
    obtain ⟨ty', hty', -, halike'⟩ := hj.intern_inv hn'
    have hmatch : (TypeTable.normalize a nullable).Matches (T.Corresponds T')
        (TypeTable.normalize b nullable) := ⟨congrArg (nullable && ·) hkind.acceptsNull_eq, hkind⟩
    exact h.of_alike hty hty' halike hmatch halike'

theorem tallies_native (k : NativeKind) (nullable : Bool) :
    Tallies T T' (T.Corresponds T') (native k nullable) (native k nullable) := by
  unfold native
  split
  · exact tallies_intern h (a := .native k) (b := .native k) trivial trivial rfl true
  · exact .pure (h.native k)

theorem tallies_make {x y : ClassName} (hxy : SameRegular x y) {as bs : List UnionType}
    (hargs : List.Forall₂ (T.SameTypes T') as bs) (nullable : Bool) :
    Tallies T T' (T.Corresponds T') (make x.space x.name as nullable)
      (make y.space y.name bs nullable) := by
  rw [make_of_typable hxy.regular.typable, make_of_typable hxy.regular'.typable]
  exact tallies_intern h (a := .object x as) (b := .object y bs) hxy.regular.wellFormed
    hxy.regular'.wellFormed ⟨hxy.same, hargs⟩ nullable

theorem tallies_classType {x y : ClassName} (hxy : SameRegular x y) :
    Tallies T T' (T.Corresponds T') (classType x) (classType y) := tallies_make h hxy .nil false

theorem tallies_array {i j : TypeId} (hij : T.Corresponds T' i j) (key : KeyKind)
    (nullable : Bool) :
    Tallies T T' (T.Corresponds T') (array key i nullable) (array key j nullable) :=
  tallies_intern h (a := .array key i) (b := .array key j) trivial trivial ⟨rfl, hij⟩ nullable

theorem wellNamed_of_get? {i : TypeId} {ty : Ty} (hty : T.get? i = some ty) : ty.kind.WellNamed :=
  (h.sound.fit i ty hty).wellNamed h.strict

theorem tallies_withNull {i j : TypeId} (hij : T.Corresponds T' i j) (nullable : Bool) :
    Tallies T T' (T.Corresponds T') (withNull i nullable) (withNull j nullable) := by
  refine (tallies_fetch hij).bind (by grind) fun ty ty' ⟨hty, hty', hmatch⟩ => ?_
  rw [hmatch.1, hmatch.2.acceptsNull_eq]
  split
  · exact .pure hij
  · exact tallies_intern h (wellNamed_of_get? h hty) (wellNamed_of_get? h.flip hty') hmatch.2
      nullable

theorem tallies_widenLiteral {i j : TypeId} (hij : T.Corresponds T' i j) :
    Tallies T T' (T.Corresponds T') (widenLiteral i) (widenLiteral j) := by
  refine (tallies_fetch hij).bind (by grind)
      fun ⟨kind, nullable⟩ ⟨kind', nullable'⟩ ⟨_, _, hnull, hkind⟩ => ?_
  obtain rfl : nullable = nullable' := hnull
  cases kind with
  | intLiteral n =>
    cases kind' with
    | intLiteral => exact tallies_native h .int nullable
    | _ => exact hkind.elim
  | stringLiteral x =>
    cases kind' with
    | stringLiteral => exact tallies_native h .string nullable
    | _ => exact hkind.elim
  | _ => cases kind' <;> first | exact hkind.elim | exact .pure hij

end

end TypeM

namespace UnionType

open TypeM

open TypeTable (Siblings)

variable {T T' : TypeTable} {u v : UnionType}

theorem tallies_mapMembers (huv : T.SameTypes T' u v) {f g : TypeId → TypeM TypeId}
    (hf : ∀ i, Recurs (f i)) (hg : ∀ j, Recurs (g j))
    (hfg : ∀ i ∈ u.members, ∀ j ∈ v.members, T.Corresponds T' i j →
      Tallies T T' (T.Corresponds T') (f i) (g j)) :
    Tallies T T' (T.SameTypes T') (u.mapMembers f) (v.mapMembers g) :=
  (Tallies.mapM_matched huv hf hg hfg).bind (by grind) fun _ _ h => .pure (.ofList h)

/-- The union of what is made of each member. -/
theorem tallies_foldlM_union (huv : T.SameTypes T' u v) {f g : TypeId → TypeM UnionType}
    (hf : ∀ i, Recurs (f i)) (hg : ∀ j, Recurs (g j))
    (hfg : ∀ i ∈ u.members, ∀ j ∈ v.members, T.Corresponds T' i j →
      Tallies T T' (T.SameTypes T') (f i) (g j)) :
    Tallies T T' (T.SameTypes T')
      (u.members.foldlM (fun result i => do return result.union (← f i)) empty)
      (v.members.foldlM (fun result j => do return result.union (← g j)) empty) := by
  rw [foldlM_eq_mapM, foldlM_eq_mapM]
  exact (Tallies.mapM_matched huv hf hg hfg).bind (by grind)
    fun _ _ h => .pure (.foldl_union h .empty)

section

variable {r : Regime} {t₀ : TypeTable} (h : Siblings r t₀ T T') (huv : T.SameTypes T' u v)
include h huv

theorem tallies_withNull : Tallies T T' (T.SameTypes T') u.withNull v.withNull :=
  tallies_mapMembers huv (fun _ => TypeM.recurs_withNull _ _) (fun _ => TypeM.recurs_withNull _ _)
    fun _ _ _ _ hij => TypeM.tallies_withNull h hij true

theorem tallies_withoutNull : Tallies T T' (T.SameTypes T') u.withoutNull v.withoutNull :=
  tallies_mapMembers (h.erase_native huv .null) (fun _ => TypeM.recurs_withNull _ _)
    (fun _ => TypeM.recurs_withNull _ _) fun _ _ _ _ hij => TypeM.tallies_withNull h hij false

theorem tallies_widenLiterals : Tallies T T' (T.SameTypes T') u.widenLiterals v.widenLiterals :=
  tallies_mapMembers huv recurs_widenLiteral recurs_widenLiteral fun _ _ _ _ =>
    tallies_widenLiteral h

theorem tallies_asArrays (key : KeyKind) :
    Tallies T T' (T.SameTypes T') (u.asArrays key) (v.asArrays key) :=
  tallies_mapMembers huv (fun _ => recurs_array _ _ _) (fun _ => recurs_array _ _ _)
    fun _ _ _ _ hij => tallies_array h hij key false

omit huv in
theorem tallies_ofScalar (x : Scalar) (o : Options) :
    Tallies T T' (T.SameTypes T') (ofScalar x o) (ofScalar x o) := by
  have hnative : ∀ k, Tallies T T' (T.SameTypes T') (pure (native k)) (pure (native k)) :=
    fun k => .pure (h.sameTypes_native k)
  cases x with
  | int n =>
    rw [ofScalar]
    split
    · exact (tallies_intern h (a := .intLiteral n) (b := .intLiteral n) trivial trivial rfl false).map
        fun _ _ => .of
    · exact hnative .int
  | float bits => exact hnative .float
  | string x =>
    rw [ofScalar]
    split
    · exact (tallies_intern h (a := .stringLiteral x) (b := .stringLiteral x) trivial trivial rfl
        false).map fun _ _ => .of
    · exact hnative .string
  | bool b =>
    cases b with
    | true => exact hnative .true
    | false => exact hnative .false
  | null => exact hnative .null

end

end UnionType

end UnionInference
