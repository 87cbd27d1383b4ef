import UnionInference.CodeBase.Element
import UnionInference.Proofs.Types.Parts
import UnionInference.Types.Template

/-!
Work on the table that comes again. A type that was asked for stands where it stands, and no later
type changes what the table says of it; so work that asks the table for types comes to the same
result on every later table, and adds nothing to it. This takes a table in which the texts of types
tell them apart: the text of a new type must not be the one under which another type is looked for.
-/

namespace UnionInference

/-! ### Questions -/

/-- Where the first question has an answer, the second one has the same. -/
def Upholds {α : Type} (x y : Checked α) : Prop := ∀ a, x = .ok a → y = .ok a

namespace Upholds

variable {α β : Type} {x y : Checked α}

theorem refl (x : Checked α) : Upholds x x := fun _ h => h

theorem bind {f g : α → Checked β} (h : Upholds x y) (hf : ∀ a, Upholds (f a) (g a)) :
    Upholds (x >>= f) (y >>= g) := by
  intro b hb
  cases hx : x with
  | error v =>
    rw [hx] at hb
    cases hb
  | ok a =>
    rw [hx] at hb
    rw [h a hx]
    exact hf a b hb

theorem map (h : Upholds x y) (f : α → β) : Upholds (x.map f) (y.map f) := by
  intro b hb
  cases hx : x with
  | error v =>
    rw [hx] at hb
    cases hb
  | ok a =>
    rw [hx] at hb
    rwa [h a hx]

theorem foldlM {f g : β → α → Checked β} {as : List α} (h : ∀ b, ∀ a ∈ as, Upholds (f b a) (g b a))
    (b : β) : Upholds (as.foldlM f b) (as.foldlM g b) := by
  induction as generalizing b with
  | nil => exact refl _
  | cons a as ih =>
    rw [List.foldlM_cons, List.foldlM_cons]
    exact (h b a List.mem_cons_self).bind (ih fun b a ha => h b a (List.mem_cons_of_mem _ ha))

theorem mapM {f g : α → Checked β} (h : ∀ a, Upholds (f a) (g a)) (as : List α) :
    Upholds (as.mapM f) (as.mapM g) := by
  induction as with
  | nil => exact refl _
  | cons a as ih =>
    rw [List.mapM_cons, List.mapM_cons]
    exact (h a).bind fun b => ih.bind fun bs => refl _

theorem anyM {f g : α → Checked Bool} (h : ∀ a, Upholds (f a) (g a)) (as : List α) :
    Upholds (as.anyM f) (as.anyM g) := by
  induction as with
  | nil => exact refl _
  | cons a as ih =>
    refine (h a).bind fun found => ?_
    cases found with
    | true => exact refl _
    | false => exact ih

theorem allM {f g : α → Checked Bool} (h : ∀ a, Upholds (f a) (g a)) (as : List α) :
    Upholds (as.allM f) (as.allM g) := by
  induction as with
  | nil => exact refl _
  | cons a as ih =>
    refine (h a).bind fun holds => ?_
    cases holds with
    | true => exact ih
    | false => exact refl _

theorem filterM {f g : α → Checked Bool} (h : ∀ a, Upholds (f a) (g a)) (as : List α) :
    Upholds (as.filterM f) (as.filterM g) := by
  have hkept : ∀ kept, Upholds (as.filterAuxM f kept) (as.filterAuxM g kept) := by
    induction as with
    | nil => exact fun kept => refl _
    | cons a as ih => exact fun kept => (h a).bind fun keep => ih _
  exact (hkept []).bind fun kept => refl _

end Upholds

namespace TypeTable

variable {α β : Type}

/-- A question to the table whose answer no new type changes. -/
class Lasting (f : TypeTable → Checked α) : Prop where
  upholds : ∀ {t t₁ : TypeTable}, t.Keeps t₁ → Upholds (f t) (f t₁)

theorem upholds_fetchBelow {t t₁ : TypeTable} (hk : t.Keeps t₁) (id : TypeId) :
    Upholds (t.fetchBelow id) (t₁.fetchBelow id) := by
  intro a ha
  unfold fetchBelow at ha
  split at ha
  · next hlt =>
    obtain ⟨hlt₁, hsame⟩ := Array.getElem?_eq_some_iff.1 (hk id _ (Array.getElem?_eq_getElem hlt))
    unfold fetchBelow
    rw [dif_pos hlt₁, ← ha]
    simp only [hsame]
  · cases ha

instance lasting_fetchBelow (id : TypeId) : Lasting fun t => t.fetchBelow id :=
  ⟨fun hk => upholds_fetchBelow hk id⟩

theorem upholds_fetch {t t₁ : TypeTable} (hk : t.Keeps t₁) (id : TypeId) :
    Upholds (t.fetch id) (t₁.fetch id) := (upholds_fetchBelow hk id).map _

instance lasting_fetch (id : TypeId) : Lasting fun t => t.fetch id :=
  ⟨fun hk => upholds_fetch hk id⟩

instance lasting_bind {f : TypeTable → Checked α} {g : α → TypeTable → Checked β} [hf : Lasting f]
    [hg : ∀ a, Lasting (g a)] : Lasting fun t => f t >>= fun a => g a t :=
  ⟨fun hk => (hf.upholds hk).bind fun a => (hg a).upholds hk⟩

theorem upholds_collectTemplates {t t₁ : TypeTable} (hk : t.Keeps t₁) (found : List String)
    (id : TypeId) : Upholds (t.collectTemplates found id) (t₁.collectTemplates found id) := by
  induction id using Nat.strong_induction_on generalizing found with
  | _ id ih =>
    rw [collectTemplates, collectTemplates]
    refine (upholds_fetchBelow hk id).bind fun ⟨ty, below⟩ => ?_
    dsimp only
    split
    · exact .refl _
    · exact .foldlM (fun found e _ => ih e.1 (below e.1 e.2) found) found

end TypeTable

namespace UnionType

open TypeTable

variable (u : UnionType) (p : Ty → Bool) {t t₁ : TypeTable}

theorem upholds_fetch_map {α : Type} (hk : t.Keeps t₁) (f : Ty → α) (id : TypeId) :
    Upholds ((t.fetch id).map f) ((t₁.fetch id).map f) := (upholds_fetch hk id).map f

instance lasting_display : Lasting u.display where
  upholds {t t₁} hk a ha := by
    rw [display] at ha
    split at ha
    · cases ha
    · next hnone =>
      have hinside : ∀ i ∈ u.members, i < t.size := by simpa using hnone
      have hkey : ∀ i ∈ u.members, t₁.key i = t.key i := by
        intro i hi
        obtain ⟨e, he⟩ := exists_entry (hinside i hi)
        rw [TypeTable.key_eq he, TypeTable.key_eq (hk i e he)]
      rw [display_eq_ok fun i hi => hk.lt_size (hinside i hi), renderUnion,
        List.map_congr_left hkey]
      exact ha

instance lasting_anyMember : Lasting fun t => u.anyMember t p :=
  ⟨fun hk => .anyM (upholds_fetch_map hk p) _⟩

instance lasting_allMembers : Lasting fun t => u.allMembers t p where
  upholds hk := by
    unfold allMembers
    split
    · exact .refl _
    · exact .allM (upholds_fetch_map hk p) _

instance lasting_filterMembers : Lasting fun t => u.filterMembers t p :=
  ⟨fun hk => (Upholds.filterM (upholds_fetch_map hk p) _).bind fun _ => .refl _⟩

instance : Lasting u.admitsNull := lasting_anyMember u _

instance : Lasting u.hasArrayLike := lasting_anyMember u _

instance : Lasting u.isArrayLike := lasting_allMembers u _

instance : Lasting u.hasShape := lasting_anyMember u _

instance : Lasting u.hasObjectLike := lasting_anyMember u _

instance : Lasting u.hasTemplate := lasting_anyMember u _

instance : Lasting u.hasStringLike := lasting_anyMember u _

instance : Lasting u.isIntLike := lasting_allMembers u _

instance : Lasting u.isFloat := lasting_allMembers u _

instance : Lasting u.isStringLike := lasting_allMembers u _

instance : Lasting u.isScalar := lasting_allMembers u _

instance : Lasting u.withoutShapes := lasting_filterMembers u _

instance lasting_classNames : Lasting u.classNames :=
  ⟨fun hk => .foldlM (fun _ id _ => (upholds_fetch hk id).bind fun _ => .refl _) _⟩

theorem upholds_elementTypesFrom (hk : t.Keeps t₁) (ids : List TypeId) (found : UnionType) :
    Upholds (elementTypesFrom t found ids) (elementTypesFrom t₁ found ids) := by
  induction ids generalizing found with
  | nil => exact .refl _
  | cons id ids ih =>
    rw [elementTypesFrom, elementTypesFrom]
    refine (upholds_fetch hk id).bind fun ty => ?_
    split
    · exact .refl _
    · exact .refl _
    · exact ih _
    · exact ih _
    · exact ih _

instance lasting_elementTypes : Lasting u.elementTypes :=
  ⟨fun hk => upholds_elementTypesFrom hk u.members empty⟩

instance lasting_iterableValues : Lasting u.iterableValues := by
  refine @lasting_bind _ _ u.elementTypes _ _ fun elements => ?_
  refine @lasting_bind _ _ (fun t => u.anyMember t _) _ _ fun more => ?_
  exact ⟨fun _ => .refl _⟩

instance lasting_keyKind : Lasting u.keyKind :=
  ⟨fun hk => (Upholds.mapM (upholds_fetch_map hk keyKindOf) _).bind fun _ => .refl _⟩

instance lasting_shapeField? (key : ShapeKey) : Lasting fun t => u.shapeField? t key where
  upholds hk := by
    refine .foldlM (fun found id _ => (upholds_fetch hk id).bind fun ty => ?_) _
    split
    · split
      · exact .refl _
      · exact .refl _
    · exact .refl _

instance lasting_templateNames : Lasting u.templateNames :=
  ⟨fun hk => .foldlM (fun found id _ => upholds_collectTemplates hk found id) _⟩

end UnionType

instance DependentResult.lasting_stringOf (a : CallArgument) : TypeTable.Lasting (stringOf a) where
  upholds hk := by
    unfold stringOf
    split
    · exact .refl _
    · split
      · exact .refl _
      · next id _ => exact (TypeTable.upholds_fetch hk id).bind fun ty => .refl _

/-! ### Work -/

/-- Every type of the table bears a name by which types can be told apart. -/
def TypeTable.WellNamed (t : TypeTable) : Prop :=
  ∀ (i : TypeId) (e : TypeEntry), t.entries[i]? = some e → e.type.kind.WellNamed

theorem TypeTable.WellNamed.of_keeps {t t₁ : TypeTable} (h : t₁.WellNamed) (hk : t.Keeps t₁) :
    t.WellNamed := fun i e he => h i e (hk i e he)

theorem TypeTable.WellNamed.of_entries {t t₁ : TypeTable} (h : t.WellNamed)
    (he : t₁.entries = t.entries) : t₁.WellNamed := fun i e hi => h i e (he ▸ hi)

namespace TypeM

variable {α β : Type}

/-- The work comes to the same result again on every larger table, and then adds nothing. -/
structure Recurs (p : TypeM α) : Prop where
  keeps : ∀ {t t₁ : TypeTable} {a : α}, p t = .ok (a, t₁) → t.Keeps t₁ ∧ t₁.cache = t.cache
  grows : ∀ {t t₁ : TypeTable} {a : α}, t.Canonical → p t = .ok (a, t₁) → t₁.WellNamed →
    t₁.Canonical ∧ t.Extends t₁
  again : ∀ {t t₁ t₂ : TypeTable} {a : α}, t.Canonical → p t = .ok (a, t₁) → t₁.WellNamed →
    t₁.Extends t₂ → p t₂ = .ok (a, t₂)

namespace Recurs

@[grind ←]
theorem pure (a : α) : Recurs (pure a : TypeM α) where
  keeps h := by
    cases h
    exact ⟨.refl _, rfl⟩
  grows ht h _ := by
    cases h
    exact ⟨ht, .refl _⟩
  again _ h _ _ := by
    cases h
    rfl

@[grind ←]
theorem throw (v : Violation) : Recurs (throw v : TypeM α) where
  keeps h := nomatch h
  grows _ h := nomatch h
  again _ h := nomatch h

@[grind ←]
theorem bind {p : TypeM α} {f : α → TypeM β} (hp : Recurs p) (hf : ∀ a, Recurs (f a)) :
    Recurs (p >>= f) where
  keeps h := by
    obtain ⟨a, t', hrun, h⟩ := bind_eq_ok.1 h
    have hfirst := hp.keeps hrun
    have hrest := (hf a).keeps h
    exact ⟨hfirst.1.trans hrest.1, hrest.2.trans hfirst.2⟩
  grows ht h hn := by
    obtain ⟨a, t', hrun, h⟩ := bind_eq_ok.1 h
    obtain ⟨ht', hext⟩ := hp.grows ht hrun (hn.of_keeps ((hf a).keeps h).1)
    obtain ⟨ht₁, hext₁⟩ := (hf a).grows ht' h hn
    exact ⟨ht₁, hext.trans hext₁⟩
  again ht h hn hext := by
    obtain ⟨a, t', hrun, h⟩ := bind_eq_ok.1 h
    have hn' := hn.of_keeps ((hf a).keeps h).1
    obtain ⟨ht', -⟩ := hp.grows ht hrun hn'
    obtain ⟨-, hext₁⟩ := (hf a).grows ht' h hn
    exact bind_eq_ok.2 ⟨a, _, hp.again ht hrun hn' (hext₁.trans hext), (hf a).again ht' h hn hext⟩

@[grind ←]
theorem map (f : α → β) {p : TypeM α} (hp : Recurs p) : Recurs (f <$> p) :=
  hp.bind fun a => pure (f a)

@[grind ←]
theorem query (f : TypeTable → Checked α) [hf : TypeTable.Lasting f] : Recurs (query f) := by
  have hrun : ∀ {t t₁ : TypeTable} {a : α}, TypeM.query f t = .ok (a, t₁) →
      f t = .ok a ∧ t₁ = t := by
    intro t t₁ a h
    unfold TypeM.query at h
    cases hx : f t with
    | error v =>
      rw [hx] at h
      cases h
    | ok b =>
      rw [hx] at h
      cases h
      exact ⟨rfl, rfl⟩
  constructor
  · intro t t₁ a h
    obtain ⟨-, rfl⟩ := hrun h
    exact ⟨.refl _, rfl⟩
  · intro t t₁ a ht h _
    obtain ⟨-, rfl⟩ := hrun h
    exact ⟨ht, .refl _⟩
  · intro t t₁ t₂ a _ h _ hext
    obtain ⟨ha, rfl⟩ := hrun h
    show (f t₂).map _ = _
    rw [hf.upholds hext.keeps a ha]
    rfl

/-- The place of a type is asked for. If the type joins the table, its name is among those that the
table then holds. -/
@[grind ←]
theorem intern (kind : TypeKind) (nullable : Bool) : Recurs (intern kind nullable) := by
  have hcases : ∀ {t t₁ : TypeTable} {i : TypeId}, TypeM.intern kind nullable t = .ok (i, t₁) →
      (t₁ = t ∧ t.Finds (TypeTable.normalize kind nullable) i) ∨
        t₁.entries = t.entries.push ⟨TypeTable.normalize kind nullable,
          t.render (TypeTable.normalize kind nullable)⟩ := by
    intro t t₁ i h
    have hin := inside_of_intern h
    rw [TypeM.intern, dif_pos hin] at h
    rcases TypeTable.place_cases (t := t) (TypeTable.normalize kind nullable) hin with
      ⟨id, hid, hp⟩ | ⟨-, -, hjoins⟩
    · rw [hp] at h
      cases h
      exact .inl ⟨rfl, hid⟩
    · have hlast : (t.place (TypeTable.normalize kind nullable) hin).2 = t₁ :=
        congrArg Prod.snd (Except.ok.inj h)
      exact .inr (hlast ▸ hjoins.entries)
  have hkeeps : ∀ {t t₁ : TypeTable} {i : TypeId}, TypeM.intern kind nullable t = .ok (i, t₁) →
      t.Keeps t₁ := by
    intro t t₁ i h
    rcases hcases h with ⟨rfl, -⟩ | hpush
    · exact .refl _
    · intro j e he
      rw [hpush, Array.getElem?_push_lt (TypeTable.lt_size_of_entry he)]
      exact (Array.getElem?_eq_getElem (TypeTable.lt_size_of_entry he)).symm.trans he
  have hspec : ∀ {t t₁ : TypeTable} {i : TypeId}, t.Canonical →
      TypeM.intern kind nullable t = .ok (i, t₁) → t₁.WellNamed →
      t₁.Canonical ∧ t.Extends t₁ ∧ t₁.Finds (TypeTable.normalize kind nullable) i := by
    intro t t₁ i ht h hn
    rcases hcases h with ⟨rfl, hfinds⟩ | hpush
    · exact ⟨ht, .refl _, hfinds⟩
    · have hnamed : kind.WellNamed :=
        hn t.size _ (by rw [hpush, TypeTable.size, Array.getElem?_push_size])
      obtain ⟨j, t', hrun, hgrows, hfinds⟩ :=
        intern_spec ht nullable hnamed hnamed (inside_of_intern h)
      rw [hrun] at h
      cases h
      exact ⟨hgrows.canonical, hgrows.keeps, hfinds⟩
  constructor
  · exact fun h => ⟨hkeeps h, cache_of_intern h⟩
  · exact fun ht h hn => ⟨(hspec ht h hn).1, (hspec ht h hn).2.1⟩
  · intro t t₁ t₂ i ht h hn hext
    obtain ⟨-, hext₁, hfinds⟩ := hspec ht h hn
    have hin₁ : ∀ e ∈ kind.embedded, e < t₁.size := fun e he =>
      hext₁.lt_size (inside_of_intern h e he)
    exact intern_of_finds (fun e he => hext.lt_size (hin₁ e he)) (hfinds.extends hin₁ hext)

@[grind ←]
theorem foldlM {f : β → α → TypeM β} (hf : ∀ b a, Recurs (f b a)) (as : List α) (b : β) :
    Recurs (as.foldlM f b) := by
  induction as generalizing b with
  | nil => exact pure b
  | cons a as ih => exact (hf b a).bind ih

@[grind ←]
theorem mapM {f : α → TypeM β} (hf : ∀ a, Recurs (f a)) (as : List α) : Recurs (as.mapM f) := by
  induction as with
  | nil => exact pure []
  | cons a as ih =>
    rw [List.mapM_cons]
    exact (hf a).bind fun b => ih.bind fun bs => pure (b :: bs)

end Recurs

@[grind ←]
theorem recurs_fetch (id : TypeId) : Recurs (fetch id) := .query _

theorem recurs_fetchBelow (id : TypeId) : Recurs (fetchBelow id) :=
  .query _

@[grind ←]
theorem recurs_native (k : NativeKind) (nullable : Bool) : Recurs (native k nullable) := by
  unfold native; grind

@[grind ←]
theorem recurs_make (space name : String) (args : List UnionType) (nullable : Bool) :
    Recurs (make space name args nullable) := by unfold make; grind

@[grind ←]
theorem recurs_classTypeWith (name : ClassName) (args : List UnionType) :
    Recurs (classTypeWith name args) := recurs_make _ _ _ _

@[grind ←]
theorem recurs_classType (name : ClassName) : Recurs (classType name) := recurs_make _ _ _ _

@[grind ←]
theorem recurs_array (key : KeyKind) (element : TypeId) (nullable : Bool) :
    Recurs (array key element nullable) := .intern _ _

@[grind ←]
theorem recurs_withNull (id : TypeId) (nullable : Bool) : Recurs (withNull id nullable) := by
  unfold withNull; grind

@[grind ←]
theorem recurs_widenLiteral (id : TypeId) : Recurs (widenLiteral id) := by
  refine (recurs_fetch id).bind fun ty => ?_
  split
  · exact recurs_native _ _
  · exact recurs_native _ _
  · exact .pure _

end TypeM

namespace UnionType

open TypeM

variable (u : UnionType)

@[grind ←]
theorem recurs_mapMembers {f : TypeId → TypeM TypeId} (hf : ∀ i, Recurs (f i)) :
    Recurs (u.mapMembers f) := by unfold mapMembers; grind

@[grind ←]
theorem recurs_withNull : Recurs u.withNull := by unfold withNull; grind

@[grind ←]
theorem recurs_withoutNull : Recurs u.withoutNull := by unfold withoutNull; grind

@[grind ←]
theorem recurs_widenLiterals : Recurs u.widenLiterals := by unfold widenLiterals; grind

@[grind ←]
theorem recurs_asArrays (key : KeyKind) : Recurs (u.asArrays key) := by unfold asArrays; grind

@[grind ←]
theorem recurs_ofScalar (x : Scalar) (o : Options) : Recurs (ofScalar x o) := by
  cases x with
  | bool b => cases b <;> exact .pure _
  | _ => unfold ofScalar; grind

theorem recurs_bindMembers {f : (a : TypeId) → a ∈ u.members → TypeM UnionType}
    (hf : ∀ a ha, Recurs (f a ha)) : Recurs (u.bindMembers f) := by
  unfold bindMembers
  refine .foldlM (fun result a => ?_) _ _
  exact (hf a.1 a.2).bind fun _ => .pure _

end UnionType

namespace TypeM

/-! ### Placeholders

What a type is made of stands before it, so these are inductions on the place of the type. -/

theorem recurs_substitute (m : TemplateMap) (id : TypeId) : Recurs (substitute m id) := by
  induction id using Nat.strong_induction_on with
  | _ id ih =>
    rw [substitute]
    refine (recurs_fetchBelow id).bind fun ⟨⟨kind, nullable⟩, below⟩ => ?_
    have hinner : ∀ u : UnionType, (∀ e ∈ u.members, e ∈ kind.embedded) →
        Recurs (u.bindMembers fun a _ => substitute m a) := fun u hu =>
      u.recurs_bindMembers fun a ha => ih a (below a (hu a ha))
    cases kind with
    | template name =>
      dsimp only
      split
      · grind
      · exact .pure _
    | array key element =>
      refine (ih element (below element (List.mem_singleton.2 rfl))).bind fun elements => ?_
      exact UnionType.recurs_mapMembers _ fun e => recurs_array key e nullable
    | shape fields =>
      refine .bind (.mapM (fun f => ?_) _) fun fields' => (Recurs.intern _ _).bind fun _ => .pure _
      exact (hinner f.1.2.type fun e he => List.mem_flatMap.2 ⟨f.1, f.2, he⟩).bind fun _ => .pure _
    | object name args =>
      show Recurs (if args.isEmpty then pure (UnionType.of id) else _)
      split
      · exact .pure _
      · refine .bind (.mapM (fun arg => ?_) _) fun args' =>
          (recurs_make _ _ _ _).bind fun _ => .pure _
        exact hinner arg.1 fun e he => List.mem_flatMap.2 ⟨arg.1, arg.2, he⟩
    | callable sig =>
      refine .bind (.mapM (fun q => ?_) _) fun params => ?_
      · exact (hinner q.1.type fun e he => List.mem_append_left _
          (List.mem_flatMap.2 ⟨q.1, q.2, he⟩)).bind fun _ => .pure _
      · exact (hinner sig.result fun e he => List.mem_append_right _ he).bind fun result =>
          (Recurs.intern _ _).bind fun _ => .pure _
    | native k | intLiteral n | stringLiteral s => exact .pure _

theorem recurs_resolveStatic (owner id : TypeId) : Recurs (resolveStatic owner id) := by
  induction id using Nat.strong_induction_on with
  | _ id ih =>
    rw [resolveStatic]
    refine (recurs_fetchBelow id).bind fun ⟨⟨kind, nullable⟩, below⟩ => ?_
    show Recurs (if Ty.isStaticLike ⟨kind, nullable⟩ then _ else _)
    split
    · exact recurs_withNull _ _
    · cases kind with
      | array key element =>
        exact (ih element (below element (List.mem_singleton.2 rfl))).bind fun e =>
          recurs_array key e nullable
      | shape fields =>
        refine .bind (.mapM (fun f => .bind (.mapM (fun a => ?_) _) fun _ => .pure _) _)
          fun fields' => .intern _ _
        exact ih a.1 (below a.1 (List.mem_flatMap.2 ⟨f.1, f.2, a.2⟩))
      | _ => exact .pure _

theorem recurs_bindType (actual : UnionType) (m : TemplateMap) (id : TypeId) :
    Recurs (bindType actual m id) := by
  induction id using Nat.strong_induction_on generalizing actual m with
  | _ id ih =>
    rw [bindType]
    split
    · exact .pure _
    refine (recurs_fetchBelow id).bind fun ⟨⟨kind, nullable⟩, below⟩ => ?_
    cases kind with
    | template name =>
      exact actual.recurs_widenLiterals.bind fun v => v.recurs_withoutNull.bind fun _ => .pure _
    | array key element =>
      exact (Recurs.query actual.elementTypes).bind fun v => v.recurs_widenLiterals.bind
        fun w => ih element (below element (List.mem_singleton.2 rfl)) w m
    | object name params =>
      show Recurs (if params.isEmpty then pure m else _)
      split
      · exact .pure _
      refine .foldlM (fun m candidate => (recurs_fetch candidate).bind fun ty => ?_) _ _
      split
      · split
        · refine .foldlM (fun m q => .foldlM (fun m d => ?_) _ _) _ _
          exact ih d.1 (below d.1 (List.mem_flatMap.2 ⟨q.1.1, q.1.2, d.2⟩)) q.2 m
        · exact .pure _
      · exact .pure _
    | _ => exact .pure _

end TypeM

namespace UnionType

open TypeM

variable (u : UnionType)

@[grind ←]
theorem recurs_substitute (m : TemplateMap) : Recurs (u.substitute m) := by
  unfold UnionType.substitute
  split
  · exact .pure _
  · exact u.recurs_bindMembers fun a _ => TypeM.recurs_substitute m a

@[grind ←]
theorem recurs_resolveStatic (owner : ClassName) : Recurs (u.resolveStatic owner) :=
  (recurs_classType owner).bind fun i => u.recurs_mapMembers (TypeM.recurs_resolveStatic i)

@[grind ←]
theorem recurs_bindTemplates (actual : UnionType) (m : TemplateMap) :
    Recurs (u.bindTemplates actual m) := .foldlM (fun m d => recurs_bindType actual m d) _ _

end UnionType

@[grind ←]
theorem DependentResult.recurs_compute (d : DependentResult) (args : List CallArgument) :
    TypeM.Recurs (d.compute args) := by
  unfold compute
  split
  · exact .pure _
  · next arg _ =>
    refine (TypeM.Recurs.query (stringOf arg)).bind fun found => ?_
    cases found with
    | none => exact .pure _
    | some s => grind

end UnionInference
