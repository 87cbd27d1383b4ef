import UnionInference.Proofs.Types.Listing
import UnionInference.Proofs.Types.RoundTrip
import UnionInference.Proofs.Types.Substitution

/-!
Placeholders that stand for nothing. Where such a placeholder is the element of an array the array is
one of all values, but the arguments of a class and the fields of a shape just lose it, and may be left
without a type. The text of such a type cannot be read. Main statement: after replacing, no argument
and no field is left empty exactly when each of them keeps a member, and then the text of the result
is read back.
-/

namespace UnionInference

/-- No argument of the class and no field of the shape is without a type. -/
def TypeKind.Filled : TypeKind → Prop
  | .object _ args => ∀ u ∈ args, u.members ≠ []
  | .shape fields => ∀ f ∈ fields, f.2.type.members ≠ []
  | _ => True

/-- Names of placeholders, keys and integers can be read. -/
def TypeKind.Legible : TypeKind → Prop
  | .template name =>
    IsIdentifier name ∧ NativeKind.ofName? name = none ∧ Text.isBlank name = false
  | .shape fields => ∀ f ∈ fields, f.1.WellFormed
  | .intLiteral n => Text.isInteger n = true
  | _ => True

/-- Proper kinds all of whose names can be read. -/
def TypeKind.Spelled (kind : TypeKind) : Prop := kind.Proper ∧ kind.Legible

theorem typeSort_spelled : TypeSort TypeKind.Spelled :=
  ⟨fun _ h => h.1.wellNamed, fun _ => ⟨trivial, trivial⟩⟩

namespace TypeKind

variable {R : ClassName → ClassName → Prop} {kind : TypeKind} {f : TypeId → UnionType}

/-- The text of a kind with proper and legible names in which nothing is missing can be read. -/
theorem wellFormed_of (hproper : kind.Proper) (hlegible : kind.Legible) (hfilled : kind.Filled) :
    kind.WellFormed := by
  cases kind with
  | object => exact ⟨hproper.1, hfilled⟩
  | shape => exact ⟨hproper.2, fun f hf => ⟨hlegible f hf, hfilled f hf⟩⟩
  | template | intLiteral => exact hlegible
  | native | array | stringLiteral | callable => trivial

theorem mapParts_legible : (kind.mapParts f).Legible ↔ kind.Legible := by
  cases kind with
  | shape fields => exact List.forall_mem_map
  | _ => exact Iff.rfl

end TypeKind

namespace TypeTable

variable {t t₁ : TypeTable} {i : TypeId} {m : TemplateMap} {u v : UnionType} {f : TypeId → UnionType}
  {kind : TypeKind}

theorem kindProperty_filled : KindProperty TypeKind.Filled where
  alike {a b} h hb := by
    have hne : ∀ {u v : UnionType}, u.SameMembers v → v.members ≠ [] → u.members ≠ [] :=
      fun huv hv hu => hv (List.eq_nil_iff_forall_not_mem.2 fun i hi => by
        have := (huv i).2 hi
        rw [hu] at this
        cases this)
    match a, b, h with
    | .object .., .object .., h =>
      intro u hu
      obtain ⟨v, hv, huv⟩ := exists_of_forall₂ h.2 hu
      exact hne huv (hb v hv)
    | .shape _, .shape _, h =>
      intro f hf
      obtain ⟨g, hg, hfg⟩ := exists_of_forall₂ h hf
      exact hne hfg.2.2 (hb g hg)
    | .native _, .native _, _ | .array .., .array .., _ | .intLiteral _, .intLiteral _, _
    | .stringLiteral _, .stringLiteral _, _ | .callable _, .callable _, _
    | .template _, .template _, _ => trivial
  mixed := trivial

theorem kindProperty_legible : KindProperty TypeKind.Legible where
  alike {a b} h hb := by
    match a, b, h with
    | .shape _, .shape _, h =>
      intro f hf
      obtain ⟨g, hg, hfg⟩ := exists_of_forall₂ h hf
      exact hfg.1 ▸ hb g hg
    | .template _, .template _, h => exact (show _ = _ from h) ▸ hb
    | .intLiteral _, .intLiteral _, h => exact (show _ = _ from h) ▸ hb
    | .native _, .native _, _ | .object .., .object .., _ | .array .., .array .., _
    | .stringLiteral _, .stringLiteral _, _ | .callable _, .callable _, _ => trivial
  mixed := trivial

/-- The type is a placeholder that stands for nothing. -/
def Vanishes (t : TypeTable) (m : TemplateMap) (i : TypeId) : Prop :=
  ∃ s n, t.get? i = some ⟨.template s, n⟩ ∧ ∃ b, m.get? s = some b ∧ b.members = []

/-- Every argument of the class and every field of the shape keeps a member, and what a placeholder
stands for lacks nothing. -/
def Kept (t : TypeTable) (m : TemplateMap) : TypeKind → Prop
  | .object _ args => ∀ u ∈ args, ∃ i ∈ u.members, ¬ t.Vanishes m i
  | .shape fields => ∀ f ∈ fields, ∃ i ∈ f.2.type.members, ¬ t.Vanishes m i
  | .template s => ∀ b, m.get? s = some b → ∀ i ∈ b.members, t.Everywhere TypeKind.Filled i
  | _ => True

/-- Only a placeholder that stands for nothing turns into nothing. -/
theorem Turns.members_eq_nil_iff (h : t.Turns m.replacement i v) :
    v.members = [] ↔ t.Vanishes m i := by
  constructor
  · intro hv
    cases h with
    | @bound _ ty b _ hty hb hb' =>
      obtain ⟨kind, n⟩ := ty
      obtain ⟨s, rfl, hs⟩ := TemplateMap.replacement_eq_some hb
      refine ⟨s, n, hty, b, hs, ?_⟩
      by_contra hne
      exact hb'.members_ne_nil hne hv
    | array _ _ hv' => exact absurd hv (hv'.members_ne_nil (UnionType.orMixed_members_ne_nil _))
    | rebuilt => simp [UnionType.members_of] at hv
  · rintro ⟨s, n, hty, b, hs, hb⟩
    refine List.eq_nil_iff_forall_not_mem.2 fun j hj => ?_
    obtain ⟨x, hx, -⟩ := ((h.of_bound hty hs).mem j).1 hj
    rw [hb] at hx
    cases hx

theorem flatMap_members_ne_nil_iff (hf : ∀ e ∈ u.members, t.Turns m.replacement e (f e)) :
    (u.flatMap f).members ≠ [] ↔ ∃ e ∈ u.members, ¬ t.Vanishes m e := by
  constructor
  · intro hne
    obtain ⟨a, ha⟩ := List.exists_mem_of_ne_nil _ hne
    obtain ⟨e, he, hae⟩ := UnionType.mem_flatMap.1 ha
    exact ⟨e, he, fun h => List.ne_nil_of_mem hae ((hf e he).members_eq_nil_iff.2 h)⟩
  · rintro ⟨e, he, hkeeps⟩
    obtain ⟨a, ha⟩ := List.exists_mem_of_ne_nil _ (mt (hf e he).members_eq_nil_iff.1 hkeeps)
    exact List.ne_nil_of_mem (UnionType.mem_flatMap.2 ⟨e, he, ha⟩)

/-- A kind that is rebuilt lacks nothing exactly when its parts keep members. -/
theorem filled_mapParts_iff (hkind : kind.Rebuilds m.replacement)
    (hf : ∀ e ∈ kind.embedded, t.Turns m.replacement e (f e)) :
    (kind.mapParts f).Filled ↔ t.Kept m kind := by
  cases kind with
  | object name args =>
    refine List.forall_mem_map.trans (forall₂_congr fun u hu => flatMap_members_ne_nil_iff ?_)
    exact fun e he => hf e (List.mem_flatMap.2 ⟨u, hu, he⟩)
  | shape fields =>
    refine List.forall_mem_map.trans (forall₂_congr fun g hg => flatMap_members_ne_nil_iff ?_)
    exact fun e he => hf e (List.mem_flatMap.2 ⟨g, hg, he⟩)
  | template s =>
    have hs : m.get? s = none := hkind.stays
    simp [TypeKind.mapParts, TypeKind.Filled, Kept, hs]
  | _ => exact Iff.rfl

/-- What a type turns into lacks nothing exactly when all inside the type is kept. -/
theorem Turns.filled_iff (hc : t.Canonical) (h : t.Turns m.replacement i v) :
    (∀ j ∈ v.members, t.Everywhere TypeKind.Filled j) ↔ t.Everywhere (t.Kept m) i := by
  refine h.everywhere_iff hc kindProperty_filled (fun _ _ => ⟨trivial, trivial⟩) ?_
    fun kind f hkind hf => filled_mapParts_iff hkind hf
  intro kind b hb
  obtain ⟨s, rfl, hs⟩ := TemplateMap.replacement_eq_some hb
  simp [Kept, hs]

/-- What a type with legible names turns into has legible names. -/
theorem Turns.legible (hc : t.Canonical) (h : t.Turns m.replacement i v)
    (hi : t.Everywhere TypeKind.Legible i)
    (hm : ∀ s b, m.get? s = some b → ∀ j ∈ b.members, t.Everywhere TypeKind.Legible j) :
    ∀ j ∈ v.members, t.Everywhere TypeKind.Legible j := by
  refine (h.everywhere_iff hc kindProperty_legible (fun _ _ => ⟨trivial, fun _ => trivial⟩) ?_ ?_).2
    (hi.imp fun kind hkind (_ : m.replacement.get? kind = none) => hkind)
  · intro kind b hb
    obtain ⟨s, rfl, hs⟩ := TemplateMap.replacement_eq_some hb
    exact iff_of_true (hm s b hs) fun hnone => by rw [hb] at hnone; cases hnone
  · intro kind f hkind _
    rw [TypeKind.mapParts_legible]
    simp [hkind.stays]

/-- Later types make no difference to what is kept. -/
theorem Keeps.kept_iff (hk : t.Keeps t₁) (hm : m.Held (fun _ => True) t)
    (hin : ∀ e ∈ kind.embedded, e < t.size) : t₁.Kept m kind ↔ t.Kept m kind := by
  have hvanishes : ∀ {e}, e < t.size → (t₁.Vanishes m e ↔ t.Vanishes m e) := by
    intro e he
    obtain ⟨ty, hty⟩ := exists_get? he
    rw [Vanishes, Vanishes, hty, hk.get? hty]
  cases kind with
  | object name args =>
    refine forall₂_congr fun u hu => exists_congr fun e => and_congr_right fun he => ?_
    rw [hvanishes (hin e (List.mem_flatMap.2 ⟨u, hu, he⟩))]
  | shape fields =>
    refine forall₂_congr fun f hf => exists_congr fun e => and_congr_right fun he => ?_
    rw [hvanishes (hin e (List.mem_flatMap.2 ⟨f, hf, he⟩))]
  | template s =>
    exact forall₂_congr fun b hb => forall₂_congr fun j hj =>
      hk.everywhere_iff (hm.get? hb j hj).lt_size
  | _ => exact Iff.rfl

theorem Keeps.everywhere_kept_iff (hk : t.Keeps t₁) (hm : m.Held (fun _ => True) t)
    (hi : i < t.size) : t₁.Everywhere (t₁.Kept m) i ↔ t.Everywhere (t.Kept m) i := by
  rw [hk.everywhere_iff hi]
  refine everywhere_congr fun j ty hty => hk.kept_iff hm fun e he => ?_
  exact (embedded_lt_of_get? hty he).trans (lt_size_of_get? hty)

end TypeTable

namespace UnionType

open TypeM TypeTable

variable {t : TypeTable} {u : UnionType} {m : TemplateMap}

/-! ### A class with a placeholder as its argument -/

/-- The placeholder, and the class. -/
def boxRows : List TypeEntry :=
  [⟨⟨.template "T", false⟩, "T"⟩, ⟨⟨.object (.make "\\" "Box") [of 31], false⟩, "\\Box<T>"⟩]

/-- Where they are found. -/
def boxNames : List (String × TypeId) :=
  [("\\Box<T>", 32), ("\\box<T>", 32), ("T", 31), ("T", 31)]

theorem wellFormed_box : (.make "\\" "Box" : ClassName).WellFormed :=
  ⟨["Box".toList], by decide, by decide, by decide⟩

theorem exists_lists_box : ∃ t, Reachable TypeKind.Spelled t ∧ t.Lists boxRows boxNames := by
  have l₀ := lists_initial false
  obtain ⟨t₁, h₁, l₁, -⟩ := l₀.intern_new (writes_template _ "T") (by decide) rfl
  have hT := l₁.entry (i := 31) rfl
  obtain ⟨t, h₂, l₂, -⟩ := l₁.intern_new (writes_class t₁ (.make "\\" "Box") (u := of 31)
    (fun e he => mem_of.1 he ▸ lt_size_of_entry hT)
    ((renderUnion_of t₁ 31).trans (key_eq hT))) (by decide) rfl
  refine ⟨t, ⟨false, .step (r := .intern _ _) (.step (r := .intern _ _) .refl ?_ h₁) ?_ h₂⟩, l₂⟩
  · rintro _ ⟨⟩
    have hnative : ∀ k : NativeKind, "T" ≠ k.name := by
      intro k
      cases k <;> decide
    have hname : IsIdentifier "T" := ⟨by decide, by rintro _ ⟨⟩; rfl⟩
    exact ⟨⟨hname, hnative⟩, hname, rfl, by decide⟩
  · rintro _ ⟨⟩
    exact ⟨⟨wellFormed_box, by decide⟩, trivial⟩

/-- What is put in for the placeholder becomes the argument of the class. -/
theorem substitute_box (h : t.Lists boxRows boxNames) {text : String} (hu : ∀ e ∈ u.members, e < t.size)
    (hself : empty.union u = u) (htext : t.renderUnion u = text)
    (hforeign : IsForeign ("\\box" ++ "<" ++ text ++ ">"))
    (hnone : boxNames.lookup ("\\box" ++ "<" ++ text ++ ">") = none) :
    ∃ t₁ names, (of 32).substitute [("T", u)] t = .ok (of 33, t₁) ∧
      t₁.Lists (boxRows ++ [⟨⟨.object (.make "\\" "Box") [u], false⟩, "\\Box" ++ "<" ++ text ++ ">"⟩])
        names := by
  have hargument : TypeM.substitute [("T", u)] 31 t = .ok (u, t) := by
    obtain ⟨below, hfetch⟩ := TypeM.exists_fetchBelow (get?_eq (h.entry (i := 31) rfl))
    rw [TypeM.substitute]
    exact bind_eq_ok.2 ⟨_, _, hfetch, rfl⟩
  obtain ⟨t₁, hrun, l₁, -⟩ := h.intern_new (writes_class t (.make "\\" "Box") hu htext) hforeign hnone
  have hbox : TypeM.substitute [("T", u)] 32 t = .ok (of 33, t₁) := by
    obtain ⟨below, hfetch⟩ := TypeM.exists_fetchBelow (get?_eq (h.entry (i := 32) rfl))
    rw [TypeM.substitute]
    refine bind_eq_ok.2 ⟨_, _, hfetch, bind_eq_ok.2 ⟨[u], t, ?_, ?_⟩⟩
    · refine bind_eq_ok.2 ⟨u, t, bind_eq_ok.2 ⟨u, t, bind_eq_ok.2 ⟨u, t, hargument, ?_⟩, rfl⟩, rfl⟩
      rw [hself]
      rfl
    · refine bind_eq_ok.2 ⟨33, t₁, ?_, rfl⟩
      exact (congrFun (make_of_typable (wellFormed_box.typable (by decide)) [u] false) t).trans hrun
  exact ⟨t₁, _, bind_eq_ok.2 ⟨_, _, bind_eq_ok.2 ⟨_, _, hbox, rfl⟩, rfl⟩, l₁⟩

/-! ### What is lost -/

/-- After replacing, at any depth, no argument of a class and no field of a shape is left without a
type exactly when each one keeps a member that is no placeholder for nothing, and what is put in lacks
nothing. Then the text of the result is read back, whatever the names in it are resolved with, as long
as its placeholders are known, no class stands for `self` where it occurs, and the levels do
not exceed the limit. -/
theorem substitute_filled_iff (h : Reachable TypeKind.Spelled t) (hu : u.Inside t)
    (hm : m.Held (fun _ => True) t) :
    ∃ v t₁, u.substitute m t = .ok (v, t₁) ∧
      ((∀ j ∈ v.members, t₁.Everywhere TypeKind.Filled j) ↔
        ∀ i ∈ u.members, t.Everywhere (t.Kept m) i) ∧
      ((∀ j ∈ v.members, t₁.Everywhere TypeKind.Filled j) → ∀ names : NameResolver,
        (∀ s, t₁.Mentions v (.template s) → names.isTemplate s = true) →
        (t₁.Mentions v (.native .self) → names.selfClass = none) →
        unionLevels t₁.levels v ≤ TypeParser.maxDepth →
        ∃ text w t₂, v.display t₁ = .ok text ∧ UnionType.parse names text t₁ = .ok (.ok w, t₂) ∧
          w.SameMembers v) := by
  have hkinds : ∀ (i : TypeId) (ty : Ty), t.get? i = some ty → ty.kind.Spelled := fun _ _ =>
    h.get?_ok typeSort_spelled
  have ht : t.Proper := ⟨h.canonical typeSort_spelled, fun i ty hty => (hkinds i ty hty).1⟩
  have hlegible : ∀ i < t.size, t.Everywhere TypeKind.Legible i := fun i hi =>
    everywhere_of_forall (fun i ty hty => (hkinds i ty hty).2) hi
  obtain ⟨v, t₁, hrun, hext, ht₁, hv, -⟩ :=
    delivers_substitute ht (fun i hi => (hu i hi).lt_size) hm
  have hin := hv.lt_size ht₁.canonical
  refine ⟨v, t₁, hrun, ?_, fun hfilled names htemplate hself hlevels => ?_⟩
  · refine hv.forall_iff fun i hi w hw => (hw.filled_iff ht₁.canonical).trans ?_
    exact hext.keeps.everywhere_kept_iff hm (hu i hi).lt_size
  · have hstill : ∀ i < t.size, t₁.Everywhere TypeKind.Legible i := fun i hi =>
      (hext.keeps.everywhere_iff hi).2 (hlegible i hi)
    have hlegible : ∀ j ∈ v.members, t₁.Everywhere TypeKind.Legible j := by
      intro j hj
      obtain ⟨i, hi, w, hw, hjw⟩ := hv.exists_of_mem hj
      refine hw.legible ht₁.canonical (hstill i (hu i hi).lt_size) (fun s b hb j hj => ?_) j hjw
      exact hstill j (hm.get? hb j hj).lt_size
    have hwf : ∀ i ∈ v.members, ∀ j e, t₁.Within i j → t₁.entries[j]? = some e →
        e.type.kind.WellFormed := fun i hi j e hj he =>
      TypeKind.wellFormed_of (ht₁.kinds j e.type (get?_eq he)) ((hlegible i hi).within hj he)
        ((hfilled i hi).within hj he)
    obtain ⟨w, t₂, hparse, hw, -⟩ := (ht₁.canonical.parse_display_within hin hwf
      (knows_of_mentions htemplate hself)).1 hlevels
    exact ⟨t₁.renderUnion v, w, t₂, display_eq_ok hin, hparse, hw⟩

/-- Integers are put in for the argument of a class, so nothing is missing. -/
theorem substitute_filled_box : ∃ t v t₁ text w t₂, Reachable TypeKind.Spelled t ∧
    t.Lists boxRows boxNames ∧ (of 32).substitute [("T", native .int)] t = .ok (v, t₁) ∧
    (∀ j ∈ v.members, t₁.Everywhere TypeKind.Filled j) ∧ v.display t₁ = .ok text ∧
    UnionType.parse ⟨.ofFullName, fun _ => true, none⟩ text t₁ = .ok (.ok w, t₂) ∧
    w.SameMembers v := by
  obtain ⟨t, h, l⟩ := exists_lists_box
  have hT := get?_eq (l.entry (i := 31) rfl)
  have hb := get?_eq (l.entry (i := 32) rfl)
  have hint := l.entry (i := NativeKind.int.id) rfl
  obtain ⟨v, t₁, hrun, hiff, hreads⟩ := substitute_filled_iff h (u := of 32)
    (m := [("T", native .int)]) (inside_of_get? hb)
    (List.forall_mem_singleton.2 (inside_of_get? (get?_eq hint)))
  have hresult := hiff.2 fun i hi => mem_of.1 hi ▸ .intro hb (fun u hu => ?_) fun e he => ?_
  · have htext : t.renderUnion (native .int) = "int" :=
      (renderUnion_of t _).trans (key_eq hint)
    obtain ⟨t₁', names, hrun', l₁⟩ := substitute_box l (u := native .int)
      (fun e he => mem_of.1 he ▸ lt_size_of_entry hint) rfl htext (by decide) rfl
    rw [hrun] at hrun'
    obtain ⟨rfl, rfl⟩ := Prod.mk.inj (Except.ok.inj hrun')
    have hlevels : unionLevels t₁.levels (of 33) ≤ TypeParser.maxDepth := by
      rw [TypeParser.unionLevels_of, levels_eq (l₁.entry (i := 33) rfl)]
      change 1 + deepest [unionLevels t₁.levels (native .int)] ≤ TypeParser.maxDepth
      rw [native, TypeParser.unionLevels_of, levels_eq (l₁.entry (i := NativeKind.int.id) rfl)]
      change 1 + deepest [1 + 0] ≤ TypeParser.maxDepth
      decide
    obtain ⟨text, w, t₂, hdisplay, hparse, hsame⟩ := hreads hresult ⟨.ofFullName, fun _ => true, none⟩
      (fun _ _ => rfl) (fun _ => rfl) hlevels
    exact ⟨t, of 33, t₁, text, w, t₂, h, l, hrun, hresult, hdisplay, hparse, hsame⟩
  · rw [List.mem_singleton.1 hu]
    refine ⟨31, mem_of.2 rfl, ?_⟩
    rintro ⟨s, n, hs, b, hb, hnil⟩
    obtain ⟨⟨⟩, -⟩ := Ty.mk.inj (Option.some.inj (hT.symm.trans hs))
    cases hb
    rw [members_native] at hnil
    cases hnil
  · have he : e ∈ [31] := he
    refine List.mem_singleton.1 he ▸ .intro hT ?_ (by simp [TypeKind.embedded])
    rintro b ⟨⟩ j hj
    exact mem_of.1 hj ▸ .intro (get?_eq hint) trivial (by simp [TypeKind.embedded, nativeEntry])

/-- A class with a placeholder as its argument lacks nothing. When the placeholder stands for nothing
the argument is lost, and the text of the result is refused. -/
theorem substitute_unfilled_argument : ∃ t b c t₁, Reachable TypeKind.Spelled t ∧
    (∀ i ∈ (of b).members, t.Everywhere TypeKind.Filled i) ∧
    (of b).substitute [("T", empty)] t = .ok (of c, t₁) ∧ ¬ t₁.Everywhere TypeKind.Filled c ∧
    (of c).display t₁ = .ok "\\Box<>" ∧
    UnionType.parse .fullyQualified "\\Box<>" t₁ =
      .ok (.error (.unexpectedChar "\\Box<>" 5 '>'), t₁) := by
  obtain ⟨t, hreach, l⟩ := exists_lists_box
  have hT := get?_eq (l.entry (i := 31) rfl)
  have hb := get?_eq (l.entry (i := 32) rfl)
  have hempty : t.renderUnion empty = "" := by
    rw [← String.toList_inj, toList_renderUnion, memberTexts_eq_nil.2 rfl]
    rfl
  obtain ⟨t₁, names, hrun, l₁⟩ := substitute_box l (u := empty)
    (fun e he => by cases he) rfl hempty (by decide) rfl
  have hc := l₁.entry (i := 33) rfl
  refine ⟨t, 32, 33, t₁, hreach, fun i hi => ?_, hrun, fun hfilled => ?_, ?_, rfl⟩
  · rw [mem_of.1 hi]
    refine .intro hb (fun u hu => ?_) fun e he => ?_
    · rw [List.mem_singleton.1 hu, members_of]
      exact List.cons_ne_nil _ _
    · have he : e ∈ [31] := he
      exact List.mem_singleton.1 he ▸ .intro hT trivial (by simp [TypeKind.embedded])
  · have hargs := ((everywhere_iff (get?_eq hc)).1 hfilled).1
    exact hargs empty (List.mem_singleton_self _) rfl
  · rw [display_eq_ok fun i hi => mem_of.1 hi ▸ lt_size_of_entry hc, renderUnion_of,
      key_eq hc]
    rfl

end UnionType

end UnionInference
