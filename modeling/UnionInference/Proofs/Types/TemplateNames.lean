import UnionInference.Proofs.Types.Listing
import UnionInference.Proofs.Types.Substitution

/-!
The placeholders that are left when placeholders are replaced. Collecting names and replacing
placeholders go through types on their own, but they meet the same places: after replacing, a type
holds the placeholders that stayed and those of what was put in for the others. Where none is
replaced the union is left as it is, each member in its place.
-/

namespace UnionInference

open TypeTable TypeM

namespace UnionType

variable {t : TypeTable} {u v : UnionType} {m : TemplateMap} {p : String → Prop} {s : String}

/-- The names that are found are those of the placeholders inside the members. -/
theorem templateNames_spec (hu : u.Inside t) {names : List String}
    (h : u.templateNames t = .ok names) :
    u.Held (· ∈ names) t ∧ ∀ p : String → Prop, u.Held p t → ∀ s ∈ names, p s := by
  obtain ⟨names', hnames', hspec⟩ := exists_templateNames hu
  rw [h] at hnames'
  cases hnames'
  exact hspec

/-- What a later table says of the placeholders inside the members was so before. -/
theorem Held.of_keeps {t₁ : TypeTable} (h : u.Held p t₁) (hk : t.Keeps t₁) (hu : u.Inside t) :
    u.Held p t := fun i hi => (hk.holds_iff (hu i hi).lt_size).1 (h i hi)

/-- The members of what a union turns into hold placeholders with a property exactly when those of the
union hold some that stay and have it, or that stand for types whose placeholders have it. -/
theorem held_iff_of_becomes (hc : t.Canonical) (h : t.Becomes m.replacement u v) :
    v.Held p t ↔ u.Held (fun s => (m.get? s = none → p s) ∧
      ∀ b, m.get? s = some b → b.Held p t) t := by
  refine h.forall_iff fun i _ w hw => ?_
  simp only [holds_iff_everywhere]
  refine hw.everywhere_iff hc (kindProperty_template p) (by simp) ?_ ?_
  · intro kind b hb
    obtain ⟨s, rfl, hs⟩ := TemplateMap.replacement_eq_some hb
    simp [hs, Held, holds_iff_everywhere]
  · intro kind f hkind _
    cases kind with
    | template s =>
      have hs : m.get? s = none := hkind.stays
      simp [TypeKind.mapParts, hs]
    | _ => simp [TypeKind.mapParts]

/-- Of the given names this one is left: it stays, or it is inside what is put in for one of them. -/
def Leaves (t : TypeTable) (m : TemplateMap) (names : List String) (s : String) : Prop :=
  (s ∈ names ∧ m.get? s = none) ∨
    ∃ n ∈ names, ∃ b inner, m.get? n = some b ∧ b.templateNames t = .ok inner ∧ s ∈ inner

/-- The names found after replacing are those that are left of the names found before. -/
def NamesReplaced (t : TypeTable) (u : UnionType) (m : TemplateMap) : Prop :=
  ∃ names v t₁ names', u.templateNames t = .ok names ∧ u.substitute m t = .ok (v, t₁) ∧
    v.templateNames t₁ = .ok names' ∧ ∀ s, s ∈ names' ↔ Leaves t m names s

/-- Replacing puts types in the places of exactly the placeholders that the map speaks of, and leaves
the union as it is if there are none of these. -/
theorem templateNames_substitute (h : Reachable TypeKind.Proper t) (hu : u.Inside t)
    (hm : m.Held (fun _ => True) t) :
    NamesReplaced t u m ∧
      ∀ names, u.templateNames t = .ok names → (∀ s ∈ names, m.get? s = none) →
        ∃ t₁, u.substitute m t = .ok (u, t₁) := by
  have ht := h.proper
  obtain ⟨v, t₁, hrun, hext, ht₁, hv, hsame⟩ :=
    delivers_substitute ht (fun i hi => (hu i hi).lt_size) hm
  obtain ⟨names, hnames, hheld, hleast⟩ := exists_templateNames hu
  have hinside : v.Inside t₁ := fun j hj => holds_of_lt (hv.lt_size ht₁.canonical j hj) fun _ => trivial
  obtain ⟨names', hnames', hheld', hleast'⟩ := exists_templateNames hinside
  constructor
  · refine ⟨names, v, t₁, names', hnames, hrun, hnames', fun s => ⟨?_, ?_⟩⟩
    · refine hleast' (Leaves t m names) ((held_iff_of_becomes ht₁.canonical hv).2 ?_) s
      refine (hheld.keeps hext.keeps).imp fun n hn => ⟨fun hfree => .inl ⟨hn, hfree⟩, fun b hb => ?_⟩
      obtain ⟨inner, hinner, hheldb, -⟩ := exists_templateNames (hm.get? hb)
      exact (hheldb.keeps hext.keeps).imp fun s hs => .inr ⟨n, hn, b, inner, hb, hinner, hs⟩
    · -- every name of the union stays, or what it stands for holds names that were found
      have hfound : ∀ n ∈ names, (m.get? n = none → n ∈ names') ∧
          ∀ b, m.get? n = some b → b.Held (· ∈ names') t₁ := by
        refine hleast _ (Held.of_keeps ?_ hext.keeps hu)
        exact (held_iff_of_becomes ht₁.canonical hv).1 hheld'
      rintro (⟨hs, hfree⟩ | ⟨n, hn, b, inner, hb, hinner, hs⟩)
      · exact (hfound s hs).1 hfree
      · exact (templateNames_spec (hm.get? hb) hinner).2 _
          (((hfound n hn).2 b hb).of_keeps hext.keeps (hm.get? hb)) s hs
  · intro names hnames hfree
    refine ⟨t₁, hrun.trans ?_⟩
    rw [hsame fun i hi => ?_]
    have hheld := (templateNames_spec hu hnames).1 i hi
    refine ht₁.canonical.turns_self_of_holds ((hext.keeps.holds hheld).imp fun s hs b hb => ?_)
    rw [hfree s hs] at hb
    cases hb

/-- In an array of one placeholder another one may be put, and a map that speaks of the other one
alone changes nothing. -/
theorem templateNames_substitute_array : ∃ t T S a, Reachable TypeKind.Proper t ∧
    t.get? T = some ⟨.template "T", false⟩ ∧ t.get? S = some ⟨.template "S", false⟩ ∧
    t.get? a = some ⟨.array .mixed T, true⟩ ∧ NamesReplaced t (of a) [("T", of S)] ∧
    ∃ t₁, (of a).substitute [("S", empty)] t = .ok (of a, t₁) := by
  obtain ⟨t, T, S, a, h, hT, hS, ha⟩ := exists_placeholders
  refine ⟨t, T, S, a, h, hT, hS, ha, (templateNames_substitute h (inside_of_get? ha) ?_).1, ?_⟩
  · exact List.forall_mem_singleton.2 (inside_of_get? hS)
  obtain ⟨names, hnames, -, hleast⟩ := exists_templateNames (inside_of_get? ha)
  refine (templateNames_substitute h (inside_of_get? ha) ?_).2 names hnames fun s hs => ?_
  · exact List.forall_mem_singleton.2 held_empty
  · have hall : (of a).Held (· = "T") t := by
      refine held_of (.intro ha (fun e he => ?_) (by simp))
      rw [List.mem_singleton.1 he]
      exact .intro hT (by simp [TypeKind.embedded]) (by simp)
    rw [hleast _ hall s hs]
    rfl

/-! ### Names that are no identifiers -/

/-- A placeholder with the name of an array type, another one, and the arrays of that one. -/
def oddRows : List TypeEntry :=
  [⟨⟨.template "int[]", false⟩, "int[]"⟩, ⟨⟨.template "T", false⟩, "T"⟩,
    ⟨⟨.array .mixed 32, false⟩, "T[]"⟩]

/-- Where they are found. -/
def oddNames : List (String × TypeId) :=
  [("T[]", 33), ("T[]", 33), ("T", 32), ("T", 32), ("int[]", 31), ("int[]", 31)]

theorem exists_lists_odd : ∃ t, Reachable (fun _ => True) t ∧ t.Lists oddRows oddNames := by
  have l₀ := lists_initial false
  obtain ⟨t₁, h₁, l₁, -⟩ := l₀.intern_new (writes_template _ "int[]") (by decide) rfl
  obtain ⟨t₂, h₂, l₂, -⟩ := l₁.intern_new (writes_template _ "T") (by decide) rfl
  have hplain : t₂.needsParens 32 = false := by
    rw [needsParens, get?_eq (l₂.entry (i := 32) rfl)]
  obtain ⟨t, h₃, l₃, -⟩ := l₂.intern_new (l₂.writes_arrayOf 32 rfl hplain false) (by decide) rfl
  refine ⟨t, ⟨false, .step (r := .intern _ _) (.step (r := .intern _ _) (.step (r := .intern _ _)
    .refl ?_ h₁) ?_ h₂) ?_ h₃⟩, l₃⟩ <;> exact fun _ _ => trivial

/-- The arrays of the placeholder, replaced by the integers, are found under the odd name. -/
theorem substitute_odd (h : t.Lists oddRows oddNames) :
    (of 33).substitute [("T", native .int)] t = .ok (of 31, t) := by
  have helement : TypeM.substitute [("T", native .int)] 32 t = .ok (native .int, t) := by
    obtain ⟨below, hfetch⟩ := TypeM.exists_fetchBelow (get?_eq (h.entry (i := 32) rfl))
    rw [TypeM.substitute]
    exact TypeM.bind_eq_ok.2 ⟨_, _, hfetch, rfl⟩
  have hfound : TypeM.array .mixed NativeKind.int.id false t = .ok (31, t) := by
    refine h.intern_found (h.writes_arrayOf NativeKind.int.id rfl ?_ false) (by decide) rfl
    rw [needsParens, get?_eq (h.entry (i := NativeKind.int.id) rfl)]
    rfl
  have harray : TypeM.substitute [("T", native .int)] 33 t = .ok (of 31, t) := by
    obtain ⟨below, hfetch⟩ := TypeM.exists_fetchBelow (get?_eq (h.entry (i := 33) rfl))
    rw [TypeM.substitute]
    refine TypeM.bind_eq_ok.2 ⟨_, _, hfetch, TypeM.bind_eq_ok.2 ⟨_, _, helement, ?_⟩⟩
    exact TypeM.bind_eq_ok.2 ⟨[31], t, TypeM.bind_eq_ok.2 ⟨31, t, hfound, rfl⟩, rfl⟩
  exact TypeM.bind_eq_ok.2 ⟨_, _, TypeM.bind_eq_ok.2 ⟨_, _, harray, rfl⟩, rfl⟩

/-- Without a condition on names replacing does more: the placeholder with the odd name, of which
neither the arrays nor the integers hold anything, is found inside what they turn into. -/
theorem not_namesReplaced_of_odd_name : ∃ t T a, Reachable (fun _ => True) t ∧
    t.get? T = some ⟨.template "T", false⟩ ∧ t.get? a = some ⟨.array .mixed T, false⟩ ∧
      ¬ NamesReplaced t (of a) [("T", native .int)] := by
  obtain ⟨t, hreach, h⟩ := exists_lists_odd
  have hT := get?_eq (h.entry (i := 32) rfl)
  have ha := get?_eq (h.entry (i := 33) rfl)
  have hint := get?_eq (h.entry (i := NativeKind.int.id) rfl)
  refine ⟨t, 32, 33, hreach, hT, ha, ?_⟩
  rintro ⟨names, v, t', names', hnames, hrun, hnames', hiff⟩
  rw [substitute_odd h] at hrun
  cases hrun
  have hodd := get?_eq (h.entry (i := 31) rfl)
  have hfound : "int[]" ∈ names' :=
    ((holds_iff hodd).1 ((templateNames_spec (inside_of_get? hodd) hnames').1 31 (by simp))).template
      _ rfl
  have hbefore : ∀ s ∈ names, s = "T" := by
    refine (templateNames_spec (inside_of_get? ha) hnames).2 _ (held_of (.intro ha (fun e he => ?_) ?_))
    · rw [List.mem_singleton.1 he]
      exact .intro hT (by simp [TypeKind.embedded]) (by simp)
    · simp
  rcases (hiff "int[]").1 hfound with ⟨hs, -⟩ | ⟨n, hn, b, inner, hb, hinner, hs⟩
  · exact absurd (hbefore _ hs) (by decide)
  · rw [hbefore n hn] at hb
    cases hb
    refine (templateNames_spec (inside_of_get? hint) hinner).2 (fun _ => False) ?_ _ hs
    exact held_of (.intro hint (by simp [TypeKind.embedded, nativeEntry]) (by simp [nativeEntry]))

end UnionType

end UnionInference
