import UnionInference.Proofs.Types.Reading

/-!
Reading the text of one kind of type after the other: names, class types, literals, arrays, shapes
and callable types, each from readers for the unions inside it. The types that are asked for on the
way are found where they stand, because they are alike to those that were written.
-/

namespace UnionInference

/-! ### Well-formed types -/

/-- Kinds whose text can be read back: names are well formed and no built-in ones, keys come once
and denote themselves, integers have 64 bits, and nothing that must be written is empty. -/
def TypeKind.WellFormed : TypeKind → Prop
  | .object name args => name.WellFormed ∧ ∀ u ∈ args, u.members ≠ []
  | .template name =>
    IsIdentifier name ∧ NativeKind.ofName? name = none ∧ Text.isBlank name = false
  | .shape fields =>
    (fields.map Prod.fst).Nodup ∧ ∀ f ∈ fields, f.1.WellFormed ∧ f.2.type.members ≠ []
  | .intLiteral n => Text.isInteger n = true
  | .native _ | .array .. | .stringLiteral _ | .callable _ => True

theorem NativeKind.ofName?_name (k : NativeKind) : ofName? k.name = some k := by
  cases k <;> decide

theorem TypeKind.WellFormed.wellNamed {kind : TypeKind} (h : kind.WellFormed) : kind.WellNamed := by
  cases kind with
  | object name args => exact h.1
  | template name =>
    refine ⟨h.1, ?_⟩
    rintro k rfl
    rw [WellFormed, NativeKind.ofName?_name] at h
    cases h.2.1
  | shape fields =>
    intro f hf n hn
    have := (h.2 f hf).1
    rwa [hn] at this
  | _ => trivial

theorem typeSort_wellFormed : TypeSort TypeKind.WellFormed :=
  ⟨fun _ => TypeKind.WellFormed.wellNamed, fun _ => trivial⟩

/-! ### Asking for a type that is alike -/

/-- Class names with the same full text. -/
abbrev SameText (x y : ClassName) : Prop := x.text = y.text

theorem QualifiedName.WellFormed.of_text_eq {x y : ClassName} (h : x.WellFormed)
    (heq : y.text = x.text) : y.WellFormed := by
  rwa [WellFormed, heq]

theorem exists_of_forall₂ {α β : Type} {R : α → β → Prop} {as : List α} {bs : List β}
    (h : List.Forall₂ R as bs) {a : α} (ha : a ∈ as) : ∃ b ∈ bs, R a b := by
  induction h with
  | nil => cases ha
  | cons hab _ ih =>
    rcases List.mem_cons.1 ha with rfl | ha
    · exact ⟨_, by simp, hab⟩
    · obtain ⟨b, hb, hR⟩ := ih ha
      exact ⟨b, by simp [hb], hR⟩

namespace TypeKind

theorem Alike.acceptsNull {R : ClassName → ClassName → Prop} :
    ∀ {a b : TypeKind}, a.Alike R b → a.acceptsNull = b.acceptsNull
  | .native _, .native _, h => by rw [show _ = _ from h]
  | .object _ _, .object _ _, _ => rfl
  | .array .., .array .., _ => rfl
  | .shape _, .shape _, _ => rfl
  | .intLiteral _, .intLiteral _, _ => rfl
  | .stringLiteral _, .stringLiteral _, _ => rfl
  | .callable _, .callable _, _ => rfl
  | .template _, .template _, _ => rfl

/-- Kinds that are alike are made of the same types, up to the one of all values. -/
theorem Alike.mem_embedded {R : ClassName → ClassName → Prop} {e : TypeId} :
    ∀ {a b : TypeKind}, a.Alike R b → e ∈ a.embedded →
      e ∈ b.embedded ∨ e = NativeKind.mixed.id
  | .object _ as, .object _ bs, h, he => by
    obtain ⟨u, hu, heu⟩ := List.mem_flatMap.1 he
    obtain ⟨v, hv, huv⟩ := exists_of_forall₂ h.2 hu
    exact .inl (List.mem_flatMap.2 ⟨v, hv, (huv e).1 heu⟩)
  | .array .., .array .., h, he => by
    left
    rwa [TypeKind.embedded, h.2] at he
  | .shape fs, .shape gs, h, he => by
    obtain ⟨f, hf, hef⟩ := List.mem_flatMap.1 he
    obtain ⟨g, hg, hfg⟩ := exists_of_forall₂ h hf
    exact .inl (List.mem_flatMap.2 ⟨g, hg, (hfg.2.2 e).1 hef⟩)
  | .callable r, .callable s, h, he => by
    rcases List.mem_append.1 he with he | he
    · obtain ⟨p, hp, hep⟩ := List.mem_flatMap.1 he
      obtain ⟨q, hq, hpq⟩ := exists_of_forall₂ h.2.1 hp
      have hpe : p.type.orMixed = p.type := UnionType.orMixed_of_not_isEmpty (by
        rw [← Bool.not_eq_true, UnionType.isEmpty_iff]
        exact List.ne_nil_of_mem hep)
      have heq : e ∈ q.type.orMixed.members := (hpq.1 e).1 (by rwa [hpe])
      rw [UnionType.orMixed] at heq
      split at heq
      · exact .inr (UnionType.mem_of.1 heq)
      · exact .inl (List.mem_append_left _ (List.mem_flatMap.2 ⟨q, hq, heq⟩))
    · exact .inl (List.mem_append_right _ ((h.2.2 e).1 he))
  | .native _, .native _, _, he | .intLiteral _, .intLiteral _, _, he
  | .stringLiteral _, .stringLiteral _, _, he | .template _, .template _, _, he =>
    nomatch he

theorem Alike.wellNamed : ∀ {a b : TypeKind}, a.Alike SameText b → b.WellNamed → a.WellNamed
  | .native _, .native _, _, _ => trivial
  | .object _ _, .object _ _, h, hb => QualifiedName.WellFormed.of_text_eq hb h.1
  | .array .., .array .., _, _ => trivial
  | .shape fs, .shape gs, h, hb => by
    intro f hf n hn
    obtain ⟨g, hg, hfg⟩ := exists_of_forall₂ h hf
    exact hb g hg n (hfg.1 ▸ hn)
  | .intLiteral _, .intLiteral _, _, _ => trivial
  | .stringLiteral _, .stringLiteral _, _, _ => trivial
  | .callable _, .callable _, _, _ => trivial
  | .template _, .template _, h, hb => by rwa [show _ = _ from h]

end TypeKind

namespace TypeTable

variable {t t' : TypeTable}

theorem Writable.extends {ty : Ty} (h : t.Writable ty) (hext : t.Extends t') : t'.Writable ty :=
  ⟨fun e he => hext.lt_size (h.inside e he), h.normal, h.named⟩

theorem Canonical.inside_of_alike (hc : t.Canonical) {R : ClassName → ClassName → Prop}
    {a b : TypeKind} (h : a.Alike R b) (hb : ∀ e ∈ b.embedded, e < t.size) :
    ∀ e ∈ a.embedded, e < t.size := by
  intro e he
  rcases h.mem_embedded he with he | rfl
  · exact hb e he
  · exact lt_size_of_entry (hc.natives .mixed)

/-- Asking for a type gives the place of every type that it is alike to. -/
theorem Canonical.intern_alike (hc : t.Canonical) {a b : TypeKind} {nullable : Bool}
    (hb : t.Writable ⟨b, nullable⟩) (ha : a.WellNamed)
    (h : a.Alike (fun x y => x.foldedText = y.foldedText) b) :
    ∃ j t', TypeM.intern a nullable t = .ok (j, t') ∧ t.Grows TypeKind.WellNamed t' ∧
      t'.Finds ⟨b, nullable⟩ j := by
  have hin := hc.inside_of_alike h hb.inside
  have hnorm : normalize a nullable = ⟨a, nullable⟩ := by
    cases nullable with
    | false => rfl
    | true => rw [normalize, h.acceptsNull, hb.normal rfl]; rfl
  obtain ⟨j, t', hrun, hgrows, hfinds⟩ := TypeM.intern_spec hc nullable ha ha hin
  refine ⟨j, t', hrun, hgrows, ?_⟩
  rw [hnorm] at hfinds
  have haw : t.Writable ⟨a, nullable⟩ := hnorm ▸ writable_normalize nullable hin ha
  have hid : t'.identity ⟨a, nullable⟩ = t'.identity ⟨b, nullable⟩ :=
    (hgrows.canonical.identity_eq_iff (haw.extends hgrows.keeps) (hb.extends hgrows.keeps)).2 ⟨rfl, h⟩
  rwa [Finds, ← hid]

/-- The variant with null of a type that is found without it. -/
theorem Canonical.withNull_finds (hc : t.Canonical) {kind : TypeKind} (hw : t.Writable ⟨kind, true⟩)
    {i : TypeId} (hi : t.Finds ⟨kind, false⟩ i) :
    ∃ j t', TypeM.withNull i true t = .ok (j, t') ∧ t.Grows TypeKind.WellNamed t' ∧
      t'.Finds ⟨kind, true⟩ j := by
  have hw' : t.Writable ⟨kind, false⟩ := ⟨hw.inside, by simp, hw.named⟩
  obtain ⟨e, he, hid⟩ := hc.identity_of_finds hw' hi
  obtain ⟨hnull, hkind⟩ := (hc.identity_eq_iff (hc.writable he) hw').1 hid
  obtain ⟨j, t', hrun, hgrows, hfinds⟩ := hc.intern_alike hw (hc.named i e he) hkind
  refine ⟨j, t', ?_, hgrows, hfinds⟩
  have hfetch : TypeM.fetch i t = .ok (e.type, t) := TypeM.fetch_eq_ok.2 ⟨rfl, e, he, rfl⟩
  have haccepts : e.type.kind.acceptsNull = true := by rw [hkind.acceptsNull]; exact hw.normal rfl
  refine TypeM.bind_eq_ok.2 ⟨e.type, t, hfetch, ?_⟩
  rw [if_neg (by rw [hnull, haccepts]; simp)]
  exact hrun

end TypeTable

/-! ### Members without marks -/

namespace TypeParser

open TypeText

variable {src : Source} {t t₀ : TypeTable} {cs rest : List Char} {union : ParseM UnionType}
  {inner : Option Grammar}

/-- The union holds one type, which is the one of the kind without null. -/
def IsRead (kind : TypeKind) (u : UnionType) (t : TypeTable) : Prop :=
  ∃ i, u = .of i ∧ t.Finds ⟨kind, false⟩ i

/-- A kind that is alike to the one that is written is read as that one. -/
theorem reads_intern (hc : t.Canonical) {a b : TypeKind} (hb : t.Writable ⟨b, false⟩)
    (h : a.Alike SameText b) :
    Reads src True (types (TypeM.intern a false) >>= fun i => pure (.of i)) cs cs t (IsRead b) := by
  have hfold := h.mono (S := fun x y => x.foldedText = y.foldedText) fun x y hxy => by
    rw [QualifiedName.foldedText, QualifiedName.foldedText, hxy]
  obtain ⟨j, t', hrun, hgrows, hfinds⟩ := hc.intern_alike hb (h.wellNamed hb.named) hfold
  exact (Reads.of_gives (Q := fun i t' => t'.Finds ⟨b, false⟩ i) (gives_types hrun) hgrows hfinds).map fun i _ hi => ⟨i, rfl, hi⟩

/-! ### Names -/

theorem isNameStart_of_isNameChar {c : Char} (h : isNameChar c = true) (hd : c.isDigit = false) :
    isNameStart c = true := by
  simp only [isNameChar, ShapeKey.isWordChar, Char.isAlphanum, Bool.or_eq_true] at h
  simp only [isNameStart, Bool.or_eq_true]
  rcases h with ((h | h) | h) | h
  · rcases h with h | h
    · simp [h]
    · rw [h] at hd; cases hd
  all_goals simp [h]

/-- What starts with the first character of a name is read as a name. -/
theorem atom_eq_named {c : Char} (hc : isNameChar c = true) (hd : c.isDigit = false) :
    atom src union inner (c :: cs) t = named src union inner (c :: cs) t := by
  have hne : ∀ d, isNameChar d = false → c ≠ d := by rintro d hd rfl; rw [hc] at hd; cases hd
  have hspace : isSpace c = false := by
    simp [isSpace, hne ' ' (by decide), hne '\t' (by decide), hne '\n' (by decide),
      hne '\r' (by decide)]
  have hnumeral : isNumeralChar c = false := by simp [isNumeralChar, hne '-' (by decide), hd]
  rw [atom, bind_of_gives (gives_skipSpace (by simpa [Dense] using hspace)),
    bind_of_gives gives_peek?]
  simp only [List.head?_cons, hnumeral, isNameStart_of_isNameChar hc hd]
  rw [if_neg (hne _ (by decide)), if_neg (hne _ (by decide))]
  rfl

/-- A name is read up to the first character that cannot stand in it. -/
theorem gives_name {w : List Char} (hw : ∀ c ∈ w, isNameChar c = true)
    (hrest : ∀ c ∈ rest.head?, isNameChar c = false) (hne : w ≠ []) :
    Gives name (w ++ rest) t w rest t := by
  cases w with
  | nil => exact absurd rfl hne
  | cons c w =>
    have hc : c ≠ '$' := by rintro rfl; exact absurd (hw '$' (by simp)) (by decide)
    have htake := gives_takeWhile (t := t) hw hrest
    rw [Gives, name, bind_of_gives gives_peek?]
    refine (congrFun (congrFun ?_ _) t).trans htake
    split
    · next heq => exact absurd (Option.some.inj heq) hc
    · rfl

/-- Without the brackets of an array, a shape or a callable type, a name is just a name. -/
theorem named_eq_plainName {w : List Char} (hw : ∀ c ∈ w, isNameChar c = true)
    (hrest : ∀ c ∈ rest.head?, isNameChar c = false) (hne : w ≠ [])
    (hopen : ∀ c ∈ rest.head?, c ≠ '\x7b' ∧ c ≠ '(')
    (harray : '<' ∈ rest.head? → Text.fold (String.ofList w) ≠ "array") :
    named src union inner (w ++ rest) t = plainName src union w rest t := by
  rw [named.eq_def, bind_of_gives (gives_name hw hrest hne), bind_of_gives gives_peek?]
  refine congrFun (congrFun ?_ rest) t
  split
  · next heq => exact absurd rfl (hopen _ heq).1
  · next heq hlt => exact absurd heq (harray hlt)
  · next heq => exact absurd rfl (hopen _ heq).2
  · next heq => exact absurd rfl (hopen _ heq).2
  · next heq => exact absurd rfl (hopen _ heq).2
  · rfl

/-- The text can follow a type that may get square brackets. -/
def Follows (rest : List Char) : Prop := ∀ c ∈ rest.head?, isDivider c = true ∨ c = '['

theorem Ends.follows (h : Ends rest) : Follows rest := fun c hc => .inl (h c hc)

theorem Follows.class_false (h : Follows rest) {p : Char → Bool}
    (hp : ('[' :: special).any p = false) : ∀ c ∈ rest.head?, p c = false := by
  intro c hc
  rcases h c hc with hdiv | rfl
  · have hend : Ends (c :: rest.tail) := ends_cons hdiv
    rw [List.any_cons, Bool.or_eq_false_iff] at hp
    exact hend.class_false hp.2 c (by simp)
  · exact eq_false_of_any hp (by simp)

theorem Follows.ne (h : Follows rest) {d : Char} (hd : isDivider d = false) (hb : d ≠ '[') :
    ∀ c ∈ rest.head?, c ≠ d := by
  rintro c hc rfl
  rcases h c hc with hdiv | rfl
  · rw [hdiv] at hd; cases hd
  · exact hb rfl

/-- A name that starts with no digit is read as just a name. -/
theorem atom_eq_plainName {w : List Char} (hw : ∀ c ∈ w, isNameChar c = true) (hne : w ≠ [])
    (hd : ∀ c ∈ w.head?, c.isDigit = false) (hrest : ∀ c ∈ rest.head?, isNameChar c = false)
    (hopen : ∀ c ∈ rest.head?, c ≠ '\x7b' ∧ c ≠ '(')
    (harray : '<' ∈ rest.head? → Text.fold (String.ofList w) ≠ "array") :
    atom src union inner (w ++ rest) t = plainName src union w rest t := by
  cases w with
  | nil => exact absurd rfl hne
  | cons c w =>
    rw [← named_eq_plainName hw hrest hne hopen harray, List.cons_append,
      atom_eq_named (hw c (by simp)) (hd c (by simp))]

/-- A word without brackets behind it is read as just a name. -/
theorem atom_eq_plainName_of_follows {w : List Char} (hw : IsSegment w)
    (hd : ∀ c ∈ w.head?, c.isDigit = false) (hrest : Follows rest) :
    atom src union inner (w ++ rest) t = plainName src union w rest t := by
  refine atom_eq_plainName (fun c hc => isNameChar_of_isSegmentChar (hw.2 c hc)) hw.1 hd
    (hrest.class_false (by decide)) (fun c hc => ?_) fun hlt => ?_
  · exact ⟨hrest.ne (by decide) (by decide) c hc, hrest.ne (by decide) (by decide) c hc⟩
  · exact absurd rfl (hrest.ne (d := '<') (by decide) (by decide) '<' hlt)

theorem head_not_separator {w : List Char} (hw : IsSegment w) :
    ¬ (w.head?.map isSeparator).getD false = true := by
  cases w with
  | nil => exact absurd rfl hw.1
  | cons c w => simp [not_isSeparator_of_isSegmentChar (hw.2 c (by simp))]

/-- The name of a built-in type is read as that type. -/
theorem reads_native (hc : t.Canonical) {k : NativeKind}
    (hself : k = .self → src.names.selfClass = none) (hrest : Follows rest) :
    Reads src True (atom src union inner) ((t₀.renderKind (.native k)).toList ++ rest) rest t
      (IsRead (.native k)) := by
  have hgives : Gives (plainName src union k.name.toList) rest t (.native k) rest t := by
    rw [Gives, plainName, if_neg (head_not_separator k.isSegment_name), String.ofList_toList,
      k.ofName?_name]
    by_cases hk : k = .self
    · rw [hk]
      simp only [hself hk]
      rfl
    · cases k <;> first | exact absurd rfl hk | rfl
  refine Reads.of_run_eq (atom_eq_plainName_of_follows k.isSegment_name k.not_isDigit_head hrest) ?_
  exact Reads.of_gives hgives (.refl hc) ⟨k.id, rfl, hc.finds_entry (hc.natives k)⟩

/-- The name of a template is read as that template where it is known as one. -/
theorem reads_template (hc : t.Canonical) {s : String} (hs : (TypeKind.template s).WellFormed)
    (hname : src.names.isTemplate s = true) (hrest : Follows rest) :
    Reads src True (atom src union inner) ((t₀.renderKind (.template s)).toList ++ rest) rest t
      (IsRead (.template s)) := by
  have hempty : s.isEmpty = false := by
    rw [← Bool.not_eq_true, String.isEmpty_iff]
    rintro rfl
    exact hs.1.1.1 rfl
  have hbar : Text.hasChar s '|' = false := by
    rw [← Bool.not_eq_true, Text.hasChar, List.contains_iff_mem]
    exact fun hmem => absurd (hs.1.1.2 '|' hmem) (by decide)
  have htemplate : TypeM.template s = TypeM.intern (.template s) false := by
    rw [TypeM.template, hempty, hbar]
    rfl
  rw [TypeTable.renderKind]
  refine Reads.of_run_eq (atom_eq_plainName_of_follows hs.1.1 hs.1.2 hrest) ?_
  rw [plainName, if_neg (head_not_separator hs.1.1), String.ofList_toList, hs.2.1]
  simp only [hname, if_true, htemplate]
  exact reads_intern hc ⟨by simp [TypeKind.embedded], by simp, hs.wellNamed⟩ rfl

/-! ### Class types -/

theorem hasDoubleSeparator_append {s cs : List Char} (hs : ∀ c ∈ s, isSeparator c = false)
    (hcs : hasDoubleSeparator cs = false) : hasDoubleSeparator (s ++ cs) = false := by
  induction s with
  | nil => exact hcs
  | cons c s ih =>
    have ih := ih fun d hd => hs d (by simp [hd])
    cases h : s ++ cs with
    | nil => rw [List.cons_append, h]; rfl
    | cons d ds =>
      rw [List.cons_append, h, hasDoubleSeparator, hs c (by simp), ← h, ih]
      rfl

/-- Between the segments of a path stands one separator. -/
theorem hasDoubleSeparator_rootedPath {segments : List (List Char)}
    (hs : ∀ s ∈ segments, IsSegment s) : hasDoubleSeparator (rootedPath segments) = false := by
  induction segments with
  | nil => rfl
  | cons s segments ih =>
    have hseg := hs s (by simp)
    have hsep : ∀ c ∈ s, isSeparator c = false := fun c hc =>
      not_isSeparator_of_isSegmentChar (hseg.2 c hc)
    have htail := hasDoubleSeparator_append hsep (ih fun r hr => hs r (by simp [hr]))
    rw [rootedPath_cons]
    cases s with
    | nil => exact absurd rfl hseg.1
    | cons c s =>
      rw [List.cons_append, hasDoubleSeparator, hsep c (by simp), Bool.and_false, Bool.false_or]
      exact htail

/-- A well-formed name spells a class. -/
theorem isBadClassName_text {q : ClassName} (h : q.WellFormed) :
    isBadClassName q.text.toList = false := by
  obtain ⟨segments, hne, hs, htext⟩ := h
  cases segments with
  | nil => exact absurd rfl hne
  | cons s segments =>
    have hseg := hs s (by simp)
    have hsep : ∀ c ∈ s, isSeparator c = false := fun c hc =>
      not_isSeparator_of_isSegmentChar (hseg.2 c hc)
    have hbare : (s ++ rootedPath segments).isEmpty = false := by simp [hseg.1]
    have hlast : ((s ++ rootedPath segments).getLast?.map isSeparator).getD false = false := by
      cases hl : (s ++ rootedPath segments).getLast? with
      | none => rfl
      | some c => exact getLast?_tail_rootedPath hs hl
    have hdouble : hasDoubleSeparator (s ++ rootedPath segments) = false :=
      hasDoubleSeparator_append hsep (hasDoubleSeparator_rootedPath fun r hr => hs r (by simp [hr]))
    have hdollar : (s ++ rootedPath segments).contains '$' = false := by
      rw [← Bool.not_eq_true, List.contains_iff_mem, List.mem_append]
      rintro (hmem | hmem)
      · exact absurd (hseg.2 '$' hmem) (by decide)
      · rcases mem_rootedPath (fun r hr => hs r (by simp [hr])) hmem with h | h <;> revert h <;> decide
    rw [isBadClassName, htext, QualifiedName.dropWhile_rootedPath hseg]
    simp only [hbare, hlast, hdouble, hdollar, Bool.or_self]

theorem head_isSeparator {q : ClassName} (hq : q.WellFormed) :
    (q.text.toList.head?.map isSeparator).getD false = true := by
  obtain ⟨w, hw⟩ := QualifiedName.WellFormed.text_eq_cons hq
  rw [hw]
  rfl

/-- The text of a class, with arguments behind it or without, is read as a class type. -/
theorem atom_eq_classType {q : ClassName} (hq : q.WellFormed) {ds : List Char}
    (hds : ∀ c ∈ ds.head?, c = '<' ∨ isDivider c = true ∨ c = '[') :
    atom src union inner (q.text.toList ++ ds) t = classType src union q.text.toList ds t := by
  obtain ⟨w, hw⟩ := QualifiedName.WellFormed.text_eq_cons hq
  have hne : ∀ {d : Char}, isDivider d = false → d ≠ '<' → d ≠ '[' → ∀ c ∈ ds.head?, c ≠ d := by
    rintro d hd hlt hb c hc rfl
    rcases hds c hc with h | h | h
    · exact hlt h
    · rw [h] at hd; cases hd
    · exact hb h
  rw [atom_eq_plainName (fun c hc => QualifiedName.WellFormed.isNameChar hq hc) (by simp [hw])
    (by simp [hw]) ?_ ?_ ?_, plainName, if_pos (head_isSeparator hq)]
  · intro c hc
    rw [← Bool.not_eq_true]
    intro hchar
    obtain ⟨-, hdiv⟩ := flat_of_class isNameChar_special hchar
    exact hne hdiv (by rintro rfl; revert hchar; decide)
      (by rintro rfl; revert hchar; decide) c hc rfl
  · exact fun c hc => ⟨hne (by decide) (by decide) (by decide) c hc,
      hne (by decide) (by decide) (by decide) c hc⟩
  · intro _ hfold
    have := congrArg String.toList hfold
    rw [Text.toList_fold, String.toList_ofList, hw, List.map_cons] at this
    exact absurd (List.cons.inj this).1 (by decide)

/-- Class types ask for the class by the name that is read back. -/
theorem make_readsBack {q r : ClassName} (h : q.ReadsBack r) (args : List UnionType) :
    TypeM.make r.space r.name args false = TypeM.intern (.object r args) false := by
  rw [TypeM.make, h.space_ne, h.rooted, h.name_ne, h.undivided, h.normalized]
  rfl

section

variable {fits : UnionType → Prop}

/-- A class type is read with its arguments. -/
theorem reads_object (fits : UnionType → Prop) (ht : t₀.Grows TypeKind.WellNamed t) {q : ClassName}
    {args : List UnionType} (hw : t₀.Writable ⟨.object q args, false⟩)
    (hunion : ∀ u ∈ args, ReadsText src t₀ Closes (fits u) union (t₀.renderUnion u).toList
      (UnionType.SameMembers · u)) (hrest : Follows rest) :
    Reads src (∀ u ∈ args, fits u) (atom src union inner)
      ((t₀.renderKind (.object q args)).toList ++ rest) rest t (IsRead (.object q args)) := by
  have hq : q.WellFormed := hw.named
  have hback := QualifiedName.WellFormed.readsBack hq
  have hsep := head_isSeparator hq
  -- the name is read back, and the arguments have the same members
  have hmake : ∀ (vs : List UnionType) (t' : TypeTable), t₀.Grows TypeKind.WellNamed t' →
      List.Forall₂ UnionType.SameMembers vs args → Reads src True
        (types (TypeM.make (QualifiedName.ofFullName q.text).space
          (QualifiedName.ofFullName q.text).name vs false) >>= fun i => pure (.of i)) rest rest t'
        (IsRead (.object q args)) := by
    intro vs t' hg hvs
    rw [make_readsBack hback]
    exact reads_intern hg.canonical (hw.extends hg.keeps) ⟨hback.text_eq, hvs⟩
  rw [TypeTable.renderKind]
  by_cases hargs : args = []
  · subst hargs
    rw [TypeTable.renderClass, List.isEmpty_nil, if_pos rfl]
    refine Reads.of_run_eq (atom_eq_classType hq fun c hc => .inr (hrest c hc)) ?_
    rw [classType, isBadClassName_text hq, hsep, String.ofList_toList]
    refine Reads.of_true (Reads.after (gives_eat_false
      (hrest.class_false (by decide)) (hrest.ne (by decide) (by decide))) ?_) (by simp)
    exact Reads.after (gives_pure []) (hmake [] t ht .nil)
  · rw [TypeTable.toList_renderClass _ hargs, List.append_assoc]
    refine Reads.of_run_eq (atom_eq_classType hq (by simp)) ?_
    rw [classType, isBadClassName_text hq, hsep, String.ofList_toList, List.cons_append,
      List.append_assoc]
    refine Reads.after (gives_eat_char (by decide)) (Reads.of_iff (Reads.bind
      (reads_typeList hargs hunion ht) fun vs t' hg hvs => ?_) (Iff.of_eq (and_true _)))
    exact hmake vs t' (ht.trans hg) hvs

end

/-! ### Literals -/

theorem reads_intLiteral (hc : t.Canonical) {n : Int} (hn : Text.isInteger n = true)
    (hrest : Follows rest) :
    Reads src True (atom src union inner) ((t₀.renderKind (.intLiteral n)).toList ++ rest) rest t
      (IsRead (.intLiteral n)) := by
  have hchars : ∀ c ∈ (Text.decimal n).toList, isNumeralChar c = true :=
    fun c => Text.isNumeralChar_of_mem_decimal
  have hrun : atom src union inner ((Text.decimal n).toList ++ rest) t =
      intLiteral src ((Text.decimal n).toList ++ rest) t := by
    cases hw : (Text.decimal n).toList with
    | nil => exact absurd hw (Text.decimal_ne_nil n)
    | cons c cs =>
      have hc : isNumeralChar c = true := hchars c (by simp [hw])
      have hne : ∀ d, isNumeralChar d = false → c ≠ d := by rintro d hd rfl; rw [hc] at hd; cases hd
      have hspace : isSpace c = false := by
        simp [isSpace, hne ' ' (by decide), hne '\t' (by decide), hne '\n' (by decide),
          hne '\r' (by decide)]
      rw [atom, List.cons_append, bind_of_gives (gives_skipSpace (by simpa [Dense] using hspace)),
        bind_of_gives gives_peek?]
      simp only [List.head?_cons, hc]
      rw [if_neg (hne _ (by decide)), if_neg (hne _ (by decide))]
      rfl
  rw [TypeTable.renderKind]
  refine Reads.of_run_eq hrun (Reads.after (gives_takeWhile hchars
    (hrest.class_false (by decide))) ?_)
  rw [Text.integer?_decimal hn]
  exact reads_intern hc ⟨by simp [TypeKind.embedded], by simp, trivial⟩ rfl

/-- Of a text in quotes a literal is made. -/
theorem atom_eq_stringLiteral (s : String) :
    atom src union inner ((quote s).toList ++ rest) t =
      (types (TypeM.intern (.stringLiteral s) false) >>= fun i => pure (.of i)) rest t := by
  have hhead : ((quote s).toList ++ rest).head? = some '\'' := by simp [toList_quote]
  rw [atom, bind_of_gives (gives_skipSpace (by simp [Dense, hhead, isSpace])),
    bind_of_gives gives_peek?, hhead]
  simp only
  rw [if_neg (by decide), if_pos trivial, bind_of_gives (gives_quotedText s)]

theorem reads_stringLiteral (hc : t.Canonical) {s : String} :
    Reads src True (atom src union inner) ((t₀.renderKind (.stringLiteral s)).toList ++ rest) rest t
      (IsRead (.stringLiteral s)) := by
  rw [TypeTable.renderKind]
  refine Reads.of_run_eq (atom_eq_stringLiteral s) ?_
  exact reads_intern hc ⟨by simp [TypeKind.embedded], by simp, trivial⟩ rfl

/-! ### Arrays -/

section

variable {fits : UnionType → Prop}

theorem sameMembers_of {v : UnionType} {i : TypeId} (h : v.SameMembers (.of i)) : v = .of i := by
  apply UnionType.ext
  have := h.perm
  rw [UnionType.members_of] at this ⊢
  exact List.perm_singleton.1 this

/-- An array of one element type is read as the array type that is written. -/
theorem reads_arraysOf (hc : t.Canonical) {key : KeyKind} {i : TypeId} (hi : i < t.size) :
    Reads src True (arraysOf (.of i) key) cs cs t (IsRead (.array key i)) := by
  have hw : t.Writable ⟨.array key i, false⟩ := ⟨by simpa [TypeKind.embedded] using hi, by simp, trivial⟩
  obtain ⟨j, t', hrun, hgrows, hfinds⟩ :=
    hc.intern_alike (a := .array key i) hw trivial ⟨rfl, rfl⟩
  have harrays : (UnionType.of i).asArrays key t = .ok (.of j, t') := by
    rw [UnionType.asArrays, UnionType.mapMembers, UnionType.members_of]
    refine TypeM.bind_eq_ok.2 ⟨[j], t', ?_, rfl⟩
    rw [List.mapM_cons, List.mapM_nil]
    exact TypeM.bind_eq_ok.2 ⟨j, t', hrun, rfl⟩
  exact Reads.of_gives (gives_types harrays) hgrows ⟨j, rfl, hfinds⟩

/-- An array type in angle brackets is read with its key and its element. -/
theorem reads_genericArray (ht : t₀.Grows TypeKind.WellNamed t) {key : KeyKind} {k : NativeKind}
    (hkey : key = .int ∧ k = .int ∨ key = .string ∧ k = .string) {i : TypeId} (hi : i < t₀.size)
    (hunion : ∀ u ∈ [.native k, .of i], ReadsText src t₀ Closes (fits u) union
      (t₀.renderUnion u).toList (UnionType.SameMembers · u)) :
    Reads src (∀ u ∈ [.native k, .of i], fits u) (genericArray src union)
      ('<' :: ([','].intercalate (t₀.argTexts [.native k, .of i]) ++ '>' :: rest)) rest t
      (IsRead (.array key i)) := by
  refine Reads.after (gives_advance '<') (Reads.of_iff (Reads.bind
    (reads_typeList (by simp) hunion ht) fun vs t' hg hvs => ?_) (Iff.of_eq (and_true _)))
  have hlist : vs = [.native k, .of i] := by
    cases hvs with
    | cons hu hvs =>
      cases hvs with
      | cons hv hvs =>
        cases hvs
        rw [sameMembers_of hu, sameMembers_of hv]
        rfl
  subst hlist
  have harray : Reads src True (arraysOf (.of i) key) rest rest t' (IsRead (.array key i)) :=
    reads_arraysOf hg.canonical (hg.keeps.lt_size (ht.keeps.lt_size hi))
  rcases hkey with ⟨rfl, rfl⟩ | ⟨rfl, rfl⟩ <;> exact harray

end

/-- A member without the mark for null. -/
def unmarked (src : Source) (union : ParseM UnionType) (inner : Option Grammar) :
    ParseM UnionType := do
  let u ← atom src union inner
  arraySuffixes (← get).length u

theorem memberWith_eq : memberWith src union inner = (do
    let nullable ← eat ['?']
    let u ← unmarked src union inner
    if nullable then types u.withNull else return u) := by
  simp only [memberWith, unmarked, bind_assoc]

/-- If the condition holds, reading comes to the second text with a union of the given sort and goes
on with pairs of square brackets; otherwise it stops because brackets nest too deeply. -/
structure ReadsUnmarked (src : Source) (fits : Prop) (union : ParseM UnionType)
    (inner : Option Grammar) (cs rest : List Char) (t : TypeTable)
    (Q : UnionType → TypeTable → Prop) : Prop where
  gives : fits → ∃ u t' n, rest.length ≤ n ∧
    unmarked src union inner cs t = arraySuffixes n u rest t' ∧ t.Grows TypeKind.WellNamed t' ∧ Q u t'
  stops : ¬ fits → StopsTooDeep src (unmarked src union inner) cs t

section

variable {fits : Prop} {Q : UnionType → TypeTable → Prop}

theorem Reads.unmarked (h : Reads src fits (atom src union inner) cs rest t Q) :
    ReadsUnmarked src fits union inner cs rest t Q := by
  constructor
  · intro hfits
    obtain ⟨u, t', hgives, hg, hQ⟩ := h.gives hfits
    refine ⟨u, t', rest.length, Nat.le_refl _, ?_, hg, hQ⟩
    rw [TypeParser.unmarked, bind_of_gives hgives, bind_of_gives gives_get]
  · exact fun hfits => (h.stops hfits).bind

/-- One pair of square brackets makes arrays of what was read. -/
theorem ReadsUnmarked.suffix {Q' : UnionType → TypeTable → Prop}
    (h : ReadsUnmarked src fits union inner cs ('[' :: ']' :: rest) t Q)
    (harrays : ∀ u t', t.Grows TypeKind.WellNamed t' → Q u t' →
      Reads src True (arraysOf u .mixed) rest rest t' Q') :
    ReadsUnmarked src fits union inner cs rest t Q' := by
  refine ⟨fun hfits => ?_, h.stops⟩
  obtain ⟨u, t₁, n, hn, hrun, hg₁, hu⟩ := h.gives hfits
  obtain ⟨n, rfl⟩ : ∃ m, n = m + 1 := ⟨n - 1, by simp at hn; omega⟩
  obtain ⟨v, t₂, hgives, hg₂, hv⟩ := (harrays u t₁ hg₁ hu).gives trivial
  refine ⟨v, t₂, n, by simp at hn; omega, ?_, hg₁.trans hg₂, hv⟩
  have heat : Gives (eat ['[', ']']) ('[' :: ']' :: rest) t₁ true rest t₁ :=
    gives_eat_true (by decide)
  rw [hrun, arraySuffixes, bind_of_gives heat]
  exact bind_of_gives hgives

theorem ReadsUnmarked.brackets (ht : t₀.Grows TypeKind.WellNamed t) {i : TypeId} (hi : i < t₀.size)
    (h : ReadsUnmarked src fits union inner cs ('[' :: ']' :: rest) t fun u _ => u = .of i) :
    ReadsUnmarked src fits union inner cs rest t (IsRead (.array .mixed i)) := by
  refine h.suffix ?_
  rintro u t₁ hg₁ rfl
  exact reads_arraysOf hg₁.canonical (hg₁.keeps.lt_size (ht.keeps.lt_size hi))

/-- Where no pair of square brackets follows, no arrays are made. -/
theorem gives_arraySuffixes (hrest : Ends rest) (n : Nat) (u : UnionType) :
    Gives (arraySuffixes n u) rest t u rest t := by
  cases n with
  | zero => rfl
  | succ n =>
    rw [Gives, arraySuffixes, bind_of_gives (gives_eat_false hrest.dense (hrest.ne (by decide)))]
    rfl

theorem ReadsUnmarked.reads (h : ReadsUnmarked src fits union inner cs rest t Q) (hrest : Ends rest) :
    Reads src fits (TypeParser.unmarked src union inner) cs rest t Q := by
  refine ⟨fun hfits => ?_, h.stops⟩
  obtain ⟨u, t', n, -, hrun, hg, hQ⟩ := h.gives hfits
  exact ⟨u, t', hrun.trans (gives_arraySuffixes hrest n u), hg, hQ⟩

/-! ### Marks and brackets -/

/-- A union in round brackets is read as that union. -/
theorem reads_parens {w : List Char} {Q : UnionType → Prop} (ht : t₀.Grows TypeKind.WellNamed t)
    (h : ReadsText src t₀ Closes fits union w Q) (inner : Option Grammar) (rest : List Char) :
    Reads src fits (atom src union inner) ('(' :: (w ++ ')' :: rest)) rest t fun u _ => Q u := by
  rw [atom]
  refine Reads.after (gives_skipSpace (by simp [Dense, isSpace])) (Reads.after gives_peek? ?_)
  rw [List.head?_cons]
  simp only [if_true]
  refine Reads.after (gives_advance '(') (Reads.of_iff (Reads.bind
    (h t _ ht (closes_cons (by decide) (by decide))) fun u t' hg hu => ?_) (Iff.of_eq (and_true _)))
  exact Reads.after (gives_expect (by decide)) (Reads.of_gives (gives_pure u) (.refl hg.canonical) hu)

/-- A member without the mark for null. -/
theorem ReadsUnmarked.memberWith (h : ReadsUnmarked src fits union inner cs rest t Q)
    (hrest : Ends rest) (hcs : Dense cs) (hmark : ∀ d ∈ cs.head?, d ≠ '?') :
    Reads src fits (TypeParser.memberWith src union inner) cs rest t Q := by
  rw [memberWith_eq]
  exact Reads.after (gives_eat_false hcs hmark) ((h.reads hrest).map fun _ _ hQ => hQ)

/-- A member with the mark for null is the variant with null of what is read behind the mark. -/
theorem ReadsUnmarked.memberWith_null {kind : TypeKind} (hw : t₀.Writable ⟨kind, true⟩)
    (ht : t₀.Grows TypeKind.WellNamed t)
    (h : ReadsUnmarked src fits union inner cs rest t (IsRead kind)) (hrest : Ends rest) :
    Reads src fits (TypeParser.memberWith src union inner) ('?' :: cs) rest t
      fun u t' => ∃ i, u = .of i ∧ t'.Finds ⟨kind, true⟩ i := by
  rw [memberWith_eq]
  refine Reads.after (gives_eat_char (by decide)) (Reads.of_iff (Reads.bind (h.reads hrest) ?_)
    (Iff.of_eq (and_true _)))
  rintro u t₁ hg₁ ⟨i, rfl, hi⟩
  obtain ⟨j, t₂, hrun, hg₂, hj⟩ :=
    hg₁.canonical.withNull_finds (hw.extends (ht.keeps.trans hg₁.keeps)) hi
  have hnull : (UnionType.of i).withNull t₁ = .ok (.of j, t₂) := by
    rw [UnionType.withNull, UnionType.mapMembers, UnionType.members_of]
    refine TypeM.bind_eq_ok.2 ⟨[j], t₂, ?_, rfl⟩
    rw [List.mapM_cons, List.mapM_nil]
    exact TypeM.bind_eq_ok.2 ⟨j, t₂, hrun, rfl⟩
  exact Reads.of_gives (gives_types hnull) hg₂ ⟨j, rfl, hj⟩

end

/-! ### Shapes -/

theorem shapeKey_text_eq_cons (key : ShapeKey) :
    ∃ c cs, key.text.toList = c :: cs ∧ isSpace c = false ∧ c ≠ '\x7d' := by
  have hkey : ∀ ds : List Char, ds ≠ [] → (∀ c ∈ ds, isKeyChar c = true) →
      ∃ c cs, ds = c :: cs ∧ isSpace c = false ∧ c ≠ '\x7d' := by
    intro ds hne hds
    cases ds with
    | nil => exact absurd rfl hne
    | cons c cs =>
      have hc := hds c (by simp)
      have hne : ∀ d, isKeyChar d = false → c ≠ d := by rintro d hd rfl; rw [hc] at hd; cases hd
      refine ⟨c, cs, rfl, ?_, hne _ (by decide)⟩
      simp [isSpace, hne ' ' (by decide), hne '\t' (by decide), hne '\n' (by decide),
        hne '\r' (by decide)]
  cases key with
  | int n => exact hkey _ (Text.decimal_ne_nil n) fun c => Text.isKeyChar_of_mem_decimal
  | str s =>
    rw [ShapeKey.text]
    split
    · next hs =>
      simp only [ShapeKey.isBare, Bool.and_eq_true, List.all_eq_true, Bool.not_eq_true',
        List.isEmpty_eq_false_iff] at hs
      exact hkey _ hs.1.1 fun c hc => by simp [isKeyChar, hs.1.2 c hc]
    · exact ⟨'\'', _, toList_quote s, by decide, by decide⟩

theorem length_le_intercalate {γ : Type} (w : γ → List Char) (as : List γ) (rest : List Char) :
    as.length ≤ ([','].intercalate (as.map w) ++ rest).length + 1 := by
  cases as with
  | nil => simp
  | cons a as =>
    have := length_le_flatMap ',' w as
    rw [List.map_cons, intercalate_eq_flatMap, List.flatMap_map, List.length_append,
      List.length_append, List.length_cons]
    omega

section

variable {fits : UnionType → Prop}

/-- A shape is read with its fields. -/
theorem reads_shape (fits : UnionType → Prop) (ht : t₀.Grows TypeKind.WellNamed t) {fs : ShapeFields}
    (hw : t₀.Writable ⟨.shape fs, false⟩) (hfs : (TypeKind.shape fs).WellFormed)
    (hunion : ∀ f ∈ fs, ReadsText src t₀ Closes (fits f.2.type) union
      (t₀.renderUnion f.2.type).toList (UnionType.SameMembers · f.2.type)) :
    Reads src (∀ f ∈ fs, fits f.2.type) (shape src union)
      ('\x7b' :: ([','].intercalate (t₀.fieldTexts fs) ++ '\x7d' :: rest)) rest t
      (IsRead (.shape fs)) := by
  have hfinish : ∀ (gs : ShapeFields) (t' : TypeTable), t₀.Grows TypeKind.WellNamed t' →
      List.Forall₂ ShapeField.Alike gs fs → Reads src True
        (types (TypeM.intern (.shape gs) false) >>= fun i => pure (.of i)) rest rest t'
        (IsRead (.shape fs)) := fun gs t' hg hgs =>
    reads_intern hg.canonical (hw.extends hg.keeps) hgs
  refine Reads.after (gives_advance '\x7b') ?_
  by_cases hnil : fs = []
  · subst hnil
    refine Reads.of_true (Reads.after (gives_eat_char (by decide)) ?_) (by simp)
    exact Reads.after (gives_pure []) (hfinish [] t ht .nil)
  · obtain ⟨f, gs, rfl⟩ := List.exists_cons_of_ne_nil hnil
    obtain ⟨c, w, hcw, hspace, hbrace⟩ := shapeKey_text_eq_cons f.1
    have hhead : ([','].intercalate (t₀.fieldTexts (f :: gs)) ++ '\x7d' :: rest).head? = some c := by
      rw [TypeTable.fieldTexts, List.map_cons, intercalate_eq_flatMap, TypeTable.toList_renderField,
        hcw]
      rfl
    refine Reads.after (gives_eat_false (by simpa [Dense, hhead] using hspace)
      (by simpa [hhead] using hbrace)) ?_
    refine Reads.after gives_get (Reads.of_iff (Reads.bind (reads_fields hnil hunion
      (fun g hg => (hfs.2 g hg).1) hfs.1 ?_ ht) ?_) (Iff.of_eq (and_true _)))
    · exact length_le_intercalate _ _ _
    · rintro gs' t' hg ⟨hs, rfl, hall⟩
      exact hfinish _ t' (ht.trans hg) hall

/-! ### Callable types -/

/-- What follows the parameters of a callable type is read as its result. -/
theorem reads_afterParams (ht : t₀.Grows TypeKind.WellNamed t) {sig : CallableSignature}
    (hw : t₀.Writable ⟨.callable sig, false⟩) {member : ParseM UnionType} {fitsResult : Prop}
    (hresult : ∀ w, (t₀.renderResult sig.result).toList = ':' :: w →
      ReadsText src t₀ Ends fitsResult member w (UnionType.SameMembers · sig.result))
    (hnone : sig.result.members = [] → fitsResult) (hrest : Ends rest) {ps : List CallableParam}
    (hps : List.Forall₂ CallableParam.Alike ps sig.params) :
    Reads src fitsResult (do
      let result ← if ← eat [':'] then member else pure .empty
      return .of (← types (TypeM.intern (.callable ⟨sig.isClosure, ps, result⟩) false)))
      ((t₀.renderResult sig.result).toList ++ rest) rest t (IsRead (.callable sig)) := by
  have hintern : ∀ (v : UnionType) (t' : TypeTable), t₀.Grows TypeKind.WellNamed t' →
      v.SameMembers sig.result → Reads src True
        (types (TypeM.intern (.callable ⟨sig.isClosure, ps, v⟩) false) >>= fun i => pure (.of i))
        rest rest t' (IsRead (.callable sig)) := fun v t' hg hv =>
    reads_intern hg.canonical (hw.extends hg.keeps) ⟨rfl, hps, hv⟩
  by_cases hnil : sig.result.members = []
  · have htext : (t₀.renderResult sig.result).toList = [] := by
      rw [TypeTable.renderResult.eq_def, hnil]; rfl
    rw [htext, List.nil_append]
    refine Reads.of_true (Reads.after (gives_eat_false hrest.dense
      (hrest.ne (by decide))) ?_) (hnone hnil)
    exact Reads.after (gives_pure _) (hintern _ t ht fun a => by rw [hnil]; rfl)
  · obtain ⟨w, hw'⟩ : ∃ w, (t₀.renderResult sig.result).toList = ':' :: w := by
      rcases TypeTable.renderResult_cases (t := t₀) sig.result with ⟨h, -⟩ | ⟨i, -, h⟩ | ⟨-, h⟩
      · exact absurd h hnil
      · exact ⟨_, h⟩
      · exact ⟨_, h⟩
    rw [hw', List.cons_append]
    refine Reads.after (gives_eat_char (by decide)) (Reads.of_iff (Reads.bind
      (hresult w hw' t rest ht hrest) fun v t' hg hv => ?_) (Iff.of_eq (and_true _)))
    exact hintern v t' (ht.trans hg) hv

/-- The texts of parameters begin with neither a space nor the closing bracket. -/
theorem exists_head?_params (hc : t₀.Canonical) {ps : List CallableParam} (hne : ps ≠ [])
    (hin : ∀ p ∈ ps, ∀ i ∈ p.type.members, i < t₀.size) (cs : List Char) :
    ∃ c, ([','].intercalate (t₀.paramTexts ps) ++ cs).head? = some c ∧ isSpace c = false ∧
      c ≠ ')' := by
  obtain ⟨p, ps, rfl⟩ := List.exists_cons_of_ne_nil hne
  obtain ⟨c, w, hcw, hstart⟩ := hc.renderUnion_eq_cons
    (UnionType.orMixed_members_ne_nil p.type) (hc.orMixed_lt (hin p List.mem_cons_self))
  rw [TypeTable.paramTexts, List.map_cons, intercalate_eq_flatMap,
    TypeTable.toList_renderParam hc, hcw]
  cases p.byRef with
  | true => exact ⟨'&', rfl, by decide, by decide⟩
  | false =>
    refine ⟨c, rfl, (dense_of_cons hstart : Dense [c]) c (by simp), ?_⟩
    rintro rfl
    exact hstart (by decide)

/-- A callable type is read with its parameters and its result. -/
theorem reads_callable (fits : UnionType → Prop) (hc : t₀.Canonical) (ht : t₀.Grows TypeKind.WellNamed t)
    {sig : CallableSignature} (hw : t₀.Writable ⟨.callable sig, false⟩) {member : ParseM UnionType}
    (hunion : ∀ p ∈ sig.params, ReadsText src t₀ Closes (fits p.type) union
      (t₀.renderUnion p.type.orMixed).toList (UnionType.SameMembers · p.type.orMixed))
    {fitsResult : Prop}
    (hresult : ∀ w, (t₀.renderResult sig.result).toList = ':' :: w →
      ReadsText src t₀ Ends fitsResult member w (UnionType.SameMembers · sig.result))
    (hnone : sig.result.members = [] → fitsResult) (hrest : Ends rest) :
    Reads src ((∀ p ∈ sig.params, fits p.type) ∧ fitsResult)
      (callable src sig.isClosure union member)
      ('(' :: ([','].intercalate (t₀.paramTexts sig.params) ++
        ')' :: ((t₀.renderResult sig.result).toList ++ rest))) rest t (IsRead (.callable sig)) := by
  refine Reads.after (gives_advance '(') ?_
  by_cases hnil : sig.params = []
  · have hnoParams : List.Forall₂ CallableParam.Alike [] sig.params := by
      rw [hnil]
      exact .nil
    have hiff : fitsResult ↔ (∀ p ∈ ([] : List CallableParam), fits p.type) ∧ fitsResult := by simp
    have hfinish := reads_afterParams ht hw hresult hnone hrest hnoParams
    rw [hnil]
    refine Reads.of_iff (Reads.after (gives_eat_char (by decide)) ?_) hiff
    exact Reads.after (gives_pure []) hfinish
  · have hin : ∀ p ∈ sig.params, ∀ i ∈ p.type.members, i < t₀.size := fun p hp i hi =>
      hw.inside i (List.mem_append_left _ (List.mem_flatMap.2 ⟨p, hp, hi⟩))
    obtain ⟨c, hhead, hspace, hclose⟩ := exists_head?_params hc hnil hin
      (')' :: ((t₀.renderResult sig.result).toList ++ rest))
    refine Reads.after (gives_eat_false (by simpa [Dense, hhead] using hspace)
      (by simpa [hhead] using hclose)) ?_
    refine Reads.after gives_get (Reads.bind (reads_params hc hnil hin hunion ?_ ht) ?_)
    · exact length_le_intercalate _ _ _
    · exact fun ps t' hg hps => reads_afterParams (ht.trans hg) hw hresult hnone hrest hps

end

end TypeParser

end UnionInference
