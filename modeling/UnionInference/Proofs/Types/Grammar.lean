import UnionInference.Proofs.ClassName
import UnionInference.Proofs.Types.Atoms

/-!
What the grammar keeps. A judgement says of tables which ones can be read with, and of unions what
they are where they are read: as a union, as a member, or as a member that can be made an array, in
each case inside a number of brackets. If the operations by which types are made keep a judgement,
then it holds of all that is read from any text: reading ends without a violation, and what it gives
is judged at the level at which it was read. Names are taken to be fully qualified.
-/

namespace UnionInference

namespace TypeParser

/-! ### Names in texts -/

/-- Characters that spell a class are a row of segments behind their first separators. -/
theorem exists_segments : ∀ (n : Nat) {cs : List Char}, cs.length ≤ n → cs ≠ [] →
    (∀ c ∈ cs, isNameChar c = true) → (∀ c ∈ cs.head?, isSeparator c = false) →
    (∀ c ∈ cs.getLast?, isSeparator c = false) → hasDoubleSeparator cs = false →
    ∃ segments, segments ≠ [] ∧ (∀ s ∈ segments, IsSegment s) ∧ rootedPath segments = '\\' :: cs
  | 0, cs, hn, hne, _, _, _, _ => absurd (List.length_eq_zero_iff.1 (Nat.le_zero.1 hn)) hne
  | n + 1, [], _, hne, _, _, _, _ => absurd rfl hne
  | n + 1, c :: cs, hn, _, hchars, hhead, hlast, hdouble => by
    have hc : isSegmentChar c = true := by
      have hname := hchars c List.mem_cons_self
      have hsep := hhead c rfl
      rw [isSeparator, beq_eq_false_iff_ne] at hsep
      simpa [isNameChar, isSegmentChar, hsep] using hname
    have hone : IsSegment [c] := ⟨by simp, by simpa using hc⟩
    cases cs with
    | nil => exact ⟨[[c]], by simp, by simpa using hone, rfl⟩
    | cons d cs =>
      rw [hasDoubleSeparator, hhead c rfl, Bool.false_and, Bool.false_or] at hdouble
      rw [List.getLast?_cons_cons] at hlast
      have htail : ∀ e ∈ d :: cs, isNameChar e = true := fun e he =>
        hchars e (List.mem_cons_of_mem c he)
      cases hd : isSeparator d with
      | false =>
        -- the first segment goes on
        obtain ⟨segments, hne, hs, hpath⟩ := exists_segments n (Nat.le_of_succ_le_succ hn)
          (List.cons_ne_nil d cs) htail (by simpa using hd) hlast hdouble
        obtain ⟨s, segments, rfl⟩ := List.exists_cons_of_ne_nil hne
        rw [rootedPath_cons] at hpath
        have hsegment := hs s List.mem_cons_self
        refine ⟨(c :: s) :: segments, by simp, ?_, ?_⟩
        · rintro r (_ | ⟨_, hr⟩)
          · exact ⟨by simp, by simpa using ⟨hc, hsegment.2⟩⟩
          · exact hs r (List.mem_cons_of_mem s hr)
        · rw [rootedPath_cons, List.cons_append, (List.cons.inj hpath).2]
      | true =>
        -- the first segment ends, and another one follows
        rw [isSeparator, beq_iff_eq] at hd
        subst hd
        cases cs with
        | nil => exact absurd (hlast '\\' rfl) (by decide)
        | cons e cs =>
          rw [hasDoubleSeparator, Bool.or_eq_false_iff] at hdouble
          have he : isSeparator e = false := by simpa [isSeparator] using hdouble.1
          obtain ⟨segments, -, hs, hpath⟩ := exists_segments n (by simp at hn ⊢; omega)
            (List.cons_ne_nil e cs) (fun a ha => htail a (List.mem_cons_of_mem _ ha))
            (by simpa using he) (by rwa [List.getLast?_cons_cons] at hlast) hdouble.2
          refine ⟨[c] :: segments, by simp, ?_, by rw [rootedPath_cons, hpath]; rfl⟩
          rintro r (_ | ⟨_, hr⟩)
          · exact hone
          · exact hs r hr

/-- A name that is not refused names a class by a regular name. -/
theorem regular_of_isBadClassName {name : List Char}
    (hname : ∀ c ∈ name, c = '$' ∨ isNameChar c = true) (h : isBadClassName name = false) :
    (QualifiedName.ofFullName (String.ofList name)).Regular := by
  simp only [isBadClassName, Bool.or_eq_false_iff] at h
  obtain ⟨⟨⟨hempty, hlast⟩, hdouble⟩, hdollar⟩ := h
  have hmem : ∀ c ∈ name.dropWhile isSeparator, c ∈ name := fun c hc =>
    (List.dropWhile_sublist _).subset hc
  have hchars : ∀ c ∈ name.dropWhile isSeparator, isNameChar c = true := by
    intro c hc
    refine (hname c (hmem c hc)).resolve_left ?_
    rintro rfl
    rw [List.contains_eq_mem, decide_eq_false_iff_not] at hdollar
    exact hdollar hc
  have hhead : ∀ c ∈ (name.dropWhile isSeparator).head?, isSeparator c = false := by
    intro c hc
    have hnot := List.head?_dropWhile_not isSeparator name
    rw [Option.mem_def.1 hc] at hnot
    simpa using hnot
  have hlast : ∀ c ∈ (name.dropWhile isSeparator).getLast?, isSeparator c = false := by
    intro c hc
    rwa [Option.mem_def.1 hc] at hlast
  obtain ⟨segments, hne, hs, hpath⟩ :=
    exists_segments _ (Nat.le_refl _) (by simpa using hempty) hchars hhead hlast hdouble
  refine QualifiedName.regular_ofFullName hne hs ?_
  rw [String.toList_ofList, hpath, List.dropWhile_cons_of_pos rfl, List.dropWhile_idempotent]

/-- A class type asks for the class by a regular name. -/
theorem make_of_regular {q : ClassName} (h : q.Regular) (args : List UnionType) :
    TypeM.make q.space q.name args false = TypeM.intern (.object q args) false :=
  make_readsBack h.readsBack args

/-- A key that is read denotes itself. -/
theorem wellFormed_ofText (s : String) : (ShapeKey.ofText s).WellFormed := by
  rw [ShapeKey.ofText]
  split
  · next n hn =>
    split
    · rw [Text.integer?, Option.filter_eq_some_iff] at hn
      exact hn.2
    · next hne =>
      rw [ShapeKey.WellFormed, ShapeKey.ofText, hn]
      exact if_neg hne
  · next hn => rw [ShapeKey.WellFormed, ShapeKey.ofText, hn]

/-- What is made of each member of a union that is not empty is not empty. -/
theorem ofList_ne_nil {u : UnionType} {P : TypeId → TypeId → Prop} {js : List TypeId}
    (h : List.Forall₂ P u.members js) (hne : u.members ≠ []) :
    (UnionType.ofList js).members ≠ [] := by
  obtain ⟨i, hi⟩ := List.exists_mem_of_ne_nil _ hne
  obtain ⟨j, hj, -⟩ := exists_of_forall₂ h hi
  exact List.ne_nil_of_mem (UnionType.mem_ofList.2 hj)

/-! ### Judgements -/

/-- What is said of the unions that are read, given the number of brackets around them. -/
structure Judgement where
  /-- The tables that are read with. -/
  table : TypeTable → Prop
  /-- How a table changes. -/
  grows : TypeTable → TypeTable → Prop
  /-- A union that is read. -/
  union : Nat → UnionType → TypeTable → Prop
  /-- A member with its marks. -/
  member : Nat → UnionType → TypeTable → Prop
  /-- A member that can be made an array by square brackets. -/
  element : Nat → UnionType → TypeTable → Prop

namespace Judgement

/-- The work on the table is done without a violation, and its result has the property. -/
def Makes (J : Judgement) {α : Type} (t : TypeTable) (work : TypeM α)
    (Q : α → TypeTable → Prop) : Prop :=
  ∃ a t', work t = .ok (a, t') ∧ J.grows t t' ∧ Q a t'

/-- Tables that are read with stay so as they change. -/
structure Steady (J : Judgement) : Prop where
  refl : ∀ {t}, J.table t → J.grows t t
  trans : ∀ {t t' t''}, J.grows t t' → J.grows t' t'' → J.grows t t''
  table : ∀ {t t'}, J.table t → J.grows t t' → J.table t'

/-- The operations by which types are made keep the judgement. -/
structure Kept (J : Judgement) : Prop extends J.Steady where
  union : ∀ {n u t t'}, J.grows t t' → J.union n u t → J.union n u t'
  single : ∀ {n u t}, J.member n u t → J.union (n + 1) u t
  join : ∀ {n u v t}, J.union (n + 1) u t → J.member n v t → J.union (n + 1) (u.union v) t
  brackets : ∀ {n u t}, J.union n u t → J.element n u t
  member : ∀ {n u t}, J.element n u t → J.member n u t
  native : ∀ {n t}, J.table t → ∀ k, J.element n (.native k) t
  intLiteral : ∀ {n t m}, J.table t → Text.isInteger m = true →
    J.Makes t (TypeM.intern (.intLiteral m) false) fun i => J.element n (.of i)
  stringLiteral : ∀ {n t}, J.table t → ∀ s,
    J.Makes t (TypeM.intern (.stringLiteral s) false) fun i => J.element n (.of i)
  object : ∀ {n t args} {q : ClassName}, J.table t → q.Regular → (∀ u ∈ args, J.union n u t) →
    J.Makes t (TypeM.intern (.object q args) false) fun i => J.element n (.of i)
  arrays : ∀ {n u t}, J.table t → J.union n u t → ∀ key,
    J.Makes t (u.asArrays key) (J.element n)
  suffix : ∀ {n u t}, J.table t → J.element n u t → J.Makes t (u.asArrays .mixed) (J.element n)
  shape : ∀ {n t} {fields : ShapeFields}, J.table t → (fields.map Prod.fst).Nodup →
    (∀ f ∈ fields, f.1.WellFormed ∧ J.union n f.2.type t) →
    J.Makes t (TypeM.intern (.shape fields) false) fun i => J.element (n + 1) (.of i)
  callable : ∀ {n t isClosure} {params : List CallableParam}, J.table t →
    (∀ p ∈ params, J.union n p.type t) →
    J.Makes t (TypeM.intern (.callable ⟨isClosure, params, .empty⟩) false) fun i =>
      J.element (n + 1) (.of i)
  result : ∀ {n t isClosure u} {params : List CallableParam}, J.table t →
    (∀ p ∈ params, J.union n p.type t) → J.member n u t →
    J.Makes t (TypeM.intern (.callable ⟨isClosure, params, u⟩) false) fun i =>
      J.member (n + 1) (.of i)
  nullable : ∀ {n u t}, J.table t → J.member n u t → J.Makes t u.withNull (J.member n)

/-- Work on the members one after the other makes the union of what it makes of each. -/
theorem Steady.makes_mapMembers {J : Judgement} (hJ : J.Steady) {u : UnionType}
    {f : TypeId → TypeM TypeId} {P : TypeId → TypeId → TypeTable → Prop}
    (hP : ∀ {t t' i j}, J.table t → J.grows t t' → P i j t → P i j t') {t : TypeTable}
    (ht : J.table t) (hf : ∀ i ∈ u.members, ∀ t', J.table t' → J.grows t t' →
      J.Makes t' (f i) (P i)) :
    J.Makes t (u.mapMembers f) fun v t' =>
      ∃ js, v = .ofList js ∧ List.Forall₂ (fun i j => P i j t') u.members js := by
  have hloop : ∀ (is : List TypeId) (t : TypeTable), J.table t →
      (∀ i ∈ is, ∀ t', J.table t' → J.grows t t' → J.Makes t' (f i) (P i)) →
      J.Makes t (is.mapM f) fun js t' => List.Forall₂ (fun i j => P i j t') is js := by
    intro is
    induction is with
    | nil => exact fun t ht _ => ⟨[], t, rfl, hJ.refl ht, .nil⟩
    | cons i is ih =>
      intro t ht hf
      obtain ⟨j, t₁, hrun, hg, hj⟩ := hf i List.mem_cons_self t ht (hJ.refl ht)
      have ht₁ := hJ.table ht hg
      obtain ⟨js, t₂, hruns, hgs, hjs⟩ := ih t₁ ht₁ fun i hi t' ht' hg' =>
        hf i (List.mem_cons_of_mem _ hi) t' ht' (hJ.trans hg hg')
      refine ⟨j :: js, t₂, ?_, hJ.trans hg hgs, .cons (hP ht₁ hgs hj) hjs⟩
      rw [List.mapM_cons]
      exact TypeM.bind_eq_ok.2 ⟨j, t₁, hrun, TypeM.bind_eq_ok.2 ⟨js, t₂, hruns, rfl⟩⟩
  obtain ⟨js, t', hrun, hg, hjs⟩ := hloop u.members t ht hf
  exact ⟨.ofList js, t', TypeM.bind_eq_ok.2 ⟨js, t', hrun, rfl⟩, hg, js, rfl, hjs⟩

/-- From the text and the table the reader comes to an end without a violation, and what it gives
has the property. -/
def Runs (J : Judgement) {α : Type} (p : ParseM α) (cs : List Char) (t : TypeTable)
    (Q : α → List Char → TypeTable → Prop) : Prop :=
  ∃ r t', p cs t = .ok (r, t') ∧ J.grows t t' ∧ ∀ a rest, r = .ok (a, rest) → Q a rest t'

variable {J : Judgement} {α β : Type} {p : ParseM α} {f : α → ParseM β} {cs rest : List Char}
  {t t' : TypeTable} {Q Q' : α → List Char → TypeTable → Prop}
  {R : β → List Char → TypeTable → Prop} {input : String} {n : Nat}

theorem Runs.imp (h : J.Runs p cs t Q)
    (hQ : ∀ a rest t', J.grows t t' → Q a rest t' → Q' a rest t') : J.Runs p cs t Q' := by
  obtain ⟨r, t', hrun, hgrows, hr⟩ := h
  exact ⟨r, t', hrun, hgrows, fun a rest ha => hQ a rest t' hgrows (hr a rest ha)⟩

/-- A first step that does not touch the table. -/
theorem Runs.after {a : α} (hp : Gives p cs t a rest t) (hf : J.Runs (f a) rest t R) :
    J.Runs (p >>= f) cs t R := by
  obtain ⟨r, t', hrun, h⟩ := hf
  exact ⟨r, t', (bind_of_gives hp).trans hrun, h⟩

theorem Runs.of_gives {a : α} (hJ : J.Kept) (ht : J.table t) (hp : Gives p cs t a rest t)
    (hQ : Q a rest t) : J.Runs p cs t Q := by
  refine ⟨_, t, hp, hJ.refl ht, fun b rest' hb => ?_⟩
  cases hb
  exact hQ

theorem Runs.fail (hJ : J.Kept) (ht : J.table t) (e : TypeParseError) :
    J.Runs (fail e) cs t Q := ⟨.error e, t, rfl, hJ.refl ht, fun _ _ h => by cases h⟩

theorem Runs.bind (hJ : J.Kept) (ht : J.table t) (hp : J.Runs p cs t Q)
    (hf : ∀ a rest t', J.table t' → J.grows t t' → Q a rest t' → J.Runs (f a) rest t' R) :
    J.Runs (p >>= f) cs t R := by
  obtain ⟨r, t₁, hrun, hgrows, hr⟩ := hp
  cases r with
  | error e =>
    refine ⟨.error e, t₁, ?_, hgrows, fun _ _ h => by cases h⟩
    show Except.bind (p cs t) _ = _
    rw [hrun]
    rfl
  | ok x =>
    obtain ⟨r, t₂, hrun₂, hgrows₂, hr₂⟩ :=
      hf x.1 x.2 t₁ (hJ.table ht hgrows) hgrows (hr x.1 x.2 rfl)
    exact ⟨r, t₂, (bind_of_gives hrun).trans hrun₂, hJ.trans hgrows hgrows₂, hr₂⟩

/-- Work on the table does not touch the text. -/
theorem Runs.types {work : TypeM α} {P : α → TypeTable → Prop} (h : J.Makes t work P) :
    J.Runs (types work) cs t fun a rest t' => rest = cs ∧ P a t' := by
  obtain ⟨a, t', hrun, hgrows, ha⟩ := h
  refine ⟨_, t', gives_types hrun, hgrows, fun b rest hb => ?_⟩
  cases hb
  exact ⟨rfl, ha⟩

/-- A type that is made is read as the union of that type. -/
theorem Runs.of_types (hJ : J.Kept) (ht : J.table t) {work : TypeM TypeId}
    {P : UnionType → TypeTable → Prop} (h : J.Makes t work fun i => P (.of i)) :
    J.Runs (TypeParser.types work >>= fun i => pure (.of i)) cs t
      fun u rest t' => rest = cs ∧ P u t' :=
  Runs.bind hJ ht (Runs.types h) fun _ _ _ ht' _ hi =>
    Runs.of_gives hJ ht' (gives_pure _) hi

/-! ### Steps over the text -/

theorem gives_skip (cs : List Char) (t : TypeTable) :
    Gives skipSpace cs t ⟨⟩ (cs.dropWhile isSpace) t := rfl

theorem gives_eat (token cs : List Char) (t : TypeTable) :
    Gives (eat token) cs t (token.isPrefixOf (cs.dropWhile isSpace))
      (if token.isPrefixOf (cs.dropWhile isSpace) then (cs.dropWhile isSpace).drop token.length
        else cs.dropWhile isSpace) t := by
  rw [Gives, eat, bind_of_gives (gives_skip cs t), bind_of_gives gives_get]
  split
  · next h => rw [h]; rfl
  · next h => rw [Bool.eq_false_iff.2 h]; rfl

/-- Where a token is not passed over, the text does not go on with it. -/
theorem Runs.eat {f : Bool → ParseM β} {token : List Char}
    (hf : ∀ found rest, (found = false → token.isPrefixOf (rest.dropWhile isSpace) = false) →
      J.Runs (f found) rest t R) : J.Runs (eat token >>= f) cs t R := by
  refine Runs.after (gives_eat token cs t) (hf _ _ fun hnot => ?_)
  rw [hnot, if_neg Bool.false_ne_true, List.dropWhile_idempotent, hnot]

theorem Runs.unexpected (hJ : J.Kept) (ht : J.table t) (src : Source) :
    J.Runs (unexpected src) cs t Q := by
  rw [TypeParser.unexpected]
  refine Runs.after gives_get ?_
  split
  · exact Runs.fail hJ ht _
  · exact Runs.fail hJ ht _

theorem Runs.expect (hJ : J.Kept) (ht : J.table t) (src : Source) (c : Char) :
    J.Runs (expect src c) cs t fun _ _ _ => True := by
  rw [TypeParser.expect]
  refine Runs.eat fun found rest _ => ?_
  split
  · exact Runs.unexpected hJ ht src
  · exact Runs.of_gives hJ ht (gives_pure _) trivial

theorem Runs.quotedText (hJ : J.Kept) (ht : J.table t) (src : Source) :
    J.Runs (quotedText src) cs t fun _ _ _ => True := by
  rw [TypeParser.quotedText]
  refine Runs.after gives_get ?_
  split
  · exact Runs.after (gives_set _) (Runs.of_gives hJ ht (gives_pure _) trivial)
  · exact Runs.fail hJ ht _

/-! ### Unions and lists -/

/-- The text goes on with a pair of square brackets. -/
def Suffixed (cs : List Char) : Prop := ['[', ']'].isPrefixOf (cs.dropWhile isSpace) = true

/-- The reader reads unions that are judged at the level. -/
def Unions (J : Judgement) (n : Nat) (union : ParseM UnionType) : Prop :=
  ∀ cs t, J.table t → J.Runs union cs t fun u _ t' => J.union n u t'

/-- The reader reads members that are judged at the level, with all their square brackets. -/
def Members (J : Judgement) (n : Nat) (member : ParseM UnionType) : Prop :=
  ∀ cs t, J.table t → J.Runs member cs t fun u rest t' => J.member n u t' ∧ ¬ Suffixed rest

section

variable {src : Source} {union member : ParseM UnionType} {u : UnionType}

theorem runs_moreMembers (hJ : J.Kept) (hm : J.Members n member) (k : Nat) :
    ∀ {cs : List Char} {t : TypeTable} {u : UnionType}, J.table t → J.union (n + 1) u t →
      J.Runs (moreMembers member k u) cs t fun v _ t' => J.union (n + 1) v t' := by
  induction k with
  | zero => exact fun ht hu => Runs.of_gives hJ ht (gives_pure _) hu
  | succ k ih =>
    intro cs t u ht hu
    rw [moreMembers]
    refine Runs.eat fun found rest _ => ?_
    split
    · refine Runs.bind hJ ht (hm _ t ht) fun v rest t' ht' hg hv => ?_
      exact ih ht' (hJ.join (hJ.union hg hu) hv.1)
    · exact Runs.of_gives hJ ht (gives_pure _) hu

theorem unions_alternatives (hJ : J.Kept) (hm : J.Members n member) :
    J.Unions (n + 1) (alternatives member) := by
  intro cs t ht
  rw [alternatives]
  refine Runs.bind hJ ht (hm cs t ht) fun u rest t' ht' _ hu => ?_
  exact Runs.after gives_get (runs_moreMembers hJ hm _ ht' (hJ.single hu.1))

theorem runs_moreUnions (hJ : J.Kept) (hu : J.Unions n union) (k : Nat) :
    ∀ {cs : List Char} {t : TypeTable}, J.table t →
      J.Runs (moreUnions union k) cs t fun us _ t' => ∀ u ∈ us, J.union n u t' := by
  induction k with
  | zero => exact fun ht => Runs.of_gives hJ ht (gives_pure _) (by simp)
  | succ k ih =>
    intro cs t ht
    rw [moreUnions]
    refine Runs.eat fun found rest _ => ?_
    split
    · refine Runs.bind hJ ht (hu _ t ht) fun v rest t₁ ht₁ _ hv => ?_
      refine Runs.bind hJ ht₁ (ih ht₁) fun vs rest t₂ ht₂ hg hvs => ?_
      exact Runs.of_gives hJ ht₂ (gives_pure _) (List.forall_mem_cons.2 ⟨hJ.union hg hv, hvs⟩)
    · exact Runs.of_gives hJ ht (gives_pure _) (by simp)

theorem runs_typeList (hJ : J.Kept) (hu : J.Unions n union) (ht : J.table t) :
    J.Runs (typeList src union) cs t fun us _ t' => us ≠ [] ∧ ∀ u ∈ us, J.union n u t' := by
  rw [typeList]
  refine Runs.bind hJ ht (hu cs t ht) fun v rest t₁ ht₁ _ hv => ?_
  refine Runs.after gives_get (Runs.bind hJ ht₁ (runs_moreUnions hJ hu _ ht₁) ?_)
  intro vs rest t₂ ht₂ hg hvs
  refine Runs.bind hJ ht₂ (Runs.expect hJ ht₂ src '>') fun _ _ t₃ ht₃ hg' _ => ?_
  refine Runs.of_gives hJ ht₃ (gives_pure _) ⟨by simp, List.forall_mem_cons.2 ⟨?_, ?_⟩⟩
  · exact hJ.union hg' (hJ.union hg hv)
  · exact fun w hw => hJ.union hg' (hvs w hw)

theorem runs_genericArray (hJ : J.Kept) (hu : J.Unions n union) (ht : J.table t) :
    J.Runs (genericArray src union) cs t fun u _ t' => J.element n u t' := by
  have hadvance : Gives advance cs t ⟨⟩ cs.tail t := rfl
  rw [genericArray]
  refine Runs.after hadvance (Runs.bind hJ ht (runs_typeList hJ hu ht) ?_)
  rintro us rest t' ht' - ⟨hne, hus⟩
  refine (Runs.types (hJ.arrays ht' (hus _ ?_) _)).imp fun _ _ _ _ hv => hv.2
  rw [List.getLast?_eq_some_getLast hne, Option.getD_some]
  exact List.getLast_mem hne

/-! ### Shapes and callable types -/

theorem runs_fieldKey (hJ : J.Kept) (ht : J.table t) :
    J.Runs (fieldKey src) cs t fun key _ _ => key.WellFormed := by
  rw [fieldKey]
  refine Runs.after (gives_skip cs t) (Runs.after gives_peek? ?_)
  split
  · refine Runs.bind hJ ht (Runs.quotedText hJ ht src) fun s _ t' ht' _ _ => ?_
    exact Runs.of_gives hJ ht' (gives_pure _) (wellFormed_ofText s)
  · have htake : Gives (takeWhile isKeyChar) (cs.dropWhile isSpace) t _ _ t := rfl
    refine Runs.after htake ?_
    split
    · exact Runs.unexpected hJ ht src
    · exact Runs.of_gives hJ ht (gives_pure _) (wellFormed_ofText _)
  · exact Runs.fail hJ ht _

/-- Fields with distinct keys that denote themselves, whose types are judged at the level. -/
structure Fields (J : Judgement) (n : Nat) (fields : ShapeFields) (t : TypeTable) : Prop where
  nodup : (fields.map Prod.fst).Nodup
  each : ∀ f ∈ fields, f.1.WellFormed ∧ J.union n f.2.type t

theorem Fields.grows (hJ : J.Kept) {fields : ShapeFields} (h : J.Fields n fields t)
    (hg : J.grows t t') : J.Fields n fields t' :=
  ⟨h.nodup, fun f hf => ⟨(h.each f hf).1, hJ.union hg (h.each f hf).2⟩⟩

theorem Fields.insert {fields : ShapeFields} (h : J.Fields n fields t) {key : ShapeKey}
    (hkey : key.WellFormed) {field : ShapeField} (hu : J.union n field.type t) :
    J.Fields n (fields.insert key field) t := by
  refine ⟨ShapeFields.nodup_insert h.nodup key field, fun f hf => ?_⟩
  rcases ShapeFields.mem_insert hf with hf | rfl
  · exact h.each f hf
  · exact ⟨hkey, hu⟩

theorem runs_fields (hJ : J.Kept) (hu : J.Unions n union) (k : Nat) :
    ∀ {cs : List Char} {t : TypeTable} {found : ShapeFields}, J.table t → J.Fields n found t →
      J.Runs (fields src union k found) cs t fun fs _ t' => J.Fields n fs t' := by
  induction k with
  | zero => exact fun ht _ => Runs.fail hJ ht _
  | succ k ih =>
    intro cs t found ht hfound
    rw [fields]
    refine Runs.bind hJ ht (runs_fieldKey hJ ht) fun key rest t₁ ht₁ hg₁ hkey => ?_
    refine Runs.eat fun optional rest _ => ?_
    refine Runs.bind hJ ht₁ (Runs.expect hJ ht₁ src ':') fun _ rest t₂ ht₂ hg₂ _ => ?_
    refine Runs.bind hJ ht₂ (hu rest t₂ ht₂) fun v rest t₃ ht₃ hg₃ hv => ?_
    have hkept := hfound.grows hJ (hJ.trans hg₁ (hJ.trans hg₂ hg₃))
    have hmore : J.Fields n (found.insert key ⟨v, optional⟩) t₃ := hkept.insert hkey hv
    refine Runs.eat fun closed rest _ => ?_
    split
    · exact Runs.of_gives hJ ht₃ (gives_pure _) hmore
    · refine Runs.bind hJ ht₃ (Runs.expect hJ ht₃ src ',') fun _ rest t₄ ht₄ hg₄ _ => ?_
      exact ih ht₄ (hmore.grows hJ hg₄)

theorem runs_shape (hJ : J.Kept) (hu : J.Unions n union) (ht : J.table t) :
    J.Runs (shape src union) cs t fun u _ t' => J.element (n + 1) u t' := by
  have hadvance : Gives advance cs t ⟨⟩ cs.tail t := rfl
  have hmake : ∀ {cs : List Char} {t : TypeTable} {fs : ShapeFields}, J.table t →
      J.Fields n fs t → J.Runs (types (TypeM.intern (.shape fs) false) >>= fun i => pure (.of i))
        cs t fun u _ t' => J.element (n + 1) u t' := fun ht hfs =>
    (Runs.of_types hJ ht (hJ.shape ht hfs.nodup hfs.each)).imp fun _ _ _ _ h => h.2
  rw [shape]
  refine Runs.after hadvance (Runs.eat fun closed rest _ => ?_)
  split
  · exact Runs.after (gives_pure []) (hmake ht ⟨by simp, by simp⟩)
  · refine Runs.after gives_get (Runs.bind hJ ht (runs_fields hJ hu _ ht ⟨by simp, by simp⟩) ?_)
    exact fun fs rest t' ht' _ hfs => hmake ht' hfs

theorem runs_paramName (hJ : J.Kept) (ht : J.table t) :
    J.Runs paramName cs t fun _ _ _ => True := by
  rw [paramName]
  refine Runs.after (gives_skip cs t) (Runs.after gives_peek? ?_)
  split
  · have hrun : Gives (do advance; let _ ← takeWhile ShapeKey.isWordChar)
        (cs.dropWhile isSpace) t ⟨⟩ _ t := rfl
    exact Runs.of_gives hJ ht hrun trivial
  · exact Runs.of_gives hJ ht (gives_pure _) trivial

theorem runs_params (hJ : J.Kept) (hu : J.Unions n union) (k : Nat) :
    ∀ {cs : List Char} {t : TypeTable}, J.table t →
      J.Runs (params src union k) cs t fun ps _ t' => ∀ p ∈ ps, J.union n p.type t' := by
  induction k with
  | zero => exact fun ht => Runs.fail hJ ht _
  | succ k ih =>
    intro cs t ht
    rw [params]
    refine Runs.eat fun byRef rest _ => ?_
    refine Runs.bind hJ ht (hu rest t ht) fun v rest t₁ ht₁ _ hv => ?_
    refine Runs.eat fun variadic rest _ => ?_
    refine Runs.bind hJ ht₁ (runs_paramName hJ ht₁) fun _ rest t₂ ht₂ hg₂ _ => ?_
    refine Runs.eat fun optional rest _ => ?_
    refine Runs.eat fun closed rest _ => ?_
    split
    · refine Runs.of_gives hJ ht₂ (gives_pure _) ?_
      simpa using hJ.union hg₂ hv
    · refine Runs.bind hJ ht₂ (Runs.expect hJ ht₂ src ',') fun _ rest t₃ ht₃ hg₃ _ => ?_
      refine Runs.bind hJ ht₃ (ih ht₃) fun ps rest t₄ ht₄ hg₄ hps => ?_
      refine Runs.of_gives hJ ht₄ (gives_pure _) (List.forall_mem_cons.2 ⟨?_, hps⟩)
      exact hJ.union hg₄ (hJ.union hg₃ (hJ.union hg₂ hv))

/-- What is read without marks: a member, and one that can be made an array where the text goes on
with square brackets. -/
def Plain (J : Judgement) (n : Nat) (u : UnionType) (rest : List Char) (t : TypeTable) : Prop :=
  J.member n u t ∧ (Suffixed rest → J.element n u t)

theorem Plain.of_element (hJ : J.Kept) (h : J.element n u t) : J.Plain n u rest t :=
  ⟨hJ.member h, fun _ => h⟩

/-- Square brackets behind a callable type with a result belong to the result. -/
theorem runs_callable (hJ : J.Kept) (hu : J.Unions n union) (hm : J.Members n member)
    (isClosure : Bool) (ht : J.table t) :
    J.Runs (callable src isClosure union member) cs t (J.Plain (n + 1)) := by
  have hadvance : Gives advance cs t ⟨⟩ cs.tail t := rfl
  have hfinish : ∀ {cs : List Char} {t : TypeTable} {ps : List CallableParam}, J.table t →
      (∀ p ∈ ps, J.union n p.type t) → J.Runs (do
        let result ← if ← eat [':'] then member else pure .empty
        return .of (← types (TypeM.intern (.callable ⟨isClosure, ps, result⟩) false))) cs t
        (J.Plain (n + 1)) := by
    intro cs t ps ht hps
    refine Runs.eat fun found rest _ => ?_
    split
    · refine Runs.bind hJ ht (hm _ t ht) ?_
      rintro v rest t' ht' hg ⟨hv, hend⟩
      refine (Runs.of_types (P := J.member (n + 1)) hJ ht'
        (hJ.result ht' (fun p hp => hJ.union hg (hps p hp)) hv)).imp ?_
      rintro w _ t'' - ⟨rfl, hw⟩
      exact ⟨hw, fun h => absurd h hend⟩
    · refine Runs.after (gives_pure _) ?_
      exact (Runs.of_types hJ ht (hJ.callable ht hps)).imp fun w _ _ _ h =>
        Plain.of_element hJ h.2
  rw [callable]
  refine Runs.after hadvance (Runs.eat fun closed rest _ => ?_)
  split
  · exact Runs.after (gives_pure []) (hfinish ht (by simp))
  · refine Runs.after gives_get (Runs.bind hJ ht (runs_params hJ hu _ ht) ?_)
    exact fun ps rest t' ht' _ hps => hfinish ht' hps

end

/-! ### Members -/

/-- The text with names that are taken to be fully qualified. -/
def source (input : String) : Source := ⟨.fullyQualified, input⟩

section

variable {union member : ParseM UnionType} {inner : Option Grammar} {u : UnionType}

theorem runs_intLiteral (hJ : J.Kept) (ht : J.table t) {src : Source} :
    J.Runs (intLiteral src) cs t fun u _ t' => J.element n u t' := by
  have htake : Gives (takeWhile isNumeralChar) cs t _ _ t := rfl
  rw [intLiteral]
  refine Runs.after htake ?_
  split
  · next m hm =>
    rw [Text.integer?, Option.filter_eq_some_iff] at hm
    exact (Runs.of_types hJ ht (hJ.intLiteral ht hm.2)).imp fun _ _ _ _ h => h.2
  · exact Runs.fail hJ ht _

/-- The characters of a name, with the sign of a variable in front or without. -/
theorem gives_name_chars (cs : List Char) (t : TypeTable) :
    ∃ w rest, Gives name cs t w rest t ∧ ∀ c ∈ w, c = '$' ∨ isNameChar c = true := by
  have hchars : ∀ ds : List Char, ∀ c ∈ ds.takeWhile isNameChar, isNameChar c = true :=
    fun ds c hc => List.mem_takeWhile_imp hc
  by_cases h : cs.head? = some '$'
  · refine ⟨'$' :: cs.tail.takeWhile isNameChar, cs.tail.dropWhile isNameChar, ?_, ?_⟩
    · rw [Gives, name, bind_of_gives gives_peek?, h]
      rfl
    · exact List.forall_mem_cons.2 ⟨.inl rfl, fun c hc => .inr (hchars _ c hc)⟩
  · refine ⟨cs.takeWhile isNameChar, cs.dropWhile isNameChar, ?_, fun c hc => .inr (hchars _ c hc)⟩
    have htake : Gives (takeWhile isNameChar) cs t _ _ t := rfl
    rw [Gives, name, bind_of_gives gives_peek?]
    refine (congrFun (congrFun ?_ cs) t).trans htake
    split
    · next heq => exact absurd heq h
    · rfl

theorem runs_classType (hJ : J.Kept) (hu : J.Unions n union) (ht : J.table t) {name : List Char}
    (hname : ∀ c ∈ name, c = '$' ∨ isNameChar c = true) :
    J.Runs (classType (source input) union name) cs t fun u _ t' => J.element n u t' := by
  rw [classType]
  split
  · exact Runs.fail hJ ht _
  · next hgood =>
    have hq := regular_of_isBadClassName hname (Bool.eq_false_iff.2 hgood)
    -- the resolver gives the name that a text with a separator in front gives
    have howner : (if (name.head?.map isSeparator).getD false = true then
        QualifiedName.ofFullName (String.ofList name)
        else (source input).names.resolveClass (String.ofList name)) =
          QualifiedName.ofFullName (String.ofList name) := ite_self _
    simp only [howner]
    have hmake : ∀ {cs : List Char} {t : TypeTable} {args : List UnionType}, J.table t →
        (∀ u ∈ args, J.union n u t) → J.Runs (do
          return .of (← types (TypeM.make (QualifiedName.ofFullName (String.ofList name)).space
            (QualifiedName.ofFullName (String.ofList name)).name args false))) cs t
          fun u _ t' => J.element n u t' := by
      intro cs t args ht hargs
      rw [make_of_regular hq]
      exact (Runs.of_types hJ ht (hJ.object ht hq hargs)).imp fun _ _ _ _ h => h.2
    refine Runs.eat fun found rest _ => ?_
    split
    · refine Runs.bind hJ ht (runs_typeList hJ hu ht) fun args rest t' ht' _ hargs => ?_
      exact hmake ht' hargs.2
    · exact Runs.after (gives_pure []) (hmake ht (by simp))

theorem runs_plainName (hJ : J.Kept) (hu : J.Unions n union) (ht : J.table t) {name : List Char}
    (hname : ∀ c ∈ name, c = '$' ∨ isNameChar c = true) :
    J.Runs (plainName (source input) union name) cs t fun u _ t' => J.element n u t' := by
  rw [plainName]
  split
  · exact runs_classType hJ hu ht hname
  · split
    · exact Runs.of_gives hJ ht (gives_pure _) (hJ.native ht .self)
    · next k _ _ => exact Runs.of_gives hJ ht (gives_pure _) (hJ.native ht k)
    · exact runs_classType hJ hu ht hname

/-- What is inside of brackets of their own is judged at one level less. -/
def Inner (J : Judgement) : Nat → Option Grammar → Prop
  | _, none => True
  | 0, some _ => False
  | n + 1, some g => J.Unions n g.union ∧ J.Members n g.member

theorem runs_named (hJ : J.Kept) (hu : J.Unions n union) (hi : J.Inner n inner) (ht : J.table t) :
    J.Runs (named (source input) union inner) cs t (J.Plain n) := by
  obtain ⟨w, rest, hname, hw⟩ := gives_name_chars cs t
  have hplain : J.Runs (plainName (source input) union w) rest t (J.Plain n) :=
    (runs_plainName hJ hu ht hw).imp fun u _ _ _ h => Plain.of_element hJ h
  have hinner : ∀ {p : ParseM UnionType}, (inner = none → p = tooDeep (source input)) →
      (∀ m g, n = m + 1 → inner = some g → J.Unions m g.union → J.Members m g.member →
        J.Runs p rest t (J.Plain n)) → J.Runs p rest t (J.Plain n) := by
    intro p hnone hsome
    cases inner with
    | none => exact hnone rfl ▸ Runs.fail hJ ht _
    | some g =>
      cases n with
      | zero => exact hi.elim
      | succ m => exact hsome m g rfl rfl hi.1 hi.2
  rw [named.eq_def]
  refine Runs.after hname (Runs.after gives_peek? ?_)
  split
  · refine hinner (by rintro rfl; rfl) fun m g hn hg hgu _ => ?_
    subst hn hg
    exact (runs_shape hJ hgu ht).imp fun u _ _ _ h => Plain.of_element hJ h
  · exact (runs_genericArray hJ hu ht).imp fun u _ _ _ h => Plain.of_element hJ h
  · refine hinner (by rintro rfl; rfl) fun m g hn hg hgu hgm => ?_
    subst hn hg
    exact runs_callable hJ hgu hgm true ht
  · refine hinner (by rintro rfl; rfl) fun m g hn hg hgu hgm => ?_
    subst hn hg
    exact runs_callable hJ hgu hgm true ht
  · refine hinner (by rintro rfl; rfl) fun m g hn hg hgu hgm => ?_
    subst hn hg
    exact runs_callable hJ hgu hgm false ht
  · exact hplain

theorem runs_atom (hJ : J.Kept) (hu : J.Unions n union) (hi : J.Inner n inner) (ht : J.table t) :
    J.Runs (atom (source input) union inner) cs t (J.Plain n) := by
  have hadvance : ∀ ds : List Char, Gives advance ds t ⟨⟩ ds.tail t := fun _ => rfl
  rw [atom]
  refine Runs.after (gives_skip cs t) (Runs.after gives_peek? ?_)
  split
  · exact Runs.fail hJ ht _
  · split_ifs
    · refine Runs.after (hadvance _) (Runs.bind hJ ht (hu _ t ht) fun u rest t₁ ht₁ _ hv => ?_)
      refine Runs.bind hJ ht₁ (Runs.expect hJ ht₁ _ ')') fun _ rest t₂ ht₂ hg₂ _ => ?_
      exact Runs.of_gives hJ ht₂ (gives_pure u)
        (Plain.of_element hJ (hJ.brackets (hJ.union hg₂ hv)))
    · refine Runs.bind hJ ht (Runs.quotedText hJ ht _) fun s rest t₁ ht₁ _ _ => ?_
      exact (Runs.of_types hJ ht₁ (hJ.stringLiteral ht₁ s)).imp fun u _ _ _ h =>
        Plain.of_element hJ h.2
    · exact (runs_intLiteral hJ ht).imp fun u _ _ _ h => Plain.of_element hJ h
    · exact runs_named hJ hu hi ht
    · exact Runs.unexpected hJ ht _

/-- All square brackets are read, as the number is large enough. -/
theorem runs_arraySuffixes (hJ : J.Kept) (k : Nat) :
    ∀ {cs : List Char} {t : TypeTable} {u : UnionType}, cs.length ≤ k → J.table t →
      J.Plain n u cs t → J.Runs (arraySuffixes k u) cs t
        fun v rest t' => J.member n v t' ∧ ¬ Suffixed rest := by
  induction k with
  | zero =>
    intro cs t u hk ht hu
    refine Runs.of_gives hJ ht (gives_pure _) ⟨hu.1, ?_⟩
    rw [List.length_eq_zero_iff.1 (Nat.le_zero.1 hk)]
    exact Bool.false_ne_true
  | succ k ih =>
    intro cs t u hk ht hu
    rw [arraySuffixes]
    by_cases hsuffix : Suffixed cs
    · have heat := gives_eat ['[', ']'] cs t
      rw [show ['[', ']'].isPrefixOf (cs.dropWhile isSpace) = true from hsuffix, if_pos rfl] at heat
      have hlen : ((cs.dropWhile isSpace).drop 2).length ≤ k := by
        have := (List.dropWhile_sublist (p := isSpace) (l := cs)).length_le
        rw [List.length_drop]
        omega
      refine Runs.after heat (Runs.bind hJ ht (Runs.types (hJ.suffix ht (hu.2 hsuffix))) ?_)
      rintro v rest t' ht' - ⟨rfl, hv⟩
      exact ih hlen ht' (Plain.of_element hJ hv)
    · have heat := gives_eat ['[', ']'] cs t
      rw [Bool.eq_false_iff.2 hsuffix, if_neg Bool.false_ne_true] at heat
      refine Runs.after heat (Runs.of_gives hJ ht (gives_pure _) ⟨hu.1, fun h => hsuffix ?_⟩)
      rwa [Suffixed, List.dropWhile_idempotent] at h

theorem members_memberWith (hJ : J.Kept) (hu : J.Unions n union) (hi : J.Inner n inner) :
    J.Members n (memberWith (source input) union inner) := by
  intro cs t ht
  rw [memberWith]
  refine Runs.eat fun nullable rest _ => ?_
  refine Runs.bind hJ ht (runs_atom hJ hu hi ht) fun u rest t₁ ht₁ _ hu => ?_
  refine Runs.after gives_get (Runs.bind hJ ht₁
    (runs_arraySuffixes hJ rest.length (Nat.le_refl _) ht₁ hu) fun v rest t₂ ht₂ _ hv => ?_)
  split
  · refine (Runs.types (hJ.nullable ht₂ hv.1)).imp ?_
    rintro w _ t₃ - ⟨rfl, hw⟩
    exact ⟨hw, hv.2⟩
  · exact Runs.of_gives hJ ht₂ (gives_pure v) hv

/-- What is read inside a number of brackets is judged at that level, by induction on the number. -/
theorem grammar_judged (hJ : J.Kept) (n : Nat) :
    J.Unions n (grammar (source input) n).union ∧
      J.Members n (grammar (source input) n).member := by
  induction n with
  | zero =>
    have hdeep : J.Unions 0 (tooDeep (source input)) := fun _ _ ht => Runs.fail hJ ht _
    exact ⟨hdeep, members_memberWith hJ hdeep trivial⟩
  | succ n ih =>
    have hunion := unions_alternatives hJ ih.2
    exact ⟨hunion, members_memberWith hJ hunion ih⟩

/-- A text is read without a violation, and what it gives is judged: the empty union for a blank
text, and otherwise a union inside of as many brackets as may nest. -/
theorem Kept.parse (hJ : J.Kept) (ht : J.table t) (input : String) :
    ∃ r t', UnionType.parseFullyQualified input t = .ok (r, t') ∧ J.grows t t' ∧
      ∀ u, r = .ok u → if Text.isBlank input then u = .empty else J.union maxDepth u t' := by
  have hwhole : J.Runs (whole (source input)) input.toList t fun u _ t' =>
      J.union maxDepth u t' := by
    rw [whole]
    refine Runs.bind hJ ht ((grammar_judged hJ maxDepth).1 _ t ht) fun u rest t₁ ht₁ _ hu => ?_
    refine Runs.after (gives_skip rest t₁) (Runs.after gives_get ?_)
    split
    · exact Runs.of_gives hJ ht₁ (gives_pure u) hu
    · exact Runs.unexpected hJ ht₁ _
  obtain ⟨r, t', hrun, hg, hr⟩ := hwhole
  rw [UnionType.parseFullyQualified, UnionType.parse]
  cases hblank : Text.isBlank input with
  | true =>
    refine ⟨.ok .empty, t, rfl, hJ.refl ht, fun u hu => ?_⟩
    exact (Except.ok.inj hu).symm
  | false =>
    refine ⟨r.map Prod.fst, t', TypeM.bind_eq_ok.2 ⟨r, t', hrun, rfl⟩, hg, fun u hu => ?_⟩
    cases r with
    | error e => cases hu
    | ok x =>
      cases hu
      exact hr x.1 x.2 rfl

end

end Judgement

end TypeParser

end UnionInference
