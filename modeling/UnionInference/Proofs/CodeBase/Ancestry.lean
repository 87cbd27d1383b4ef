import Mathlib.Logic.Relation
import UnionInference.Proofs.CodeBase.Inheritance
import UnionInference.Proofs.CodeBase.SelfContained
import UnionInference.Proofs.Types.Atoms

/-!
Expansion as reachability. A class derives from the other classes whose types it
declares. Where classes
declare class types only, expanding the type of a class finds the types that can be reached from it
over declarations, unknown classes as ends; it is refused exactly when a walk of as many edges as
there are levels starts at the class, and so on every cycle. One class is then a subclass of another
one when it is registered, differs from it and reaches it.
-/

namespace UnionInference

/-! ### The hierarchy as a graph -/

/-- At the place stands a type of the objects of the class, without null. -/
def TypeTable.IsClassType (t : TypeTable) (i : TypeId) (c : ClassName) : Prop :=
  ∃ args, t.get? i = some ⟨.object c args, false⟩

/-- The declared types of all registered classes are class types without null, as of the class
itself, its parent and its interfaces. -/
def DeclaresClasses (t : TypeTable) (b : CodeBase) : Prop :=
  ∀ (c : ClassName) (decl : ClassDecl), b.class? c = some decl →
    ∀ i ∈ decl.type.members, ∃ d, t.IsClassType i d

/-- The first class is registered and the second one, another class, is among those that it
declares. -/
def Derives (t : TypeTable) (b : CodeBase) (c d : ClassName) : Prop :=
  c.fold ≠ d.fold ∧ ∃ decl, b.class? c = some decl ∧
    ∃ i ∈ decl.type.members, ∃ d', t.classOf? i = some d' ∧ d'.fold = d.fold

/-- The class of the first type declares the second type. -/
def Declares (t : TypeTable) (b : CodeBase) (i j : TypeId) : Prop :=
  ∃ c decl, t.classOf? i = some c ∧ b.class? c = some decl ∧ j ∈ decl.type.members

/-- Some walk of the given number of edges starts at the class. -/
def Climbs (t : TypeTable) (b : CodeBase) (n : Nat) (c : ClassName) : Prop :=
  ∃ walk : List ClassName, walk.length = n ∧ (c :: walk).IsChain (Derives t b)

section

open Relation

variable {t t' : TypeTable} {b : CodeBase} {i j : TypeId} {c d : ClassName} {n : Nat}

theorem TypeTable.IsClassType.classOf? (h : t.IsClassType i c) : t.classOf? i = some c := by
  obtain ⟨args, h⟩ := h
  rw [TypeTable.classOf?, h]
  rfl

theorem TypeTable.IsClassType.entry (h : t.IsClassType i c) :
    ∃ e args, t.entries[i]? = some e ∧ e.type = ⟨.object c args, false⟩ := by
  obtain ⟨args, h⟩ := h
  obtain ⟨e, he, htype⟩ := Option.map_eq_some_iff.1 h
  exact ⟨e, args, he, htype⟩

theorem TypeTable.IsClassType.extends (h : t.IsClassType i c) (hext : t.Extends t') :
    t'.IsClassType i c := by
  obtain ⟨e, args, he, htype⟩ := h.entry
  exact ⟨args, by rw [TypeTable.get?_eq (hext.entries i e he), htype]⟩

theorem Derives.congr_left {c' : ClassName} (h : Derives t b c d) (hc : c'.fold = c.fold) :
    Derives t b c' d := by
  obtain ⟨hne, decl, hclass, hmem⟩ := h
  exact ⟨hc ▸ hne, decl, by rwa [CodeBase.class?_congr b hc], hmem⟩

theorem Derives.congr_right {d' : ClassName} (h : Derives t b c d) (hd : d.fold = d'.fold) :
    Derives t b c d' := by
  obtain ⟨hne, decl, hclass, i, hi, e, he, hfold⟩ := h
  exact ⟨hd ▸ hne, decl, hclass, i, hi, e, he, hfold.trans hd⟩

theorem climbs_zero (t : TypeTable) (b : CodeBase) (c : ClassName) : Climbs t b 0 c :=
  ⟨[], rfl, List.IsChain.singleton c⟩

/-- A walk is a first edge and a walk from its end. -/
theorem climbs_succ : Climbs t b (n + 1) c ↔ ∃ d, Derives t b c d ∧ Climbs t b n d := by
  constructor
  · rintro ⟨walk, hlength, hchain⟩
    cases walk with
    | nil => simp at hlength
    | cons d walk =>
      rw [List.isChain_cons_cons] at hchain
      exact ⟨d, hchain.1, walk, by simpa using hlength, hchain.2⟩
  · rintro ⟨d, hedge, walk, hlength, hchain⟩
    exact ⟨d :: walk, by simp [hlength], List.isChain_cons_cons.2 ⟨hedge, hchain⟩⟩

theorem Climbs.congr (h : Climbs t b n d) (hd : c.fold = d.fold) : Climbs t b n c := by
  cases n with
  | zero => exact climbs_zero t b c
  | succ n =>
    obtain ⟨e, hedge, hrest⟩ := climbs_succ.1 h
    exact climbs_succ.2 ⟨e, hedge.congr_left hd, hrest⟩

/-- From a class that reaches a cycle walks of every length start. -/
theorem climbs_of_cycle (hcycle : TransGen (Derives t b) d d) (n : Nat) :
    ∀ {c : ClassName}, ReflTransGen (Derives t b) c d → Climbs t b n c := by
  induction n with
  | zero => exact fun _ => climbs_zero t b _
  | succ n ih =>
    intro c hreach
    rw [climbs_succ]
    rcases hreach.cases_head with rfl | ⟨e, hedge, hrest⟩
    · -- at the cycle itself, its first edge is the next one
      obtain ⟨e, hedge, hrest⟩ := TransGen.head'_iff.1 hcycle
      exact ⟨e, hedge, ih hrest⟩
    · exact ⟨e, hedge, ih hrest⟩

/-! ### Reaching types over declarations -/

/-- What a type declared by a class brings along: itself, and if it is of another class, what can be
reached from it. -/
def Brings (t : TypeTable) (b : CodeBase) (c : ClassName) (m j : TypeId) : Prop :=
  j = m ∨ ∃ d, t.IsClassType m d ∧ d.fold ≠ c.fold ∧ ReflTransGen (Declares t b) m j

/-- From a type of a class one reaches itself and what the declared types of the class bring. -/
theorem reach_iff (hd : DeclaresClasses t b) (hi : t.IsClassType i c) {decl : ClassDecl}
    (hclass : b.class? c = some decl) :
    ReflTransGen (Declares t b) i j ↔ j = i ∨ ∃ m ∈ decl.type.members, Brings t b c m j := by
  constructor
  · intro h
    -- types of the class itself all declare the same, so they may be passed over
    have hpass : ∀ {k : TypeId}, ReflTransGen (Declares t b) k j →
        (∃ c', t.classOf? k = some c' ∧ c'.fold = c.fold) →
        j = k ∨ ∃ m ∈ decl.type.members, Brings t b c m j := by
      intro k hreach
      induction hreach using ReflTransGen.head_induction_on with
      | refl => exact fun _ => .inl rfl
      | @head k m hstep hrest ih =>
        rintro ⟨c', hc', hfold⟩
        obtain ⟨c'', decl', hc'', hclass', hm⟩ := hstep
        obtain rfl : c'' = c' := Option.some.inj (hc''.symm.trans hc')
        obtain rfl : decl' = decl := by
          rw [CodeBase.class?_congr b hfold, hclass] at hclass'
          exact (Option.some.inj hclass').symm
        obtain ⟨d, hmd⟩ := hd c decl' hclass m hm
        by_cases hsame : d.fold = c.fold
        · rcases ih ⟨d, hmd.classOf?, hsame⟩ with rfl | hfound
          · exact .inr ⟨j, hm, .inl rfl⟩
          · exact .inr hfound
        · exact .inr ⟨m, hm, .inr ⟨d, hmd, hsame, hrest⟩⟩
    exact hpass h ⟨c, hi.classOf?, rfl⟩
  · have hstep : ∀ m ∈ decl.type.members, Declares t b i m :=
      fun m hm => ⟨c, decl, hi.classOf?, hclass, hm⟩
    rintro (rfl | ⟨m, hm, rfl | ⟨d, -, -, hrest⟩⟩)
    · exact .refl
    · exact .single (hstep j hm)
    · exact .head (hstep m hm) hrest

/-- A type of a class that is not registered reaches itself alone. -/
theorem reach_iff_of_unknown (hi : t.IsClassType i c) (hnone : b.class? c = none) :
    ReflTransGen (Declares t b) i j ↔ j = i := by
  constructor
  · intro h
    rcases h.cases_head with rfl | ⟨m, ⟨c', decl, hc', hclass, -⟩, -⟩
    · rfl
    · rw [hi.classOf?] at hc'
      cases hc'
      rw [hnone] at hclass
      cases hclass
  · rintro rfl
    exact .refl

/-! ### Expanding the type of a class -/

/-- The work is refused as too deep when the condition holds; else it leaves everything as it is and
finds the types that it should. -/
def Yields (run : Checked (UnionType × TypeTable × CodeBase)) (s : TypeTable × CodeBase)
    (refused : Prop) (found : TypeId → Prop) : Prop :=
  (refused ∧ ∃ key, run = .error (.expansionTooDeep key maxExpansionDepth)) ∨
    (¬ refused ∧ ∃ u, run = .ok (u, s) ∧ ∀ j, j ∈ u.members ↔ found j)

theorem Yields.congr {run : Checked (UnionType × TypeTable × CodeBase)} {s : TypeTable × CodeBase}
    {refused refused' : Prop} {found found' : TypeId → Prop} (h : Yields run s refused found)
    (hr : refused ↔ refused') (hf : ∀ j, found j ↔ found' j) : Yields run s refused' found' := by
  rcases h with ⟨hrefused, hrun⟩ | ⟨hnot, u, hrun, hu⟩
  · exact .inl ⟨hr.1 hrefused, hrun⟩
  · exact .inr ⟨fun h => hnot (hr.2 h), u, hrun, fun j => (hu j).trans (hf j)⟩

/-- Work that goes on with what was found. -/
theorem Yields.bind {run : Checked (UnionType × TypeTable × CodeBase)} {s : TypeTable × CodeBase}
    {refused refused' : Prop} {found found' : TypeId → Prop}
    {f : UnionType × TypeTable × CodeBase → Checked (UnionType × TypeTable × CodeBase)}
    (h : Yields run s refused found)
    (hnext : ∀ u : UnionType, (∀ j, j ∈ u.members ↔ found j) →
      Yields (f (u, s)) s refused' found') :
    Yields (run >>= f) s (refused ∨ refused') found' := by
  rcases h with ⟨hrefused, key, rfl⟩ | ⟨hnot, u, rfl, hu⟩
  · exact .inl ⟨.inl hrefused, key, rfl⟩
  · rcases hnext u hu with ⟨hrefused, hrun⟩ | ⟨hnot', hrun⟩
    · exact .inl ⟨.inr hrefused, hrun⟩
    · exact .inr ⟨not_or.2 ⟨hnot, hnot'⟩, hrun⟩

/-- From a type that a class declares, of another class, a walk of the given number of edges starts.
-/
def Overruns (t : TypeTable) (b : CodeBase) (n : Nat) (c : ClassName) (m : TypeId) : Prop :=
  ∃ d, t.IsClassType m d ∧ d.fold ≠ c.fold ∧ Climbs t b n d

/-- Walks from a registered class go over the types that it declares. -/
theorem climbs_succ_iff (hd : DeclaresClasses t b) {decl : ClassDecl}
    (hclass : b.class? c = some decl) :
    Climbs t b (n + 1) c ↔ ∃ m ∈ decl.type.members, Overruns t b n c m := by
  rw [climbs_succ]
  constructor
  · rintro ⟨d, ⟨hne, decl', hclass', m, hm, d', hd', hfold⟩, hclimbs⟩
    rw [hclass] at hclass'
    cases hclass'
    obtain ⟨d'', hmd⟩ := hd c decl hclass m hm
    obtain rfl : d'' = d' := Option.some.inj (hmd.classOf?.symm.trans hd')
    exact ⟨m, hm, d'', hmd, fun h => hne (h.symm.trans hfold), hclimbs.congr hfold⟩
  · rintro ⟨m, hm, d, hmd, hne, hclimbs⟩
    exact ⟨d, ⟨hne.symm, decl, hclass, m, hm, d, hmd.classOf?, rfl⟩, hclimbs⟩

namespace ExpandM

/-- What a declared type adds to an expansion: nothing if it is the expanded type, itself alone if
it is of the same class, and else its own expansion. -/
theorem addDeclared_apply {m : TypeId} (hm : t.IsClassType m d) (n : Nat) (result : UnionType) :
    addDeclared n i c false result m (t, b) =
      if m = i then .ok (result, t, b)
      else if d.fold = c.fold then .ok (result.insert m, t, b)
      else expandWithin n m (t, b) >>= fun r => .ok (result.union r.1, r.2) := by
  obtain ⟨e, args, he, htype⟩ := hm.entry
  show addAncestor n i c result m (t, b) = _
  unfold addAncestor
  by_cases hmi : m = i
  · rw [if_pos hmi, if_pos hmi]
    rfl
  · rw [if_neg hmi, if_neg hmi, bind_apply, fetch_apply he, htype]
    show (if d.sameClass c then (pure (result.insert m) : ExpandM CodeBase UnionType)
      else do return result.union (← expandWithin n m)) (t, b) = _
    by_cases hdc : d.fold = c.fold
    · rw [if_pos hdc, if_pos (by simpa [QualifiedName.sameClass] using hdc)]
      rfl
    · rw [if_neg hdc, if_neg (by simpa [QualifiedName.sameClass] using hdc)]
      rfl

variable {ms : List TypeId} {result : UnionType}

theorem yields_addDeclared {m : TypeId} (hm : t.IsClassType m d)
    (ih : Yields (expandWithin n m (t, b)) (t, b) (Climbs t b n d) (ReflTransGen (Declares t b) m))
    (hself : i ∈ result.members) (hi : t.IsClassType i c) :
    Yields (addDeclared n i c false result m (t, b)) (t, b) (Overruns t b n c m)
      (fun j => j ∈ result.members ∨ Brings t b c m j) := by
  have hclass : ∀ {d' : ClassName}, t.IsClassType m d' → d' = d := fun hd' =>
    Option.some.inj (hd'.classOf?.symm.trans hm.classOf?)
  rw [addDeclared_apply hm]
  by_cases hdc : d.fold = c.fold
  · -- a type of the class itself brings only itself
    have hshort : ¬ Overruns t b n c m := fun ⟨d', hd', hne, _⟩ => hne (hclass hd' ▸ hdc)
    have hbrings : ∀ j, Brings t b c m j ↔ j = m := fun j =>
      or_iff_left fun ⟨d', hd', hne, _⟩ => hne (hclass hd' ▸ hdc)
    simp only [hbrings, if_pos hdc]
    split
    · next hmi =>
      refine .inr ⟨hshort, result, rfl, fun j => (or_iff_left_of_imp ?_).symm⟩
      rintro rfl
      exact hmi ▸ hself
    · exact .inr ⟨hshort, result.insert m, rfl, fun j => UnionType.mem_insert⟩
  · have hmi : m ≠ i := by
      rintro rfl
      exact hdc (congrArg QualifiedName.fold (hclass hi).symm)
    rw [if_neg hmi, if_neg hdc]
    have hstep : Yields (expandWithin n m (t, b) >>= fun r => .ok (result.union r.1, r.2)) (t, b)
        (Climbs t b n d ∨ False) fun j => j ∈ result.members ∨ ReflTransGen (Declares t b) m j :=
      ih.bind fun u hu =>
        .inr ⟨not_false, result.union u, rfl, fun j => by rw [UnionType.mem_union, hu]⟩
    refine hstep.congr ?_ fun j => or_congr Iff.rfl ?_
    · rw [or_false]
      constructor
      · exact fun h => ⟨d, hm, hdc, h⟩
      · rintro ⟨d', hd', -, h⟩
        exact hclass hd' ▸ h
    · constructor
      · exact fun h => .inr ⟨d, hm, hdc, h⟩
      · rintro (rfl | ⟨d', -, -, h⟩)
        · exact .refl
        · exact h

/-- The declared types of a class, one after the other. -/
theorem yields_foldlM_addDeclared (hi : t.IsClassType i c) (hms : ∀ m ∈ ms, ∃ d, t.IsClassType m d)
    (ih : ∀ {m : TypeId} {d : ClassName}, t.IsClassType m d →
      Yields (expandWithin n m (t, b)) (t, b) (Climbs t b n d) (ReflTransGen (Declares t b) m))
    (hself : i ∈ result.members) :
    Yields (ms.foldlM (addDeclared n i c false) result (t, b)) (t, b)
      (∃ m ∈ ms, Overruns t b n c m)
      (fun j => j ∈ result.members ∨ ∃ m ∈ ms, Brings t b c m j) := by
  induction ms generalizing result with
  | nil => exact .inr ⟨by simp, result, rfl, by simp⟩
  | cons m ms ihms =>
    obtain ⟨⟨d, hmd⟩, hms⟩ := List.forall_mem_cons.1 hms
    rw [List.foldlM_cons, bind_apply]
    refine ((yields_addDeclared hmd (ih hmd) hself hi).bind fun u hu =>
      (ihms hms ((hu i).2 (.inl hself))).congr Iff.rfl fun j => ?_).congr ?_ fun _ => Iff.rfl
    · rw [hu, List.exists_mem_cons_iff, or_assoc]
    · rw [List.exists_mem_cons_iff]

/-- Expanding a type of a class with some levels left is refused exactly when a walk of that many
edges starts at the class, and finds what can be reached. -/
theorem yields_expandWithin (hb : b.SelfContained) (hd : DeclaresClasses t b) (n : Nat) :
    ∀ {i : TypeId} {c : ClassName}, t.IsClassType i c →
      Yields (expandWithin n i (t, b)) (t, b) (Climbs t b n c) (ReflTransGen (Declares t b) i) := by
  induction n with
  | zero =>
    intro i c hi
    obtain ⟨e, args, he, -⟩ := hi.entry
    refine .inl ⟨climbs_zero t b c, t.key i, ?_⟩
    rw [expandWithin, bind_apply, query, types_apply, TypeM.query, TypeTable.typeKey,
      if_pos (TypeTable.lt_size_of_entry he)]
    rfl
  | succ n ih =>
    intro i c hi
    obtain ⟨e, args, he, htype⟩ := hi.entry
    have hkind : e.type.kind = .object c args := by rw [htype]
    rw [expandWithin_object he hkind, hb.declaredType]
    cases hclass : b.class? c with
    | none =>
      -- an unknown class: no edge leaves it
      refine .inr ⟨?_, .of i, rfl, fun j => ?_⟩
      · rw [climbs_succ]
        rintro ⟨d, ⟨-, decl, hdecl, -⟩, -⟩
        rw [hclass] at hdecl
        cases hdecl
      · rw [UnionType.mem_of, reach_iff_of_unknown hi hclass]
    | some decl =>
      show Yields (decl.type.members.foldlM (addDeclared n i c e.type.nullable) (.of i) (t, b)) _ _ _
      rw [htype]
      refine (yields_foldlM_addDeclared hi (hd c decl hclass) ih (UnionType.mem_of.2 rfl)).congr
        (climbs_succ_iff hd hclass).symm fun j => ?_
      rw [UnionType.mem_of, reach_iff hd hi hclass]

end ExpandM

/-! ### Classes and their types -/

theorem transGen_congr_left {c' : ClassName} (h : TransGen (Derives t b) c d)
    (hc : c'.fold = c.fold) : TransGen (Derives t b) c' d := by
  obtain ⟨e, hedge, hrest⟩ := TransGen.head'_iff.1 h
  exact TransGen.head' (hedge.congr_left hc) hrest

/-- The class of a type that can be reached is the class one starts from, or can be reached from it.
-/
theorem derives_of_reach (hd : DeclaresClasses t b) (h : ReflTransGen (Declares t b) i j)
    (hj : t.IsClassType j d) :
    ∀ {c : ClassName}, t.IsClassType i c → c.fold = d.fold ∨ TransGen (Derives t b) c d := by
  induction h using ReflTransGen.head_induction_on with
  | refl =>
    intro c hc
    exact .inl (congrArg QualifiedName.fold (Option.some.inj (hc.classOf?.symm.trans hj.classOf?)))
  | @head i m hstep hrest ih =>
    intro c hc
    obtain ⟨c', decl, hc', hclass, hm⟩ := hstep
    obtain rfl : c' = c := Option.some.inj (hc'.symm.trans hc.classOf?)
    obtain ⟨e, he⟩ := hd c' decl hclass m hm
    by_cases hsame : c'.fold = e.fold
    · rcases ih he with hfold | hreach
      · exact .inl (hsame.trans hfold)
      · exact .inr (transGen_congr_left hreach hsame)
    · have hedge : Derives t b c' e := ⟨hsame, decl, hclass, m, hm, e, he.classOf?, rfl⟩
      rcases ih he with hfold | hreach
      · exact .inr (.single (hedge.congr_right hfold))
      · exact .inr (.head hedge hreach)

/-- Of every class that can be reached some type can be reached. -/
theorem reach_of_derives (hd : DeclaresClasses t b) (hi : t.IsClassType i c)
    (h : ReflTransGen (Derives t b) c d) :
    ∃ j d', ReflTransGen (Declares t b) i j ∧ t.IsClassType j d' ∧ d'.fold = d.fold := by
  induction h with
  | refl => exact ⟨i, c, .refl, hi, rfl⟩
  | tail _ hedge ih =>
    obtain ⟨j, e, hreach, hj, hfold⟩ := ih
    obtain ⟨-, decl, hclass, m, hm, d', hd', hfold'⟩ := hedge.congr_left hfold
    obtain ⟨d'', hmd⟩ := hd e decl hclass m hm
    obtain rfl : d'' = d' := Option.some.inj (hmd.classOf?.symm.trans hd')
    exact ⟨m, d'', hreach.tail ⟨e, decl, hj.classOf?, hclass, hm⟩, hmd, hfold'⟩

/-- What can be reached is of classes that can be named. -/
theorem isClassType_of_reach (hd : DeclaresClasses t b) (hi : t.IsClassType i c)
    (h : ReflTransGen (Declares t b) i j) : ∃ d, t.IsClassType j d := by
  rcases h.cases_tail with rfl | ⟨k, -, c', decl, -, hclass, hj⟩
  · exact ⟨c, hi⟩
  · exact hd c' decl hclass j hj

theorem DeclaresClasses.extends (hd : DeclaresClasses t b) (hext : t.Extends t') :
    DeclaresClasses t' b := by
  intro c decl hclass m hm
  obtain ⟨d, hmd⟩ := hd c decl hclass m hm
  exact ⟨d, hmd.extends hext⟩

/-- More types make no more edges. -/
theorem derives_extends (hd : DeclaresClasses t b) (hext : t.Extends t') :
    Derives t' b = Derives t b := by
  funext c d
  refine propext (and_congr_right fun _ => exists_congr fun decl => and_congr_right fun hclass =>
    exists_congr fun m => and_congr_right fun hm => exists_congr fun d' => ?_)
  obtain ⟨e, he⟩ := hd c decl hclass m hm
  rw [he.classOf?, (he.extends hext).classOf?]

theorem climbs_extends (hd : DeclaresClasses t b) (hext : t.Extends t') :
    Climbs t' b = Climbs t b := by
  unfold Climbs
  rw [derives_extends hd hext]

/-! ### The question for a subclass -/

/-- The type of a class is found or made, under the name of the class in any letter case. -/
theorem TypeTable.Canonical.classType_spec (ht : t.Canonical) (hnames : t.NamesDivided)
    (hc : c.WellFormed) (hcd : c.Divided) :
    ∃ i t₁ c', TypeM.classType c t = .ok (i, t₁) ∧ t₁.Canonical ∧ t.Extends t₁ ∧
      t₁.cache = t.cache ∧ t₁.NamesDivided ∧ t₁.IsClassType i c' ∧ c'.fold = c.fold := by
  have hback := hc.readsBack
  rw [show QualifiedName.ofFullName c.text = c from hcd] at hback
  have hrequest : TypeM.classType c t = TypeM.intern (.object c []) false t :=
    congrFun (TypeParser.make_readsBack hback []) t
  have hnamed : (TypeKind.object c []).WellNamed := hc
  have hdivided : (TypeKind.object c []).Divided := hcd
  obtain ⟨i, t₁, hrun, hgrows, hfinds⟩ :=
    TypeM.intern_spec ht false hnamed hdivided (by simp [TypeKind.embedded])
  have hw : t₁.Writable ⟨.object c [], false⟩ := ⟨by simp [TypeKind.embedded], nofun, hc⟩
  obtain ⟨e, he, hidentity⟩ := hgrows.canonical.identity_of_finds hw hfinds
  rw [hgrows.canonical.identity_eq_iff (hgrows.canonical.writable he) hw] at hidentity
  have hnames₁ : t₁.NamesDivided := by
    intro j e' he'
    rcases hgrows.only j e' he' with hold | hnew
    · exact hnames j e' hold
    · exact hnew
  -- what is found there is a class type without arguments, named alike
  obtain ⟨⟨kind, nullable⟩, key⟩ := e
  obtain ⟨rfl, halike⟩ := hidentity
  cases kind with
  | object c' args =>
    obtain ⟨hfolded, hargs⟩ := halike
    refine ⟨i, t₁, c', hrequest.trans hrun, hgrows.canonical, hgrows.keeps,
      TypeM.cache_of_intern hrun, hnames₁, ⟨args, TypeTable.get?_eq he⟩, ?_⟩
    exact QualifiedName.fold_eq_of_foldedText_eq (hnames₁ i _ he) hcd hfolded
  | _ => exact halike.elim

/-- With or without memory, the same types are found, and nothing else in the table changes. -/
theorem yields_expandType {refused : Prop} {found : TypeId → Prop}
    (h : CacheFresh (t, b)) (hb : b.SelfContained)
    (hy : Yields (expandWithin maxExpansionDepth i (t, b)) (t, b) refused found) :
    (refused ∧ ∃ key, expandType i (t, b) = .error (.expansionTooDeep key maxExpansionDepth)) ∨
      (¬ refused ∧ ∃ u cache, expandType i (t, b) = .ok (u, t.withCache cache, b) ∧
        ∀ j, j ∈ u.members ↔ found j) := by
  obtain ⟨cache, hanew⟩ := expandType_eq_anew h hb i
  rw [hanew]
  rcases hy with ⟨hrefused, key, hrun⟩ | ⟨hnot, u, hrun, hu⟩
  · rw [hrun]
    exact .inl ⟨hrefused, key, rfl⟩
  · rw [hrun]
    exact .inr ⟨hnot, u, cache, rfl, hu⟩

namespace CodeBase

variable {child ancestor : ClassName}

/-- A class that differs from another one and is registered is refused when a walk of as many edges
as there are levels starts at it, and else is a subclass exactly when it reaches the other one;
asking makes no types but those of divided names. -/
theorem isSubclassOf_cases (h : CacheFresh (t, b)) (hb : b.SelfContained)
    (hd : DeclaresClasses t b) (hnames : t.NamesDivided) (hc : child.WellFormed)
    (hcd : child.Divided) (hne : child.fold ≠ ancestor.fold)
    (hregistered : b.isRegistered child = true) :
    (Climbs t b maxExpansionDepth child ∧ ∃ key, isSubclassOf child ancestor (t, b) =
        .error (.expansionTooDeep key maxExpansionDepth)) ∨
      (¬ Climbs t b maxExpansionDepth child ∧ ∃ r t', isSubclassOf child ancestor (t, b) =
        .ok (r, t', b) ∧ t.Extends t' ∧ t'.NamesDivided ∧
        (r = true ↔ ReflTransGen (Derives t b) child ancestor)) := by
  obtain ⟨i, t₁, c, hrun, ht₁, hext, hcache, hnames₁, hi, hfold⟩ :=
    h.canonical.classType_spec hnames hc hcd
  have hd₁ := hd.extends hext
  have hfresh : CacheFresh (t₁, b) := h.step ht₁ hext hcache (Loads.refl hb.loadable).moves
  have hy := yields_expandType hfresh hb (ExpandM.yields_expandWithin hb hd₁ maxExpansionDepth hi)
  rw [isSubclassOf_apply hb, if_neg (by simp [hne, hregistered]), hrun]
  show (_ ∧ ∃ key, (UnionType.of i).hasAncestor ancestor (t₁, b) = _) ∨
    (_ ∧ ∃ r t', (UnionType.of i).hasAncestor ancestor (t₁, b) = _ ∧ _)
  have hclimbs : Climbs t₁ b maxExpansionDepth c ↔ Climbs t b maxExpansionDepth child := by
    rw [climbs_extends hd hext]
    exact ⟨fun h => h.congr hfold.symm, fun h => h.congr hfold⟩
  rw [hclimbs] at hy
  rcases hy with ⟨hlong, key, hrefused⟩ | ⟨hshort, u, cache, hok, hu⟩
  · refine .inl ⟨hlong, key, ?_⟩
    rw [ExpandM.hasAncestor_eq, ExpandM.bind_apply, ExpandM.expand_of, hrefused]
    rfl
  · have hclass : ∀ {j : TypeId}, j ∈ u.members → ∃ d, t₁.IsClassType j d := fun hj =>
      isClassType_of_reach hd₁ hi ((hu _).1 hj)
    obtain ⟨r, hrun', hr⟩ := ExpandM.hasAncestor_of hok (fun j hj => by
      obtain ⟨d, hjd⟩ := hclass hj
      obtain ⟨e, -, he, -⟩ := hjd.entry
      exact TypeTable.lt_size_of_entry he) ancestor
    refine .inr ⟨hshort, r, _, hrun', hext.trans (t₁.extends_withCache cache), hnames₁, hr.trans ?_⟩
    rw [← derives_extends hd hext]
    constructor
    · rintro ⟨j, hj, d, hjd, hdfold⟩
      obtain ⟨d', hjd'⟩ := hclass hj
      obtain rfl : d' = d := Option.some.inj (hjd'.classOf?.symm.trans hjd)
      rcases derives_of_reach hd₁ ((hu j).1 hj) hjd' hi with hsame | hreach
      · exact absurd (hfold.symm.trans (hsame.trans hdfold)) hne
      · obtain ⟨e, hrest, hlast⟩ := TransGen.tail'_iff.1 (transGen_congr_left hreach hfold.symm)
        exact hrest.tail (hlast.congr_right hdfold)
    · intro hreach
      rcases hreach.cases_head with rfl | ⟨e, hedge, hrest⟩
      · exact absurd rfl hne
      · obtain ⟨j, d, hj, hjd, hdfold⟩ :=
          reach_of_derives hd₁ hi (.head (hedge.congr_left hfold) hrest)
        exact ⟨j, (hu j).2 hj, d, hjd.classOf?, hdfold⟩

theorem isSubclassOf_eq_false (hb : b.SelfContained)
    (h : child.fold = ancestor.fold ∨ b.isRegistered child = false) :
    isSubclassOf child ancestor (t, b) = .ok (false, t, b) := by
  rw [isSubclassOf_apply hb, if_pos h]

theorem isSubclassOf_refused_iff (h : CacheFresh (t, b)) (hb : b.SelfContained)
    (hd : DeclaresClasses t b) (hnames : t.NamesDivided) (hc : child.WellFormed)
    (hcd : child.Divided) :
    (∃ v, isSubclassOf child ancestor (t, b) = .error v) ↔
      b.isRegistered child = true ∧ child.fold ≠ ancestor.fold ∧
        Climbs t b maxExpansionDepth child := by
  by_cases hasked : b.isRegistered child = true ∧ child.fold ≠ ancestor.fold
  · rcases isSubclassOf_cases h hb hd hnames hc hcd hasked.2 hasked.1 with
      ⟨hlong, key, hrun⟩ | ⟨hshort, r, t', hrun, -⟩
    · exact ⟨fun _ => ⟨hasked.1, hasked.2, hlong⟩, fun _ => ⟨_, hrun⟩⟩
    · refine ⟨?_, fun hclimbs => absurd hclimbs.2.2 hshort⟩
      rintro ⟨v, hv⟩
      rw [hrun] at hv
      cases hv
  · have hfalse : child.fold = ancestor.fold ∨ b.isRegistered child = false := by
      rw [not_and_or, not_not, Bool.not_eq_true] at hasked
      exact hasked.symm
    refine ⟨?_, fun hclimbs => absurd ⟨hclimbs.1, hclimbs.2.1⟩ hasked⟩
    rintro ⟨v, hv⟩
    rw [isSubclassOf_eq_false hb hfalse] at hv
    cases hv

theorem isSubclassOf_iff (h : CacheFresh (t, b)) (hb : b.SelfContained)
    (hd : DeclaresClasses t b) (hnames : t.NamesDivided) (hc : child.WellFormed)
    (hcd : child.Divided) {r : Bool} {s : TypeTable × CodeBase}
    (hrun : isSubclassOf child ancestor (t, b) = .ok (r, s)) :
    r = true ↔ b.isRegistered child = true ∧ child.fold ≠ ancestor.fold ∧
      ReflTransGen (Derives t b) child ancestor := by
  by_cases hasked : b.isRegistered child = true ∧ child.fold ≠ ancestor.fold
  · rcases isSubclassOf_cases h hb hd hnames hc hcd hasked.2 hasked.1 with
      ⟨-, key, hrun'⟩ | ⟨-, r', t', hrun', -, -, hr⟩
    · rw [hrun'] at hrun
      cases hrun
    · rw [hrun'] at hrun
      cases hrun
      rw [hr]
      exact ⟨fun hreach => ⟨hasked.1, hasked.2, hreach⟩, fun hall => hall.2.2⟩
  · have hfalse : child.fold = ancestor.fold ∨ b.isRegistered child = false := by
      rw [not_and_or, not_not, Bool.not_eq_true] at hasked
      exact hasked.symm
    rw [isSubclassOf_eq_false hb hfalse] at hrun
    cases hrun
    exact ⟨fun hr => absurd hr Bool.false_ne_true, fun hall => absurd ⟨hall.1, hall.2.1⟩ hasked⟩

/-- A class that is granted to be a subclass starts no walk that is too long, so it reaches no
cycle. -/
theorem isSubclassOf_trans (h : CacheFresh (t, b)) (hb : b.SelfContained)
    (hd : DeclaresClasses t b) (hnames : t.NamesDivided) {middle : ClassName}
    (hc : child.WellFormed) (hcd : child.Divided) (hm : middle.WellFormed) (hmd : middle.Divided)
    (hfirst : (isSubclassOf child middle (t, b)).map Prod.fst = .ok true)
    (hsecond : (isSubclassOf middle ancestor (t, b)).map Prod.fst = .ok true) :
    (isSubclassOf child ancestor (t, b)).map Prod.fst = .ok true := by
  have hgranted : ∀ {c d : ClassName}, (isSubclassOf c d (t, b)).map Prod.fst = .ok true →
      ∃ s, isSubclassOf c d (t, b) = .ok (true, s) := by
    intro c d hcd
    cases hrun : isSubclassOf c d (t, b) with
    | error v =>
      rw [hrun] at hcd
      cases hcd
    | ok r =>
      rw [hrun] at hcd
      exact ⟨r.2, congrArg Except.ok (Prod.ext (Except.ok.inj hcd) rfl)⟩
  obtain ⟨s₁, hrun₁⟩ := hgranted hfirst
  obtain ⟨s₂, hrun₂⟩ := hgranted hsecond
  obtain ⟨hregistered, hne, hreach₁⟩ := (isSubclassOf_iff h hb hd hnames hc hcd hrun₁).1 rfl
  obtain ⟨-, -, hreach₂⟩ := (isSubclassOf_iff h hb hd hnames hm hmd hrun₂).1 rfl
  have hshort : ¬ Climbs t b maxExpansionDepth child := by
    intro hlong
    have hrefused : ∃ v, isSubclassOf child middle (t, b) = .error v :=
      (isSubclassOf_refused_iff h hb hd hnames hc hcd).2 ⟨hregistered, hne, hlong⟩
    obtain ⟨v, hv⟩ := hrefused
    rw [hrun₁] at hv
    cases hv
  have hdiffer : child.fold ≠ ancestor.fold := by
    intro hsame
    -- else the first edge from the child would lie on a cycle
    rcases hreach₁.cases_head with rfl | ⟨e, hedge, hrest⟩
    · exact hne rfl
    · have hback : ReflTransGen (Derives t b) e ancestor := hrest.trans hreach₂
      have hcycle : TransGen (Derives t b) child ancestor := TransGen.head' hedge hback
      obtain ⟨e', hinit, hlast⟩ := TransGen.tail'_iff.1 hcycle
      exact hshort (climbs_of_cycle (TransGen.tail' hinit (hlast.congr_right hsame.symm)) _ .refl)
  rcases isSubclassOf_cases h hb hd hnames hc hcd hdiffer hregistered with
    ⟨hlong, -⟩ | ⟨-, r, t', hrun, -, -, hr⟩
  · exact absurd hlong hshort
  · rw [hrun, hr.2 (hreach₁.trans hreach₂)]
    rfl

end CodeBase

/-! ### Whole sessions -/

/-- Expansion is reachability. After any requests that announce no class, where classes declare
class types: a type of a class is refused exactly when a walk of as many edges as there are levels
starts at the class, as on every cycle, and else expands to the types that can be reached from it,
which are those of the class and of the classes that can be reached. Being a subclass is then being
registered, different and reaching, never holds of a class and itself, and is transitive. -/
theorem expansion_eq_reachability {nullCasts hydrateLazily : Bool} {requests : List Request}
    (himmediate : ∀ r ∈ requests, r.Immediate) (hnamed : ∀ r ∈ requests, r.WellNamed)
    (hrun : requests.forM Request.run (.initial nullCasts, .create hydrateLazily) = .ok ((), t, b))
    (hdeclares : DeclaresClasses t b) (hdivided : t.NamesDivided) :
    (∀ (i : TypeId) (c : ClassName), t.IsClassType i c →
      ((∃ v, expandWithin maxExpansionDepth i (t, b) = .error v) ↔
        Climbs t b maxExpansionDepth c) ∧
      (∀ d : ClassName, ReflTransGen (Derives t b) c d → TransGen (Derives t b) d d →
        ∃ v, expandWithin maxExpansionDepth i (t, b) = .error v) ∧
      ∀ (u : UnionType) (s : TypeTable × CodeBase),
        expandWithin maxExpansionDepth i (t, b) = .ok (u, s) →
        (∀ j, j ∈ u.members ↔ ReflTransGen (Declares t b) i j) ∧
        ∀ d : ClassName, (∃ j ∈ u.members, ∃ d', t.IsClassType j d' ∧ d'.fold = d.fold) ↔
          c.fold = d.fold ∨ ReflTransGen (Derives t b) c d) ∧
    (∀ child ancestor : ClassName, child.WellFormed → child.Divided →
      ((∃ v, CodeBase.isSubclassOf child ancestor (t, b) = .error v) ↔
        b.isRegistered child = true ∧ child.fold ≠ ancestor.fold ∧
          Climbs t b maxExpansionDepth child) ∧
      ∀ (r : Bool) (s : TypeTable × CodeBase),
        CodeBase.isSubclassOf child ancestor (t, b) = .ok (r, s) →
        (r = true ↔ b.isRegistered child = true ∧ child.fold ≠ ancestor.fold ∧
          ReflTransGen (Derives t b) child ancestor)) ∧
    (∀ c : ClassName, (CodeBase.isSubclassOf c c (t, b)).map Prod.fst = .ok false) ∧
    ∀ child middle ancestor : ClassName, child.WellFormed → child.Divided → middle.WellFormed →
      middle.Divided → (CodeBase.isSubclassOf child middle (t, b)).map Prod.fst = .ok true →
      (CodeBase.isSubclassOf middle ancestor (t, b)).map Prod.fst = .ok true →
      (CodeBase.isSubclassOf child ancestor (t, b)).map Prod.fst = .ok true := by
  have hfresh : CacheFresh (t, b) :=
    keepsFresh_session (fun r hr => ⟨(himmediate r hr).honest, hnamed r hr⟩) _ _ ()
      (cacheFresh_start nullCasts hydrateLazily) hrun
  have hb : b.SelfContained := by
    have hstart := (CodeBase.fresh_create hydrateLazily).selfContained
    rw [Request.base_eq_foldl_effect himmediate hstart hrun]
    exact Request.selfContained_foldl_effect requests hstart
  refine ⟨fun i c hi => ?_, fun child ancestor hc hcd => ?_, fun c => ?_, ?_⟩
  · rcases ExpandM.yields_expandWithin hb hdeclares maxExpansionDepth hi with
      ⟨hlong, key, hrefused⟩ | ⟨hshort, u, hok, hu⟩
    · refine ⟨⟨fun _ => hlong, fun _ => ⟨_, hrefused⟩⟩, fun _ _ _ => ⟨_, hrefused⟩, ?_⟩
      intro u s hok
      rw [hrefused] at hok
      cases hok
    · refine ⟨⟨?_, fun hlong => absurd hlong hshort⟩, fun d hreach hcycle => ?_, ?_⟩
      · rintro ⟨v, hv⟩
        rw [hok] at hv
        cases hv
      · exact absurd (climbs_of_cycle hcycle maxExpansionDepth hreach) hshort
      · intro u' s hok'
        rw [hok] at hok'
        cases hok'
        refine ⟨hu, fun d => ⟨?_, ?_⟩⟩
        · rintro ⟨j, hj, d', hjd, hfold⟩
          rcases derives_of_reach hdeclares ((hu j).1 hj) hjd hi with hsame | hreach
          · exact .inl (hsame.trans hfold)
          · obtain ⟨e, hrest, hlast⟩ := TransGen.tail'_iff.1 hreach
            exact .inr (hrest.tail (hlast.congr_right hfold))
        · rintro (hsame | hreach)
          · exact ⟨i, (hu i).2 .refl, c, hi, hsame⟩
          · obtain ⟨j, d', hj, hjd, hfold⟩ := reach_of_derives hdeclares hi hreach
            exact ⟨j, (hu j).2 hj, d', hjd, hfold⟩
  · exact ⟨CodeBase.isSubclassOf_refused_iff hfresh hb hdeclares hdivided hc hcd,
      fun r s => CodeBase.isSubclassOf_iff hfresh hb hdeclares hdivided hc hcd⟩
  · rw [CodeBase.isSubclassOf_eq_false hb (.inl rfl)]
    rfl
  · exact fun child middle ancestor hc hcd hm hmd =>
      CodeBase.isSubclassOf_trans hfresh hb hdeclares hdivided hc hcd hm hmd

/-! ### A class with a parent that is not known -/

/-- A class with a parent, whose types stand at the first two places after the built-in ones. -/
def orphan : ClassDecl where
  name := .make "\\" "Orphan"
  parent := some (.make "\\" "Missing")
  type := .ofList [31, 32]

/-- The class is registered and its parent is not. -/
def orphanRequests : List Request :=
  [.type (.classType (.make "\\" "Orphan") []), .type (.classType (.make "\\" "Missing") []),
    .register (.classDecl orphan)]

theorem class?_orphan (c : ClassName) :
    (CodeBase.registered true [.classDecl orphan]).class? c =
      if orphan.name.fold = c.fold then some orphan else none := by
  rw [← CodeBase.class?_create true c]
  exact CodeBase.class?_addClass OrderedTable.valid_empty _ c

/-- The types that are asked for, from place 31 on. -/
def orphanRows : List TypeEntry :=
  [⟨⟨.object (.make "\\" "Orphan") [], false⟩, "\\Orphan"⟩,
    ⟨⟨.object (.make "\\" "Missing") [], false⟩, "\\Missing"⟩]

theorem run_orphanRequests :
    ∃ t names, orphanRequests.forM Request.run (.initial false, .create true) =
        .ok ((), t, .registered true [.classDecl orphan]) ∧ t.Lists orphanRows names := by
  have hl := TypeTable.lists_initial false
  generalize TypeTable.initial false = t₀ at hl ⊢
  obtain ⟨t₁, h₁, l₁, -⟩ := hl.intern_new (TypeTable.writes_object _ (.make "\\" "Orphan") false)
    (by decide) rfl
  obtain ⟨t₂, h₂, l₂, -⟩ := l₁.intern_new (TypeTable.writes_object _ (.make "\\" "Missing") false)
    (by decide) rfl
  refine ⟨t₂, _, ?_, l₂⟩
  refine ExpandM.bind_eq_ok.2 ⟨(), (t₁, .create true), Request.run_type h₁, ?_⟩
  exact ExpandM.bind_eq_ok.2 ⟨(), (t₂, .create true), Request.run_type h₂, rfl⟩

/-- The class derives from its parent, and no other edge is there. -/
theorem derives_orphan (h31 : t.classOf? 31 = some (.make "\\" "Orphan"))
    (h32 : t.classOf? 32 = some (.make "\\" "Missing")) :
    Derives t (.registered true [.classDecl orphan]) c d ↔
      c.fold = orphan.name.fold ∧ d.fold = (QualifiedName.make "\\" "Missing").fold := by
  constructor
  · rintro ⟨hne, decl, hclass, i, hi, d', hd', hfold⟩
    rw [class?_orphan] at hclass
    split at hclass
    · next hc =>
      cases hclass
      have hi' : i = 31 ∨ i = 32 := by simpa [orphan] using hi
      rcases hi' with rfl | rfl
      · rw [h31] at hd'
        cases hd'
        exact absurd (hc.symm.trans hfold) hne
      · rw [h32] at hd'
        cases hd'
        exact ⟨hc.symm, hfold.symm⟩
    · cases hclass
  · rintro ⟨hc, hd⟩
    refine ⟨?_, orphan, ?_, 32, by simp [orphan], _, h32, hd.symm⟩
    · rw [hc, hd]
      decide
    · rw [class?_orphan, if_pos hc.symm]

theorem not_climbs_orphan (h31 : t.classOf? 31 = some (.make "\\" "Orphan"))
    (h32 : t.classOf? 32 = some (.make "\\" "Missing")) (n : Nat) :
    ¬ Climbs t (.registered true [.classDecl orphan]) (n + 2) c := by
  intro h
  obtain ⟨d, hfirst, h⟩ := climbs_succ.1 h
  obtain ⟨e, hsecond, -⟩ := climbs_succ.1 h
  have hd := ((derives_orphan h31 h32).1 hfirst).2
  rw [((derives_orphan h31 h32).1 hsecond).1] at hd
  exact absurd hd (by decide)

/-- The class is a subclass of the parent that is not known. -/
theorem expansion_eq_reachability_orphan :
    ∃ (t : TypeTable) (b : CodeBase) (s : TypeTable × CodeBase),
      orphanRequests.forM Request.run (.initial false, .create true) = .ok ((), t, b) ∧
      DeclaresClasses t b ∧ t.NamesDivided ∧
      CodeBase.isSubclassOf (.make "\\" "Orphan") (.make "\\" "Missing") (t, b) = .ok (true, s) := by
  obtain ⟨t, names, hrun, hlists⟩ := run_orphanRequests
  have h31 : t.IsClassType 31 (.make "\\" "Orphan") :=
    ⟨[], TypeTable.get?_eq (hlists.entry (i := 31) (e := orphanRows[0]) rfl)⟩
  have h32 : t.IsClassType 32 (.make "\\" "Missing") :=
    ⟨[], TypeTable.get?_eq (hlists.entry (i := 32) (e := orphanRows[1]) rfl)⟩
  have hdeclares : DeclaresClasses t (.registered true [.classDecl orphan]) := by
    intro c decl hclass i hi
    rw [class?_orphan] at hclass
    split at hclass
    · cases hclass
      have hi' : i = 31 ∨ i = 32 := by simpa [orphan] using hi
      rcases hi' with rfl | rfl
      · exact ⟨_, h31⟩
      · exact ⟨_, h32⟩
    · cases hclass
  have hdivided : t.NamesDivided := by
    refine hlists.namesDivided fun e he => ?_
    simp only [orphanRows, List.mem_cons, List.not_mem_nil, or_false] at he
    rcases he with rfl | rfl
    · show QualifiedName.ofFullName (QualifiedName.make "\\" "Orphan").text = _
      decide
    · show QualifiedName.ofFullName (QualifiedName.make "\\" "Missing").text = _
      decide
  have horphan : (QualifiedName.make "\\" "Orphan").WellFormed :=
    ⟨["Orphan".toList], by decide, by decide, by decide⟩
  have hmissing : (QualifiedName.make "\\" "Missing").WellFormed :=
    ⟨["Missing".toList], by decide, by decide, by decide⟩
  have himmediate : ∀ r ∈ orphanRequests, r.Immediate := by
    simp [orphanRequests, Request.Immediate]
  have hnamed : ∀ r ∈ orphanRequests, r.WellNamed := by
    refine List.forall_mem_cons.2 ⟨?_, List.forall_mem_cons.2 ⟨?_, ?_⟩⟩
    · rintro kind ⟨⟩
      exact horphan
    · rintro kind ⟨⟩
      exact hmissing
    · simp [Request.WellNamed]
  obtain ⟨-, hsubclass, -⟩ :=
    expansion_eq_reachability himmediate hnamed hrun hdeclares hdivided
  obtain ⟨hrefused, hgranted⟩ := hsubclass (.make "\\" "Orphan") (.make "\\" "Missing") horphan
    (by unfold QualifiedName.Divided; decide)
  cases hask : CodeBase.isSubclassOf (.make "\\" "Orphan") (.make "\\" "Missing")
      (t, .registered true [.classDecl orphan]) with
  | error v =>
    obtain ⟨-, -, hlong⟩ := hrefused.1 ⟨v, hask⟩
    exact absurd hlong (not_climbs_orphan h31.classOf? h32.classOf? 18)
  | ok r =>
    have hr : r.1 = true := by
      refine (hgranted r.1 r.2 hask).2 ⟨?_, by decide, ?_⟩
      · rw [(CodeBase.fresh_registered true _).isRegistered_eq, class?_orphan]
        rfl
      · exact .single ((derives_orphan h31.classOf? h32.classOf?).2 ⟨rfl, rfl⟩)
    exact ⟨t, _, r.2, hrun, hdeclares, hdivided, by rw [hask, ← hr]⟩

/-! ### A class that passes for an array

The type of a class named `\a[]` is written like the arrays of `\a`. When these are there first, they
are found in its place, and are no type of a class at all. And a class may be given further types
that are of no class; these are found when it is expanded. -/

/-- A class that is written like an array. -/
def disguised : ClassDecl where
  name := .make "\\" "a[]"
  parent := some (.make "\\" "p")
  type := .ofList [32, 33]

/-- Its parent, with the integers as a further type. -/
def numeric : ClassDecl where
  name := .make "\\" "p"
  type := .ofList [33, NativeKind.int.id]

/-- The arrays are asked for before the class. -/
def disguiseRequests : List Request :=
  [.type (.classType (.make "\\" "a") []), .type (.array .mixed 31 false),
    .type (.classType (.make "\\" "a[]") []), .type (.classType (.make "\\" "p") []),
    .register (.classDecl disguised), .register (.classDecl numeric)]

/-- The code base with both classes. -/
def disguiseBase : CodeBase := .registered true [.classDecl disguised, .classDecl numeric]

/-- The types that are asked for, from place 31 on. -/
def disguiseRows : List TypeEntry :=
  [⟨⟨.object (.make "\\" "a") [], false⟩, "\\a"⟩, ⟨⟨.array .mixed 31, false⟩, "\\a[]"⟩,
    ⟨⟨.object (.make "\\" "p") [], false⟩, "\\p"⟩]

/-- Where they are found. -/
def disguiseNames : List (String × TypeId) :=
  [("\\p", 33), ("\\p", 33), ("\\a[]", 32), ("\\a[]", 32), ("\\a", 31), ("\\a", 31)]

theorem class?_disguiseBase (c : ClassName) :
    disguiseBase.class? c = if numeric.name.fold = c.fold then some numeric
      else if disguised.name.fold = c.fold then some disguised else none := by
  have hfirst : (CodeBase.registered true [.classDecl disguised]).class? c =
      if disguised.name.fold = c.fold then some disguised else none := by
    rw [← CodeBase.class?_create true c]
    exact CodeBase.class?_addClass OrderedTable.valid_empty _ c
  rw [← hfirst]
  exact CodeBase.class?_addClass
    (CodeBase.fresh_registered true [.classDecl disguised]).classes numeric c

theorem run_disguiseRequests :
    ∃ t, disguiseRequests.forM Request.run (.initial false, .create true) =
        .ok ((), t, disguiseBase) ∧ t.Lists disguiseRows disguiseNames ∧ t.cache = {} := by
  have hl := TypeTable.lists_initial false
  have hc := TypeTable.cache_initial false
  generalize TypeTable.initial false = t₀ at hl hc ⊢
  obtain ⟨t₁, h₁, l₁, c₁⟩ := hl.intern_new (TypeTable.writes_object _ (.make "\\" "a") false)
    (by decide) rfl
  obtain ⟨t₂, h₂, l₂, c₂⟩ := l₁.intern_new (l₁.writes_array 31 rfl false) (by decide) rfl
  have h₃ : TypeM.intern (.object (.make "\\" "a[]") []) false t₂ = .ok (32, t₂) :=
    l₂.intern_found (TypeTable.writes_object t₂ (.make "\\" "a[]") false) (by decide) rfl
  obtain ⟨t₄, h₄, l₄, c₄⟩ := l₂.intern_new (TypeTable.writes_object _ (.make "\\" "p") false)
    (by decide) rfl
  refine ⟨t₄, ?_, l₄, by rw [c₄, c₂, c₁, hc]⟩
  refine ExpandM.bind_eq_ok.2 ⟨(), (t₁, .create true), Request.run_type h₁, ?_⟩
  refine ExpandM.bind_eq_ok.2 ⟨(), (t₂, .create true), Request.run_type h₂, ?_⟩
  refine ExpandM.bind_eq_ok.2 ⟨(), (t₂, .create true), Request.run_type h₃, ?_⟩
  exact ExpandM.bind_eq_ok.2 ⟨(), (t₄, .create true), Request.run_type h₄, rfl⟩

/-- The arrays expand to themselves, since their elements are of an unknown class. -/
theorem expandWithin_disguised (h : t.Lists disguiseRows disguiseNames) (n : Nat) :
    expandWithin (n + 2) 32 (t, disguiseBase) = .ok (.of 32, t, disguiseBase) := by
  have hb : disguiseBase.SelfContained := (CodeBase.fresh_registered true _).selfContained
  have helement := h.entry (i := 31) (e := disguiseRows[0]) rfl
  have harray := h.entry (i := 32) (e := disguiseRows[1]) rfl
  rw [ExpandM.expandWithin_array harray rfl helement rfl]
  have hfirst : expandWithin (n + 1) 31 (t, disguiseBase) = .ok (.of 31, t, disguiseBase) := by
    rw [ExpandM.expandWithin_object helement rfl, hb.declaredType, class?_disguiseBase,
      if_neg (by decide), if_neg (by decide)]
    rfl
  have hfound : TypeM.intern (.array .mixed 31) false t = .ok (32, t) :=
    h.intern_found (h.writes_array 31 rfl false) (by decide) rfl
  refine ExpandM.bind_eq_ok.2 ⟨.of 31, _, hfirst, ?_⟩
  refine ExpandM.types_eq_ok.2 ⟨TypeM.bind_eq_ok.2 ⟨[32], t, ?_, rfl⟩, rfl⟩
  exact TypeM.bind_eq_ok.2 ⟨32, t, hfound, rfl⟩

/-- So the class is no subclass of its parent. -/
theorem isSubclassOf_disguised (h : t.Lists disguiseRows disguiseNames) (hcache : t.cache = {}) :
    ∃ s, CodeBase.isSubclassOf (.make "\\" "a[]") (.make "\\" "p") (t, disguiseBase) =
      .ok (false, s) := by
  have hfresh : disguiseBase.Fresh := CodeBase.fresh_registered true _
  have hregistered : disguiseBase.isRegistered (.make "\\" "a[]") = true := by
    rw [hfresh.isRegistered_eq, class?_disguiseBase]
    decide
  have hclass : TypeM.classType (.make "\\" "a[]") t = .ok (32, t) :=
    h.intern_found (TypeTable.writes_object t (.make "\\" "a[]") false) (by decide) rfl
  have hnone : (t.cache.sync disguiseBase.generation).entries[32]? = none := by
    rw [hcache]
    exact Std.HashMap.getElem?_empty
  have hsync : (t.syncCache disguiseBase.generation).Lists disguiseRows disguiseNames :=
    ⟨h.entries, h.byKey⟩
  have hexpand := expandType_of_none hnone (expandWithin_disguised hsync 18)
  set t' := ((t.syncCache disguiseBase.generation).syncCache disguiseBase.generation).remember 32
    (.of 32)
  have hlists : t'.Lists disguiseRows disguiseNames := ⟨h.entries, h.byKey⟩
  rw [CodeBase.isSubclassOf_apply hfresh.selfContained, if_neg (by rw [hregistered]; decide), hclass]
  have harray := hlists.entry (i := 32) (e := disguiseRows[1]) rfl
  obtain ⟨r, hanswer, hr⟩ := ExpandM.hasAncestor_of hexpand (fun j hj => by
    rw [UnionType.mem_of.1 hj]
    exact TypeTable.lt_size_of_entry harray) (.make "\\" "p")
  have hfalse : r = false := by
    rw [← Bool.not_eq_true, hr]
    -- the one type that is found is an array
    rintro ⟨j, hj, d, hd, -⟩
    rw [UnionType.mem_of.1 hj, TypeTable.classOf?, TypeTable.get?_eq harray] at hd
    cases hd
  exact ⟨_, hfalse ▸ hanswer⟩

/-- Its parent expands to itself and the integers. -/
theorem expandWithin_numeric (h : t.Lists disguiseRows disguiseNames) (n : Nat) :
    expandWithin (n + 2) 33 (t, disguiseBase) =
      .ok ((UnionType.of 33).union (.of NativeKind.int.id), t, disguiseBase) := by
  have hb : disguiseBase.SelfContained := (CodeBase.fresh_registered true _).selfContained
  have hclass := h.entry (i := 33) (e := disguiseRows[2]) rfl
  have hint := h.entry (i := NativeKind.int.id) (e := TypeTable.nativeEntry (.int, false)) rfl
  rw [ExpandM.expandWithin_object hclass rfl, hb.declaredType, class?_disguiseBase,
    if_pos (by decide)]
  refine ExpandM.bind_eq_ok.2 ⟨.of 33, (t, disguiseBase), rfl, ?_⟩
  refine ExpandM.bind_eq_ok.2 ⟨(UnionType.of 33).union (.of NativeKind.int.id), _, ?_, rfl⟩
  refine ExpandM.bind_eq_ok.2 ⟨NativeKind.int.id, (t, disguiseBase), rfl, ?_⟩
  refine ExpandM.bind_eq_ok.2 ⟨_, _, ExpandM.fetch_apply hint _, ?_⟩
  refine ExpandM.bind_eq_ok.2 ⟨.of NativeKind.int.id, _, ?_, rfl⟩
  rw [expandWithin, ExpandM.bind_apply, ExpandM.fetch_apply hint]
  rfl

/-- Where names do not tell types apart, a registered class that reaches another one need not be its
subclass; and where a class declares more than class types, what it expands to is not of classes
alone. -/
theorem expansion_ne_reachability_disguise :
    ∃ (t : TypeTable) (b : CodeBase) (s : TypeTable × CodeBase) (u : UnionType),
      (∀ r ∈ disguiseRequests, r.Immediate) ∧
      disguiseRequests.forM Request.run (.initial false, .create true) = .ok ((), t, b) ∧
      b.isRegistered (.make "\\" "a[]") = true ∧
      Derives t b (.make "\\" "a[]") (.make "\\" "p") ∧
      CodeBase.isSubclassOf (.make "\\" "a[]") (.make "\\" "p") (t, b) = .ok (false, s) ∧
      t.IsClassType 33 (.make "\\" "p") ∧
      expandWithin maxExpansionDepth 33 (t, b) = .ok (u, t, b) ∧
      NativeKind.int.id ∈ u.members ∧ t.classOf? NativeKind.int.id = none := by
  obtain ⟨t, hrun, hlists, hcache⟩ := run_disguiseRequests
  have hfresh : disguiseBase.Fresh := CodeBase.fresh_registered true _
  obtain ⟨s, hask⟩ := isSubclassOf_disguised hlists hcache
  have hparent : t.IsClassType 33 (.make "\\" "p") :=
    ⟨[], TypeTable.get?_eq (hlists.entry (i := 33) (e := disguiseRows[2]) rfl)⟩
  have hint : t.get? NativeKind.int.id = some ⟨.native .int, false⟩ :=
    TypeTable.get?_eq (hlists.entry (e := TypeTable.nativeEntry (.int, false)) rfl)
  refine ⟨t, disguiseBase, s, _, ?_, hrun, ?_, ?_, hask, hparent, expandWithin_numeric hlists 18,
    by decide, ?_⟩
  · simp [disguiseRequests, Request.Immediate]
  · rw [hfresh.isRegistered_eq, class?_disguiseBase]
    decide
  · refine ⟨by decide, disguised, ?_, 33, by decide, _, hparent.classOf?, rfl⟩
    rw [class?_disguiseBase, if_neg (by decide), if_pos (by decide)]
  · rw [TypeTable.classOf?, hint]
    rfl

end

end UnionInference
