import UnionInference.Proofs.CodeBase.ExpansionCache
import UnionInference.Proofs.CodeBase.Sound

/-!
Expansion on sound tables and code bases. What a class declares, registered or announced, gives the
edges of the hierarchy; expanding a type is refused only where a walk of as many edges as there are
levels starts at it. Where no walk is that long, every question for an ancestor is answered,
from the expansions that are remembered or anew, and classes may be loaded on the way.
-/

namespace UnionInference

/-- Some walk of the given number of edges starts at the type; an edge leads from a class to each type
that it declares, itself apart. -/
def Ascends (t : TypeTable) (declared : ClassName → Option UnionType) : Nat → Ty → Prop
  | 0, _ => True
  | n + 1, ty => ∃ c, ty.className? = some c ∧ ∃ u, declared c = some u ∧
      ∃ i ∈ u.members, ∃ other, t.get? i = some other ∧
        (∀ d, other.className? = some d → d.sameClass c = false) ∧ Ascends t declared n other

variable {r : Regime} {t t₀ t₁ : TypeTable} {b b₀ b₁ : CodeBase} {i : TypeId}

namespace CodeBase

theorem Sound.declared? (h : b.Sound r t) {c : ClassName} {u : UnionType}
    (hu : b.declared? c = some u) : u.Inside t ∧ (r.deep ∨ ∀ i ∈ u.members, t.IsBare i) := by
  obtain ⟨d, hd, rfl⟩ := Option.map_eq_some_iff.1 hu
  rcases Option.or_eq_some_iff.1 hd with hd | ⟨-, hd⟩
  · exact ⟨(h.classes c d hd).type, (h.classes c d hd).bare⟩
  · obtain ⟨p, hp, rfl⟩ := Option.map_eq_some_iff.1 hd
    exact ⟨(h.pending _ p hp).decl.type, (h.pending _ p hp).decl.bare⟩

end CodeBase

/-- A larger table shows no other walks. -/
theorem Ascends.of_keeps (hb : b.Sound r t) (hk : t.Keeps t₁) {n : Nat} {ty : Ty}
    (h : Ascends t₁ b.declared? n ty) : Ascends t b.declared? n ty := by
  induction n generalizing ty with
  | zero => trivial
  | succ n ih =>
    obtain ⟨c, hc, u, hu, i, hi, other, hother, hne, h⟩ := h
    refine ⟨c, hc, u, hu, i, hi, other, ?_, hne, ih h⟩
    obtain ⟨ty, hty⟩ := TypeTable.exists_get? ((hb.declared? hu).1 i hi).lt_size
    rw [hk.get? hty] at hother
    rw [hty, hother]

/-- The table and the code base are sound, and no walk over the hierarchy is too long. -/
structure Shallow (r : Regime) (t : TypeTable) (b : CodeBase) : Prop where
  types : t.Sound r
  base : b.Sound r t
  short : r.deep ∨ ∀ ty, ¬ Ascends t b.declared? maxExpansionDepth ty

/-- The first class declares the second one, another class. -/
def LeadsTo (t : TypeTable) (declared : ClassName → Option UnionType) (c d : ClassName) : Prop :=
  d.sameClass c = false ∧ ∃ u, declared c = some u ∧ ∃ i ∈ u.members, t.classOf? i = some d

/-- The classes declare nothing but classes. -/
def OnlyClasses (t : TypeTable) (declared : ClassName → Option UnionType) : Prop :=
  ∀ c u, declared c = some u → ∀ i ∈ u.members, ∃ d, t.classOf? i = some d

/-- Where classes declare nothing but classes, walks go from class to class. -/
theorem Ascends.exists_walk {declared : ClassName → Option UnionType}
    (honly : OnlyClasses t declared) {n : Nat} {ty : Ty} (h : Ascends t declared n ty)
    {c : ClassName} (hc : ty.className? = some c) :
    ∃ walk : List ClassName, walk.length = n ∧ (c :: walk).IsChain (LeadsTo t declared) := by
  induction n generalizing ty c with
  | zero => exact ⟨[], rfl, List.IsChain.singleton c⟩
  | succ n ih =>
    obtain ⟨c', hc', u, hu, i, hi, other, hother, hne, hrest⟩ := h
    obtain rfl : c' = c := Option.some.inj (hc'.symm.trans hc)
    obtain ⟨d, hd⟩ := honly c' u hu i hi
    have hclass : other.className? = some d := by
      rwa [TypeTable.classOf?, hother, Option.bind_some] at hd
    obtain ⟨walk, hlength, hchain⟩ := ih hrest hclass
    exact ⟨d :: walk, by simp [hlength],
      List.isChain_cons_cons.2 ⟨⟨hne d hclass, u, hu, i, hi, hd⟩, hchain⟩⟩

/-- Classes that declare nothing but classes make a shallow hierarchy, if no walk from class to class
has as many edges as there are levels. -/
theorem Shallow.of_walks (ht : t.Sound r) (hb : b.Sound r t) (honly : OnlyClasses t b.declared?)
    (hshort : ∀ (c : ClassName) (walk : List ClassName), walk.length = maxExpansionDepth →
      ¬ (c :: walk).IsChain (LeadsTo t b.declared?)) : Shallow r t b := by
  refine ⟨ht, hb, .inr fun ty hlong => ?_⟩
  obtain ⟨c, hc, -⟩ := id hlong
  obtain ⟨walk, hlength, hchain⟩ := hlong.exists_walk honly hc
  exact hshort c walk hlength hchain

/-- The second table and code base hold what the first ones hold. -/
structure Continues (t : TypeTable) (b : CodeBase) (t₁ : TypeTable) (b₁ : CodeBase) : Prop where
  types : t.Keeps t₁
  base : b.Advances b₁

theorem Continues.refl (hb : b.Loadable) : Continues t b t b := ⟨.refl t, .refl hb⟩

theorem Continues.trans {t₂ : TypeTable} {b₂ : CodeBase} (h : Continues t b t₁ b₁)
    (h₁ : Continues t₁ b₁ t₂ b₂) : Continues t b t₂ b₂ :=
  ⟨h.types.trans h₁.types, h.base.trans h₁.base⟩

theorem Shallow.continues (h : Shallow r t b) (hc : Continues t b t₁ b₁) (ht : t₁.Sound r)
    (hb : b₁.Sound r t₁) : Shallow r t₁ b₁ := by
  refine ⟨ht, hb, h.short.imp_right fun hshort ty hlong => hshort ty ?_⟩
  rw [hc.base.loads.declared] at hlong
  exact hlong.of_keeps h.base hc.types

namespace ExpandM

variable {α β : Type}

/-- The work ends in a sound state with a result that has the property, or it is refused because
types nest too deeply, and then the reason holds. -/
def Ends (r : Regime) (t : TypeTable) (b : CodeBase) (refused : Prop) (p : ExpandM CodeBase α)
    (Q : TypeTable → α → Prop) : Prop :=
  (∃ a t₁ b₁, p (t, b) = .ok (a, t₁, b₁) ∧ Continues t b t₁ b₁ ∧ t₁.Sound r ∧ b₁.Sound r t₁ ∧
    Q t₁ a) ∨
  (refused ∧ ∃ key, p (t, b) = .error (.expansionTooDeep key maxExpansionDepth))

variable {refused : Prop} {p : ExpandM CodeBase α} {Q : TypeTable → α → Prop}
  {R : TypeTable → β → Prop}

theorem ends_pure (ht : t.Sound r) (hb : b.Sound r t) {a : α} (h : Q t a) :
    Ends r t b refused (pure a) Q :=
  .inl ⟨a, t, b, rfl, .refl hb.loadable, ht, hb, h⟩

theorem Ends.bind {f : α → ExpandM CodeBase β} (hp : Ends r t b refused p Q)
    (hf : ∀ a t₁ b₁, Continues t b t₁ b₁ → t₁.Sound r → b₁.Sound r t₁ → Q t₁ a →
      Ends r t₁ b₁ refused (f a) R) : Ends r t b refused (p >>= f) R := by
  rcases hp with ⟨a, t₁, b₁, hrun, hc, ht₁, hb₁, hq⟩ | ⟨hrefused, key, hrun⟩
  · rcases hf a t₁ b₁ hc ht₁ hb₁ hq with ⟨a', t₂, b₂, hrun', hc', ht₂, hb₂, hr⟩ | ⟨h, key, hrun'⟩
    · exact .inl ⟨a', t₂, b₂, bind_eq_ok.2 ⟨a, _, hrun, hrun'⟩, hc.trans hc', ht₂, hb₂, hr⟩
    · refine .inr ⟨h, key, ?_⟩
      rw [bind_apply, hrun]
      exact hrun'
  · refine .inr ⟨hrefused, key, ?_⟩
    rw [bind_apply, hrun]
    rfl

/-- Work that comes down to other work in a later state. -/
theorem Ends.after {q : ExpandM CodeBase α} (hc : Continues t b t₁ b₁)
    (heq : p (t, b) = q (t₁, b₁)) (hq : Ends r t₁ b₁ refused q Q) : Ends r t b refused p Q := by
  rcases hq with ⟨a, t₂, b₂, hrun, hc', hrest⟩ | ⟨hrefused, key, hrun⟩
  · exact .inl ⟨a, t₂, b₂, heq.trans hrun, hc.trans hc', hrest⟩
  · exact .inr ⟨hrefused, key, heq.trans hrun⟩

theorem Ends.imp {refused' : Prop} {Q' : TypeTable → α → Prop} (hp : Ends r t b refused p Q)
    (hrefused : refused → refused') (h : ∀ a t₁ b₁, Continues t b t₁ b₁ → Q t₁ a → Q' t₁ a) :
    Ends r t b refused' p Q' := by
  rcases hp with ⟨a, t₁, b₁, hrun, hc, ht₁, hb₁, hq⟩ | ⟨hr, key, hrun⟩
  · exact .inl ⟨a, t₁, b₁, hrun, hc, ht₁, hb₁, h a t₁ b₁ hc hq⟩
  · exact .inr ⟨hrefused hr, key, hrun⟩

theorem ends_types (hb : b.Sound r t) {m : TypeM α} (h : TypeM.Supplies r t m Q) :
    Ends r t b refused (types m) Q := by
  obtain ⟨a, t₁, hrun, hk, ht₁, hq⟩ := h
  exact .inl ⟨a, t₁, b, types_eq_ok.2 ⟨hrun, rfl⟩, ⟨hk, .refl hb.loadable⟩, ht₁, hb.keeps hk, hq⟩

theorem ends_query_bind {f : TypeTable → Checked α} {g : α → ExpandM CodeBase β} {a : α}
    (hb : b.Sound r t) (hf : f t = .ok a) (hg : Ends r t b refused (g a) R) :
    Ends r t b refused (query f >>= g) R := by
  refine Ends.after (.refl hb.loadable) ?_ hg
  rw [bind_apply, query, types_apply, TypeM.query, hf]
  rfl

theorem ends_fetch_bind {ty : Ty} (hb : b.Sound r t) (hty : t.get? i = some ty)
    {f : Ty → ExpandM CodeBase β}
    (hf : Ends r t b refused (f ty) R) :
    Ends r t b refused (query (fun t => t.fetch i) >>= f) R := by
  obtain ⟨e, he, rfl⟩ := Option.map_eq_some_iff.1 hty
  exact ends_query_bind hb (TypeTable.fetch_eq he) hf

theorem ends_foldlM {f : β → α → ExpandM CodeBase β} {as : List α} {x : β} (ht : t.Sound r)
    (hb : b.Sound r t) (hx : R t x)
    (hstep : ∀ x t₁ b₁, ∀ a ∈ as, Continues t b t₁ b₁ → t₁.Sound r → b₁.Sound r t₁ → R t₁ x →
      Ends r t₁ b₁ refused (f x a) R) : Ends r t b refused (as.foldlM f x) R := by
  induction as generalizing t b x with
  | nil => exact ends_pure ht hb hx
  | cons a as ih =>
    rw [List.foldlM_cons]
    refine (hstep x t b a List.mem_cons_self (.refl hb.loadable) ht hb hx).bind
      fun x' t₁ b₁ hc ht₁ hb₁ hx' => ?_
    exact ih ht₁ hb₁ hx' fun x t₂ b₂ a ha hc' =>
      hstep x t₂ b₂ a (List.mem_cons_of_mem _ ha) (hc.trans hc')

/-- What a class declares is known before it is loaded. -/
theorem ends_declaredType (ht : t.Sound r) (hb : b.Sound r t) (name : ClassName) :
    Ends r t b refused (declaredType name) fun _ u => u = b.declared? name := by
  obtain ⟨hsound, hadvances, -⟩ := hb.hasClass name
  obtain ⟨heq, -⟩ := hb.loadable.declaredType name
  refine .inl ⟨_, t, (CodeBase.declaredType name b).2, rfl, ⟨.refl t, ?_⟩, ht, ?_, heq⟩
  · rw [CodeBase.declaredType_apply]
    exact hadvances
  · rw [CodeBase.declaredType_apply]
    exact hsound

/-- Why expanding a type with a number of levels left may be refused. -/
def Refusal (r : Regime) (t : TypeTable) (b : CodeBase) (n : Nat) (i : TypeId) : Prop :=
  r.deep ∨ ∃ ty, t.get? i = some ty ∧ Ascends t b.declared? n ty

/-- What one ancestor adds. A walk from the declared type goes on from the class itself. -/
theorem ends_addAncestor {n : Nat} {id j : TypeId} {name : ClassName} {ty : Ty}
    {result : UnionType}
    (ih : Ends r t b (Refusal r t₀ b₀ n j) (expandWithin n j) fun t₁ u => u.Inside t₁)
    (hid : r.deep ∨ (t₀.get? id = some ty ∧ ty.className? = some name))
    (hdeclared : r.deep ∨ ∃ u, b₀.declared? name = some u ∧ j ∈ u.members)
    (hk : t₀.Keeps t) (ht : t.Sound r) (hb : b.Sound r t) (hj : j < t.size)
    (hresult : result.Inside t) :
    Ends r t b (Refusal r t₀ b₀ (n + 1) id) (addAncestor n id name result j)
      fun t₁ u => u.Inside t₁ := by
  obtain ⟨other, hother⟩ := TypeTable.exists_get? hj
  have hdown (hne : ∀ d, other.className? = some d → d.sameClass name = false) :
      Ends r t b (Refusal r t₀ b₀ (n + 1) id)
        (expandWithin n j >>= fun v => pure (result.union v)) fun t₁ u => u.Inside t₁ := by
    refine (ih.imp ?_ fun _ _ _ _ h => h).bind fun v t₁ b₁ hc₁ ht₁ hb₁ hv =>
      ends_pure ht₁ hb₁ ((hresult.keeps hc₁.types).union hv)
    by_cases hdeep : r.deep
    · exact fun _ => .inl hdeep
    · obtain ⟨hty, hname⟩ := hid.resolve_left hdeep
      obtain ⟨u, hu, hmem⟩ := hdeclared.resolve_left hdeep
      rintro (hdeep' | ⟨other', hother', hlong⟩)
      · exact absurd hdeep' hdeep
      · rw [hk.get? hother'] at hother
        cases hother
        exact .inr ⟨ty, hty, name, hname, u, hu, j, hmem, other, hother', hne, hlong⟩
  unfold addAncestor
  split
  · exact ends_pure ht hb hresult
  · refine ends_fetch_bind hb hother ?_
    split
    · next d hd =>
      split
      · exact ends_pure ht hb (hresult.insert (TypeTable.holds_of_lt hj fun _ => trivial))
      · next hne =>
        refine hdown fun d' hd' => ?_
        rw [hd] at hd'
        cases hd'
        simpa using hne
    · next hnone =>
      refine hdown fun d hd => ?_
      rw [hnone] at hd
      cases hd

/-- Expanding a type with a number of levels left is refused only where a walk is too long. Without
leave to be refused, the type must be no array and without null. -/
def Expands (r : Regime) (t₀ : TypeTable) (b₀ : CodeBase) (n : Nat) : Prop :=
  ∀ {i : TypeId} {t : TypeTable} {b : CodeBase}, t.Sound r → b.Sound r t → i < t.size →
    (r.deep ∨ t₀.IsBare i) → Continues t₀ b₀ t b →
    Ends r t b (Refusal r t₀ b₀ n i) (expandWithin n i) fun t₁ u => u.Inside t₁

/-- What one declared type adds to the type of a class. Null is passed on to it. -/
theorem ends_addDeclared (hb₀ : b₀.Sound r t₀) {n : Nat} (hn : Expands r t₀ b₀ n) {id member : TypeId}
    {name : ClassName} {ty : Ty} {declared result : UnionType}
    (hid : r.deep ∨ (t₀.get? id = some ty ∧ ty.className? = some name))
    (hnull : r.deep ∨ ty.nullable = false) (hdeclared : b₀.declared? name = some declared)
    (hmember : member ∈ declared.members) (hc : Continues t₀ b₀ t b) (ht : t.Sound r)
    (hb : b.Sound r t) (hresult : result.Inside t) :
    Ends r t b (Refusal r t₀ b₀ (n + 1) id) (addDeclared n id name ty.nullable result member)
      fun t₁ u => u.Inside t₁ := by
  have hheld := hc.types.holds ((hb₀.declared? hdeclared).1 member hmember)
  unfold addDeclared
  dsimp only
  split
  · next hnullable =>
    have hdeep : r.deep := hnull.resolve_right fun hn => Bool.noConfusion (hn.symm.trans hnullable)
    refine (ends_types hb (TypeM.supplies_withNull (TypeM.traces_true r) ht hheld
      true)).bind fun j t₁ b₁ hc₁ ht₁ hb₁ hj => ?_
    have hc₀₁ := hc.trans hc₁
    exact ends_addAncestor (hn ht₁ hb₁ hj.lt_size (.inl hdeep) hc₀₁) hid (.inl hdeep)
      hc₀₁.types ht₁ hb₁ hj.lt_size (hresult.keeps hc₁.types)
  · have hbare : r.deep ∨ t₀.IsBare member :=
      (hb₀.declared? hdeclared).2.imp_right fun hall => hall member hmember
    exact ends_addAncestor (hn ht hb hheld.lt_size hbare hc) hid (.inr ⟨declared, hdeclared, hmember⟩)
      hc.types ht hb hheld.lt_size hresult

/-- A class is expanded by the types that it declares, one after the other. -/
theorem ends_expandClass (hb₀ : b₀.Sound r t₀) {n : Nat} (hn : Expands r t₀ b₀ n)
    {name : ClassName} {ty : Ty}
    (hid : r.deep ∨ (t₀.get? i = some ty ∧ ty.className? = some name))
    (hnull : r.deep ∨ ty.nullable = false) (hc : Continues t₀ b₀ t b) (ht : t.Sound r)
    (hb : b.Sound r t) (hi : i < t.size) :
    Ends r t b (Refusal r t₀ b₀ (n + 1) i) (do
      match ← declaredType name with
      | none => return .of i
      | some declared => declared.members.foldlM (addDeclared n i name ty.nullable) (.of i))
      fun t₁ u => u.Inside t₁ := by
  have hself : (UnionType.of i).Inside t :=
    UnionType.held_of (TypeTable.holds_of_lt hi fun _ => trivial)
  refine (ends_declaredType ht hb name).bind fun u t₁ b₁ hc₁ ht₁ hb₁ hu => ?_
  subst hu
  cases hdeclared : b.declared? name with
  | none => exact ends_pure ht₁ hb₁ (hself.keeps hc₁.types)
  | some u =>
    have hu₀ : b₀.declared? name = some u := by rw [← hc.base.loads.declared, hdeclared]
    exact ends_foldlM ht₁ hb₁ (hself.keeps hc₁.types)
      fun result t₂ b₂ member hmember hc₂ ht₂ hb₂ hresult =>
        ends_addDeclared hb₀ hn hid hnull hu₀ hmember (hc.trans (hc₁.trans hc₂)) ht₂ hb₂ hresult

/-- An array of classes is expanded inside. -/
theorem ends_expandArray {n : Nat} (hn : Expands r t₀ b₀ n) {key : KeyKind} {element : TypeId}
    (nullable : Bool) (hdeep : r.deep) (hc : Continues t₀ b₀ t b) (ht : t.Sound r)
    (hb : b.Sound r t) (hi : i < t.size) (helement : element < t.size) :
    Ends r t b (Refusal r t₀ b₀ (n + 1) i) (do
      if (← query fun t => t.fetch element).className?.isNone &&
          !(← query fun t => t.isArrayOfClass element) then return .of i
      else
        let expanded ← expandWithin n element
        types (expanded.mapMembers fun e => TypeM.array key e nullable))
      fun t₁ u => u.Inside t₁ := by
  obtain ⟨tye, htye⟩ := TypeTable.exists_get? helement
  obtain ⟨nested, hnested⟩ := TypeTable.exists_isArrayOfClass helement
  refine ends_fetch_bind hb htye (ends_query_bind hb hnested ?_)
  split
  · exact ends_pure ht hb (UnionType.held_of (TypeTable.holds_of_lt hi fun _ => trivial))
  · refine ((hn ht hb helement (.inl hdeep) hc).imp (fun _ => .inl hdeep) fun _ _ _ _ h => h).bind
      fun v t₁ b₁ _ ht₁ hb₁ hv => ends_types hb₁ ?_
    exact UnionType.supplies_mapMembers ht₁ fun t₂ e he hk₂ ht₂ =>
      TypeM.supplies_array (TypeM.traces_true r) ht₂ key (hk₂.holds (hv e he)) nullable

/-- Expanding a type is refused only where a walk is too long, as long as the types that classes
declare are no arrays and without null, or there is leave to be refused. -/
theorem ends_expandWithin (hb₀ : b₀.Sound r t₀) (n : Nat) : Expands r t₀ b₀ n := by
  induction n with
  | zero =>
    intro i t b ht hb hi hbare hc
    refine .inr ⟨?_, t.key i, ?_⟩
    · exact hbare.imp_right fun ⟨ty, hty, _⟩ => ⟨ty, hty, trivial⟩
    · rw [expandWithin, bind_apply, query, types_apply, TypeM.query, TypeTable.typeKey, if_pos hi]
      rfl
  | succ n ih =>
    intro i t b ht hb hi hbare hc
    obtain ⟨ty, hty⟩ := TypeTable.exists_get? hi
    have hshape : r.deep ∨ (t₀.get? i = some ty ∧ ty.nullable = false ∧
        ∀ key element, ty.kind ≠ .array key element) := hbare.imp_right <| by
      rintro ⟨ty', hty', hbare⟩
      obtain rfl := Option.some.inj ((hc.types.get? hty').symm.trans hty)
      exact ⟨hty', hbare⟩
    rw [expandWithin]
    refine ends_fetch_bind hb hty ?_
    split
    · next name args hk =>
      have hname : ty.className? = some name := by rw [Ty.className?, hk]
      exact ends_expandClass hb₀ ih (hshape.imp_right fun h => ⟨h.1, hname⟩)
        (hshape.imp_right fun h => h.2.1) hc ht hb hi
    · next key element hk =>
      have hdeep : r.deep := hshape.resolve_right fun h => h.2.2 key element hk
      have helement : element < t.size :=
        (TypeTable.embedded_lt_of_get? hty (by simp [hk, TypeKind.embedded])).trans hi
      exact ends_expandArray ih ty.nullable hdeep hc ht hb hi helement
    · exact ends_pure ht hb (UnionType.held_of (TypeTable.holds_of_lt hi fun _ => trivial))

/-! ### Remembered expansions -/

end ExpandM

theorem TypeTable.Sound.withCache (ht : t.Sound r) {c : ExpansionCache}
    (hc : ∀ (id : TypeId) (u : UnionType), c.entries[id]? = some u → ∀ i ∈ u.members, i < t.size) :
    (t.withCache c).Sound r :=
  ⟨ht.natives, ht.found, ht.fit, ht.regular, ht.odd, hc, fun hs => (ht.canonical hs).withCache c⟩

/-- Bringing the memory up to date keeps what is known of it. -/
theorem ExpansionCache.lt_size_of_sync {c : ExpansionCache} {size g : Nat}
    (hc : ∀ (id : TypeId) (u : UnionType), c.entries[id]? = some u → ∀ i ∈ u.members, i < size)
    (id : TypeId) (u : UnionType) (hu : (c.sync g).entries[id]? = some u) :
    ∀ i ∈ u.members, i < size := by
  unfold sync at hu
  split at hu
  · exact hc id u hu
  · simp at hu

theorem TypeTable.Sound.syncCache (ht : t.Sound r) (g : Nat) : (t.syncCache g).Sound r :=
  ht.withCache (ExpansionCache.lt_size_of_sync ht.remembered)

theorem TypeTable.Sound.remember (ht : t.Sound r) {u : UnionType} (hu : u.Inside t) (i : TypeId) :
    (t.remember i u).Sound r := by
  refine ht.withCache fun id v hv => ?_
  rw [Std.HashMap.getElem?_insert] at hv
  split at hv
  · cases hv
    exact fun j hj => (hu j hj).lt_size
  · exact ht.remembered id v hv

theorem TypeTable.keeps_withCache (t : TypeTable) (c : ExpansionCache) : t.Keeps (t.withCache c) :=
  fun _ _ h => h

namespace ExpandM

theorem not_refusal (h : Shallow r t b) (hdeep : ¬ r.deep) (i : TypeId) :
    ¬ Refusal r t b maxExpansionDepth i := by
  rintro (h' | ⟨ty, -, hlong⟩)
  · exact hdeep h'
  · exact h.short.resolve_left hdeep ty hlong

theorem ends_expandType (h : Shallow r t b) (hi : i < t.size) (hbare : r.deep ∨ t.IsBare i) :
    Ends r t b r.deep (expandType i) fun t₁ u => u.Inside t₁ := by
  have ht := h.types.syncCache b.generation
  have hk : t.Keeps (t.syncCache b.generation) := t.keeps_withCache _
  unfold Ends
  rw [expandType_apply]
  cases hu : (t.cache.sync b.generation).entries[i]? with
  | some u =>
    refine .inl ⟨u, _, b, rfl, ⟨hk, .refl h.base.loadable⟩, ht, h.base.keeps hk, fun j hj => ?_⟩
    exact TypeTable.holds_of_lt (ht.remembered i u hu j hj) fun _ => trivial
  | none =>
    have hrun := ends_expandWithin h.base maxExpansionDepth ht (h.base.keeps hk)
      (show i < (t.syncCache b.generation).size from hi) hbare ⟨hk, .refl h.base.loadable⟩
    rcases hrun with ⟨u, t₁, b₁, hrun, hc, ht₁, hb₁, hu₁⟩ | ⟨hrefused, key, hrun⟩
    · have hk₁ : t₁.Keeps ((t₁.syncCache b₁.generation).remember i u) :=
        t₁.keeps_withCache ((t₁.syncCache b₁.generation).remember i u).cache
      refine .inl ⟨u, (t₁.syncCache b₁.generation).remember i u, b₁, ?_, ?_, ?_,
        hb₁.keeps hk₁, hu₁.keeps hk₁⟩
      · rw [hrun]
        rfl
      · exact ⟨hk.trans (hc.types.trans hk₁), hc.base⟩
      · exact (ht₁.syncCache b₁.generation).remember (hu₁.keeps (t₁.keeps_withCache _)) i
    · refine .inr ⟨?_, key, ?_⟩
      · by_contra hdeep
        exact not_refusal h hdeep i hrefused
      · rw [hrun]
        rfl

theorem ends_anyM {f : α → ExpandM CodeBase Bool} {as : List α} (ht : t.Sound r)
    (hb : b.Sound r t)
    (hstep : ∀ t₁ b₁, ∀ a ∈ as, Continues t b t₁ b₁ → t₁.Sound r → b₁.Sound r t₁ →
      Ends r t₁ b₁ refused (f a) fun _ _ => True) :
    Ends r t b refused (as.anyM f) fun _ _ => True := by
  induction as generalizing t b with
  | nil => exact ends_pure ht hb trivial
  | cons a as ih =>
    rw [List.anyM]
    refine (hstep t b a List.mem_cons_self (.refl hb.loadable) ht hb).bind
      fun found t₁ b₁ hc ht₁ hb₁ _ => ?_
    cases found with
    | true => exact ends_pure ht₁ hb₁ trivial
    | false =>
      exact ih ht₁ hb₁ fun t₂ b₂ a ha hc' => hstep t₂ b₂ a (List.mem_cons_of_mem _ ha) (hc.trans hc')

/-- The question for an ancestor of a type that is no array is answered. -/
theorem ends_hasAncestor (h : Shallow r t b) (hi : i < t.size) (hbare : r.deep ∨ t.IsBare i)
    (owner : ClassName) :
    Ends r t b r.deep ((UnionType.of i).hasAncestor owner) fun _ _ => True := by
  have hexpand : Ends r t b r.deep (UnionType.of i).expand fun t₁ u => u.Inside t₁ := by
    refine ends_foldlM h.types h.base UnionType.held_empty
      fun result t₁ b₁ j hj hc₁ ht₁ hb₁ hresult => ?_
    obtain rfl := UnionType.mem_of.1 hj
    refine (ends_expandType (h.continues hc₁ ht₁ hb₁) (hc₁.types.lt_size hi)
      (hbare.imp_right hc₁.types.isBare)).bind fun u t₂ b₂ hc₂ ht₂ hb₂ hu => ?_
    exact ends_pure ht₂ hb₂ ((hresult.keeps hc₂.types).union hu)
  refine hexpand.bind fun u t₁ b₁ _ ht₁ hb₁ hu => ?_
  refine ends_anyM ht₁ hb₁ fun t₂ b₂ j hj hc ht₂ hb₂ => ?_
  obtain ⟨ty, hty, -⟩ := (hc.types.holds (hu j hj)).kind
  refine ends_fetch_bind hb₂ hty ?_
  split
  · exact ends_pure ht₂ hb₂ trivial
  · exact ends_pure ht₂ hb₂ trivial

theorem ends_isSubclassOf (h : Shallow r t b) (child ancestor : ClassName) :
    Ends r t b r.deep (CodeBase.isSubclassOf child ancestor) fun _ _ => True := by
  obtain ⟨hb₁, hadvances, hfound⟩ := h.base.hasClass child
  have hc₁ : Continues t b t (CodeBase.hasClass child b).2 := ⟨.refl t, hadvances⟩
  have hshallow := h.continues hc₁ h.types hb₁
  unfold CodeBase.isSubclassOf
  split
  · exact ends_pure h.types h.base trivial
  · refine Ends.after (q := if (CodeBase.hasClass child b).1 then _ else _) hc₁ rfl ?_
    split
    · next hknown =>
      obtain ⟨d, hd⟩ := hfound hknown
      have hname := hb₁.names child d hd
      refine (ends_types hb₁ (TypeM.supplies_classType (TypeM.traces_true r) h.types
        hname.admits)).bind fun id t₂ b₂ hc₂ ht₂ hb₂ hid => ?_
      exact ends_hasAncestor (hshallow.continues hc₂ ht₂ hb₂) hid.1.lt_size
        (.inr (hid.2 (.inl hname))) ancestor
    · exact ends_pure h.types hb₁ trivial

end ExpandM

end UnionInference
