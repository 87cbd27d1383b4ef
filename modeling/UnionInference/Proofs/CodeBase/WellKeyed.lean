import UnionInference.Proofs.CodeBase.History
import UnionInference.Proofs.CodeBase.Reset

/-!
Every member stands where its name says. Registering, handing down through any number of classes,
forgetting and taking back all write the tables of members, and all of them keep this: a member that
is found in a class under a key bears the name of the class, the key is the key of its name, and
it differs only in the class of its name from a member that was registered, at some earlier time, by
the class that declares it and under the same key. That member may have been replaced or taken back
since it was copied, so the tables alone do not tell it, but the history does.
-/

namespace UnionInference

open ClassMember

/-! ### One table of members -/

namespace MemberTables

variable {μ : Type} [ClassMember μ] {ms : MemberTables μ} {registered : List μ} {m : μ}

/-- Each member is found under its own name and is, up to the class in its name, a member that was
registered under the same key by the class that declares it. -/
structure WellKeyed (ms : MemberTables μ) (registered : List μ) : Prop where
  valid : ms.Valid
  owned : ∀ (c : ClassName) (k : String) (m : μ), (ms.table c).get? k = some m →
    (name m).owner.fold = c.fold
  keyed : ∀ (c : ClassName) (k : String) (m : μ), (ms.table c).get? k = some m →
    key μ (name m).name = k
  origin : ∀ (c : ClassName) (k : String) (m : μ), (ms.table c).get? k = some m →
    ∃ m₀ ∈ registered, name m₀ = definedAs m ∧ definedAs m₀ = definedAs m ∧
      key μ (name m₀).name = k ∧ m = moveTo m₀ (name m).owner

theorem wellKeyed_empty : ({} : MemberTables μ).WellKeyed registered := by
  have hnone : ∀ (c : ClassName) (k : String), (({} : MemberTables μ).table c).get? k = none := by
    intro c k
    simp [table, table?, OrderedTable.get?, OrderedTable.empty]
  refine ⟨valid_empty, fun c k m hm => ?_, fun c k m hm => ?_, fun c k m hm => ?_⟩
  all_goals
    rw [hnone] at hm
    cases hm

theorem WellKeyed.mono {registered' : List μ} (h : ms.WellKeyed registered)
    (hsub : registered ⊆ registered') : ms.WellKeyed registered' :=
  { h with
    origin := fun c k m hm => by
      obtain ⟨m₀, hm₀, hrest⟩ := h.origin c k m hm
      exact ⟨m₀, hsub hm₀, hrest⟩ }

/-- Tables in which nothing new is found stay well keyed. -/
theorem WellKeyed.of_found {ms' : MemberTables μ} (h : ms.WellKeyed registered) (hv : ms'.Valid)
    (hfound : ∀ (c : ClassName) (k : String) (m : μ), (ms'.table c).get? k = some m →
      (ms.table c).get? k = some m) : ms'.WellKeyed registered where
  valid := hv
  owned c k m hm := h.owned c k m (hfound c k m hm)
  keyed c k m hm := h.keyed c k m (hfound c k m hm)
  origin c k m hm := h.origin c k m (hfound c k m hm)

theorem WellKeyed.remove (h : ms.WellKeyed registered) (name : MemberName) :
    (ms.remove name).2.WellKeyed registered := by
  refine h.of_found (h.valid.remove name) fun c k m hm => ?_
  unfold MemberTables.remove at hm
  dsimp only at hm
  split at hm
  · by_cases hc : name.owner.fold = c.fold
    · rw [← table_congr _ hc, table_setTable_self, (h.valid _).get?_erase] at hm
      split at hm
      · cases hm
      · rwa [← table_congr _ hc]
    · rwa [table_setTable_of_ne _ hc] at hm
  · exact hm

theorem WellKeyed.dropInherited (h : ms.WellKeyed registered) :
    ms.dropInherited.WellKeyed registered := by
  refine h.of_found h.valid.dropInherited fun c k m hm => ?_
  rw [table_dropInherited, (h.valid c).get?_filter] at hm
  exact (Option.filter_eq_some_iff.1 hm).1

variable [MemberSort μ]

/-- A member that is registered where it is declared stands under its own name. -/
theorem WellKeyed.add (h : ms.WellKeyed registered) (hm : definedAs m = name m) :
    (ms.add m).WellKeyed (registered ++ [m]) := by
  -- what is found is the new member, or was found before
  have hfound : ∀ (c : ClassName) (k : String) (m' : μ), ((ms.add m).table c).get? k = some m' →
      (m' = m ∧ (name m).owner.fold = c.fold ∧ key μ (name m).name = k) ∨
        (ms.table c).get? k = some m' := by
    intro c k m' hm'
    rw [table_add] at hm'
    split at hm'
    · next hc =>
      rw [(h.valid c).get?_insert] at hm'
      split at hm'
      · next hk =>
        cases hm'
        exact .inl ⟨rfl, hc, eq_of_beq hk⟩
      · exact .inr hm'
    · exact .inr hm'
  refine ⟨h.valid.add m, fun c k m' hm' => ?_, fun c k m' hm' => ?_, fun c k m' hm' => ?_⟩
  · rcases hfound c k m' hm' with ⟨rfl, hc, -⟩ | hm'
    · exact hc
    · exact h.owned c k m' hm'
  · rcases hfound c k m' hm' with ⟨rfl, -, hk⟩ | hm'
    · exact hk
    · exact h.keyed c k m' hm'
  · rcases hfound c k m' hm' with ⟨rfl, -, hk⟩ | hm'
    · exact ⟨m', List.mem_concat_self, hm.symm, rfl, hk, (MemberSort.moveTo_owner m').symm⟩
    · obtain ⟨m₀, hm₀, hrest⟩ := h.origin c k m' hm'
      exact ⟨m₀, List.mem_append_left [m] hm₀, hrest⟩

/-- What a class hands down stands under the name of the class that receives it, and goes back to
the same registration. -/
theorem WellKeyed.inherit (h : ms.WellKeyed registered)
    (hname : ∀ (m : μ) (o : ClassName), (name (moveTo m o)).name = (name m).name)
    (source target : ClassName) : (ms.inherit source target).WellKeyed registered := by
  -- what is found was found before, or is the copy of what the source has
  have hfound : ∀ (c : ClassName) (k : String) (m : μ),
      ((ms.inherit source target).table c).get? k = some m →
        (ms.table c).get? k = some m ∨ target.fold = c.fold ∧
          ∃ m₁, (ms.table source).get? k = some m₁ ∧ moveTo m₁ target = m := by
    intro c k m hm
    by_cases hc : target.fold = c.fold
    · rw [← table_congr _ hc, ((h.valid.inherit source target) target).get?_eq_lookup,
        h.valid.toList_table_inherit, lookup_adopt, Option.or_eq_some_iff, Option.map_eq_some_iff,
        ← (h.valid target).get?_eq_lookup, ← (h.valid source).get?_eq_lookup] at hm
      rcases hm with hm | ⟨-, hm⟩
      · exact .inl (table_congr ms hc ▸ hm)
      · exact .inr ⟨hc, hm⟩
    · rw [table_inherit_of_ne hc] at hm
      exact .inl hm
  refine ⟨h.valid.inherit source target, fun c k m hm => ?_, fun c k m hm => ?_,
    fun c k m hm => ?_⟩
  · rcases hfound c k m hm with hm | ⟨hc, m₁, -, rfl⟩
    · exact h.owned c k m hm
    · rw [MemberSort.owner_moveTo, hc]
  · rcases hfound c k m hm with hm | ⟨-, m₁, hm₁, rfl⟩
    · exact h.keyed c k m hm
    · rw [hname]
      exact h.keyed source k m₁ hm₁
  · rcases hfound c k m hm with hm | ⟨-, m₁, hm₁, rfl⟩
    · exact h.origin c k m hm
    · obtain ⟨m₀, hm₀, hdeclared, hdefined, hk, hcopy⟩ := h.origin source k m₁ hm₁
      refine ⟨m₀, hm₀, ?_, ?_, hk, ?_⟩
      · rw [MemberSort.definedAs_moveTo, hdeclared]
      · rw [MemberSort.definedAs_moveTo, hdefined]
      · rw [MemberSort.owner_moveTo]
        -- the copy of a copy is a copy
        conv_lhs => rw [hcopy]
        exact MemberSort.moveTo_moveTo m₀ _ target

end MemberTables

/-! ### All tables of a code base -/

namespace Element

/-- The element, if it is a method. -/
def method? : Element → Option Method
  | .method m => some m
  | _ => none

/-- The element, if it is a property. -/
def property? : Element → Option Property
  | .property p => some p
  | _ => none

/-- The element, if it is a class constant. -/
def constant? : Element → Option ClassConstant
  | .classConstant c => some c
  | _ => none

/-- A member is registered by the class that declares it. -/
def Declared : Element → Prop
  | .method m => m.definedAs = m.name
  | .property p => p.definedAs = p.name
  | .classConstant c => c.definedAs = c.name
  | _ => True

end Element

namespace CodeBase

variable {b : CodeBase} {registered : List Element} {x : Element}

/-- The members of all three sorts are well keyed, where the elements were registered. -/
structure WellKeyed (b : CodeBase) (registered : List Element) : Prop where
  methods : b.methods.WellKeyed (registered.filterMap Element.method?)
  properties : b.properties.WellKeyed (registered.filterMap Element.property?)
  constants : b.constants.WellKeyed (registered.filterMap Element.constant?)

theorem wellKeyed_create (hydrateLazily : Bool) : (create hydrateLazily).WellKeyed registered :=
  ⟨MemberTables.wellKeyed_empty, MemberTables.wellKeyed_empty, MemberTables.wellKeyed_empty⟩

namespace WellKeyed

theorem mono {registered' : List Element} (h : b.WellKeyed registered)
    (hsub : registered ⊆ registered') : b.WellKeyed registered' :=
  ⟨h.methods.mono (List.filterMap_subset _ hsub), h.properties.mono (List.filterMap_subset _ hsub),
    h.constants.mono (List.filterMap_subset _ hsub)⟩

theorem put (h : b.WellKeyed registered) (hx : x.Declared) :
    (b.put x).WellKeyed (registered ++ [x]) := by
  have hold := h.mono (List.subset_append_left registered [x])
  cases x with
  | method m =>
    refine { hold with methods := ?_ }
    rw [List.filterMap_append]
    exact h.methods.add hx
  | property p =>
    refine { hold with properties := ?_ }
    rw [List.filterMap_append]
    exact h.properties.add hx
  | classConstant c =>
    refine { hold with constants := ?_ }
    rw [List.filterMap_append]
    exact h.constants.add hx
  | _ => exact { hold with }

theorem inherit (h : b.WellKeyed registered) (source target : ClassName) :
    (b.inherit source target).WellKeyed registered where
  methods := h.methods.inherit (fun _ _ => rfl) source target
  properties := h.properties.inherit (fun _ _ => rfl) source target
  constants := h.constants.inherit (fun _ _ => rfl) source target

theorem resetInherited (h : b.WellKeyed registered) : b.resetInherited.WellKeyed registered :=
  ⟨h.methods.dropInherited, h.properties.dropInherited, h.constants.dropInherited⟩

theorem removeEntry (h : b.WellKeyed registered) (e : UndoEntry) :
    (b.removeEntry e).2.WellKeyed registered := by
  cases e with
  | classDecl name =>
    rw [removeEntry_classDecl]
    split
    · exact { h with }
    · exact h
  | method name => exact { h with methods := h.methods.remove name }
  | property name => exact { h with properties := h.properties.remove name }
  | classConstant name => exact { h with constants := h.constants.remove name }
  | function name => exact { h with }
  | globalConstant name => exact { h with }

theorem removeEntries (h : b.WellKeyed registered) (es : List UndoEntry) :
    (b.removeEntries es).2.WellKeyed registered :=
  removeEntries_induction (P := fun b' => b'.WellKeyed registered) (fun _ e h => h.removeEntry e) es h

theorem undoFile (h : b.WellKeyed registered) (file : String) :
    (b.undoFile file).2.WellKeyed registered := by
  obtain ⟨undo, -, heq | heq⟩ := b.undoFile_cases file
  · rw [heq]
    exact CodeBase.WellKeyed.removeEntries (b := { b with undo }) { h with } _
  · rw [heq]
    exact (CodeBase.WellKeyed.removeEntries (b := { b with undo }) { h with } _).resetInherited

/-- One change. -/
theorem change (h : b.WellKeyed registered) {ch : BaseChange}
    (hdeclared : ∀ x ∈ ch.elements, x.Declared) :
    (b.change ch).WellKeyed (registered ++ ch.puts) := by
  have hold : b.WellKeyed (registered ++ ch.puts) := h.mono (List.subset_append_left _ _)
  cases ch with
  | put x => exact h.put (hdeclared x List.mem_cons_self)
  | handDown source target => exact hold.inherit source target
  | reset => exact hold.resetInherited
  | takeBack file => exact hold.undoFile file
  | _ => exact { hold with }

/-- Changes one after the other. -/
theorem replay (h : b.WellKeyed registered) {cs : List BaseChange}
    (hdeclared : ∀ ch ∈ cs, ∀ x ∈ ch.elements, x.Declared) :
    (b.replay cs).WellKeyed (registered ++ BaseChange.registered cs) := by
  induction cs generalizing b registered with
  | nil => exact h.mono (List.subset_append_left _ _)
  | cons ch cs ih =>
    obtain ⟨hch, hcs⟩ := List.forall_mem_cons.1 hdeclared
    have hrest := ih (h.change hch) hcs
    rwa [List.append_assoc] at hrest

end WellKeyed

/-- In every state that a code base goes through, the members are well keyed. Elements are
registered, announced and made known to a resolver, with members where they are declared; files are
followed and taken back, inherited members forgotten, and classes and members looked up, so that
classes are loaded and filled on the way, on cycles of classes too. The history of all this leads to
the code base at the end, and after each part of it every member stands under its own name and is, up
to the class in its name, one that was registered before. -/
theorem wellKeyed_history (hydrateLazily : Bool) {requests : List BaseRequest}
    (hdeclared : ∀ r ∈ requests, ∀ x ∈ r.elements, x.Declared) :
    (create hydrateLazily).replay (history hydrateLazily requests) =
        requests.foldl serve (create hydrateLazily) ∧
      ∀ cs, cs <+: history hydrateLazily requests →
        ((create hydrateLazily).replay cs).WellKeyed (BaseChange.registered cs) := by
  have h := explains_history hydrateLazily hdeclared
  refine ⟨h.replay, fun cs hcs => ?_⟩
  have hnew : (create hydrateLazily).WellKeyed [] := wellKeyed_create hydrateLazily
  exact hnew.replay fun ch hch => h.elements ch (hcs.subset hch)

/-- Two classes that are each other's parent. The first one is registered with a method while a file
is read, the second one is announced with another method. It is loaded when the first one is filled,
and then the file is taken back. -/
def mutualRequests : List BaseRequest :=
  [.register .follow, .register (.file (some "first.php")),
    .register (.classDecl { name := ⟨"\\", "A"⟩, parent := some ⟨"\\", "B"⟩, type := .empty }),
    .register (.method { name := ⟨⟨"\\", "A"⟩, "run"⟩ }),
    .announce ⟨"\\", "B"⟩
      { decl := { name := ⟨"\\", "B"⟩, parent := some ⟨"\\", "A"⟩, type := .empty }
        methods := [{ name := ⟨⟨"\\", "B"⟩, "stop"⟩ }] },
    .lookUp (.hydrate ⟨"\\", "A"⟩), .register (.takeBack "first.php"),
    .lookUp (.methodsOf ⟨"\\", "B"⟩)]

theorem wellKeyed_history_mutual :
    (∀ r ∈ mutualRequests, ∀ x ∈ r.elements, x.Declared) ∧
      (mutualRequests.foldl serve (create true)).WellKeyed
        (BaseChange.registered (history true mutualRequests)) := by
  have hdeclared : ∀ r ∈ mutualRequests, ∀ x ∈ r.elements, x.Declared := by
    simp [mutualRequests, BaseRequest.elements, Registration.elements, ClassDefinition.elements,
      Element.Declared]
  obtain ⟨hreplay, hkeyed⟩ := wellKeyed_history true hdeclared
  exact ⟨hdeclared, hreplay ▸ hkeyed _ (List.prefix_refl _)⟩

end CodeBase

end UnionInference
