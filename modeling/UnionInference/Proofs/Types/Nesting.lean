import UnionInference.Proofs.Types.Interning

/-!
How deeply written types nest. Reading counts one level for each union and one more for the brackets
of a shape or a callable type; the levels of a type are those that reading its text needs. The types
that a type is made of, at any depth, are its parts.
-/

namespace UnionInference

/-- The greatest of the numbers, or zero. -/
def deepest (ns : List Nat) : Nat := ns.foldr max 0

theorem deepest_le {ns : List Nat} {n : Nat} : deepest ns ≤ n ↔ ∀ m ∈ ns, m ≤ n := by
  induction ns with
  | nil => simp [deepest]
  | cons m ns ih =>
    rw [List.forall_mem_cons, ← ih]
    exact Nat.max_le

theorem deepest_map_le {α : Type} {f : α → Nat} {as : List α} {n : Nat} :
    deepest (as.map f) ≤ n ↔ ∀ a ∈ as, f a ≤ n := by
  rw [deepest_le, List.forall_mem_map]

namespace TypeTable

/-! ### Levels -/

/-- The levels of a union, of whose members the levels are given. -/
def unionLevels (member : TypeId → Nat) (u : UnionType) : Nat := 1 + deepest (u.members.map member)

/-- The levels of the result of a callable type: more than one member stand in brackets. -/
def resultLevels (member : TypeId → Nat) (u : UnionType) : Nat :=
  match u.members with
  | [] => 0
  | [i] => member i
  | _ => unionLevels member u

/-- The levels of a kind, of whose parts the levels are given. -/
def kindLevels (t : TypeTable) (member : TypeId → Nat) : TypeKind → Nat
  | .object _ args => deepest (args.map (unionLevels member))
  | .array .mixed element => if t.needsParens element then 1 + member element else member element
  | .array _ element => 1 + member element
  | .shape fields => 1 + deepest (fields.map fun f => unionLevels member f.2.type)
  | .callable sig =>
    1 + max (deepest (sig.params.map fun p => unionLevels member p.type))
      (resultLevels member sig.result)
  | .native _ | .intLiteral _ | .stringLiteral _ | .template _ => 0

/-- The levels that reading the text of a type needs. -/
def levels (t : TypeTable) (id : TypeId) : Nat :=
  match t.get? id with
  | some ty => t.kindLevels (fun i => if i < id then levels t i else 0) ty.kind
  | none => 0
termination_by id

variable {t : TypeTable}

theorem unionLevels_congr {f g : TypeId → Nat} {u : UnionType} (h : ∀ i ∈ u.members, f i = g i) :
    unionLevels f u = unionLevels g u := by
  rw [unionLevels, unionLevels, List.map_congr_left h]

theorem resultLevels_congr {f g : TypeId → Nat} {u : UnionType} (h : ∀ i ∈ u.members, f i = g i) :
    resultLevels f u = resultLevels g u := by
  rw [resultLevels.eq_def, resultLevels.eq_def, unionLevels_congr h]
  split
  · rfl
  · next i hi => exact h i (by simp [hi])
  · rfl

/-- The levels of a kind depend on those of its parts only. -/
theorem kindLevels_congr {f g : TypeId → Nat} {kind : TypeKind} (h : ∀ i ∈ kind.embedded, f i = g i) :
    t.kindLevels f kind = t.kindLevels g kind := by
  cases kind with
  | native | intLiteral | stringLiteral | template => rfl
  | object name args =>
    rw [kindLevels, kindLevels, List.map_congr_left fun u hu =>
      unionLevels_congr fun i hi => h i (List.mem_flatMap.2 ⟨u, hu, hi⟩)]
  | array key i =>
    have hi := h i (by simp [TypeKind.embedded])
    cases key <;> simp only [kindLevels, hi]
  | shape fields =>
    rw [kindLevels, kindLevels, List.map_congr_left fun f hf =>
      unionLevels_congr fun i hi => h i (List.mem_flatMap.2 ⟨f, hf, hi⟩)]
  | callable sig =>
    rw [kindLevels, kindLevels, List.map_congr_left fun p hp => unionLevels_congr fun i hi =>
        h i (List.mem_append_left _ (List.mem_flatMap.2 ⟨p, hp, hi⟩)),
      resultLevels_congr fun i hi => h i (List.mem_append_right _ hi)]

theorem levels_eq {i : TypeId} {e : TypeEntry} (he : t.entries[i]? = some e) :
    t.levels i = t.kindLevels t.levels e.type.kind := by
  rw [levels, get?_eq he]
  exact kindLevels_congr fun j hj => if_pos (embedded_lt he hj)

theorem unionLevels_le {f : TypeId → Nat} {u : UnionType} {n : Nat} :
    unionLevels f u ≤ n + 1 ↔ ∀ i ∈ u.members, f i ≤ n := by
  rw [unionLevels, Nat.add_comm, Nat.add_le_add_iff_right, deepest_map_le]

theorem unionLevels_pos (f : TypeId → Nat) (u : UnionType) : ¬ unionLevels f u ≤ 0 := by
  rw [unionLevels]; omega

/-! ### Parts -/

/-- The second type is the first one or a part of it, at any depth. -/
inductive Within (t : TypeTable) : TypeId → TypeId → Prop
  | self (i : TypeId) : Within t i i
  | part {i j k : TypeId} {e : TypeEntry} : t.entries[i]? = some e → j ∈ e.type.kind.embedded →
      Within t j k → Within t i k

/-- A type of the given kind is a member of the union or a part of one. -/
def Mentions (t : TypeTable) (u : UnionType) (kind : TypeKind) : Prop :=
  ∃ i ∈ u.members, ∃ j e, t.Within i j ∧ t.entries[j]? = some e ∧ e.type.kind = kind

end TypeTable

end UnionInference
