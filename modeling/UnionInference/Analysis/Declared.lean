import UnionInference.Analysis.Evaluator

/-!
Declared types: what the nodes that declare types stand for.
-/

namespace UnionInference

namespace NodeOf

/-- A child is smaller than its node. -/
theorem sizeOf_child_lt {n : Node} {slot : Slot} {c : Child} (h : (slot, c) ∈ n.children) :
    sizeOf c < sizeOf n := by
  have h₁ := List.sizeOf_lt_of_mem h
  have h₂ : sizeOf (slot, c) = 1 + sizeOf slot + sizeOf c := rfl
  have h₃ : sizeOf n = 1 + sizeOf n.id + sizeOf n.kind + sizeOf n.flags + sizeOf n.line +
      sizeOf n.children := by cases n; rfl
  omega

/-- A node in a named slot is smaller than the node around it. -/
theorem sizeOf_childNode?_lt {n m : Node} {name : String} (h : n.childNode? name = some m) :
    sizeOf m < sizeOf n := by
  simp only [childNode?, child?, Option.bind_eq_some_iff] at h
  obtain ⟨c, hc, hm⟩ := h
  obtain ⟨⟨slot, d⟩, hmem, hd⟩ := List.exists_of_findSome?_eq_some hc
  simp only at hd
  split at hd
  · cases hd
    have := sizeOf_child_lt hmem
    cases c <;> simp_all [Child.node?]
    omega
  · cases hd

/-- A node in the row is smaller than the node around it. -/
theorem sizeOf_list_lt {n m : Node} (h : m ∈ n.list.filterMap Child.node?) :
    sizeOf m < sizeOf n := by
  obtain ⟨c, hc, hm⟩ := List.mem_filterMap.1 h
  obtain ⟨⟨slot, d⟩, hmem, hd⟩ := List.mem_filterMap.1 hc
  have := sizeOf_child_lt hmem
  cases slot <;> simp at hd
  subst hd
  cases d <;> simp_all [Child.node?]
  omega

end NodeOf

/-- The built-in type of a keyword. -/
def TypeHint.native : TypeHint → NativeKind
  | .array => .array
  | .callable => .callable
  | .void => .void
  | .bool => .bool
  | .int => .int
  | .float => .float
  | .string => .string
  | .iterable => .iterable
  | .object => .object
  | .null => .null
  | .false => .false
  | .true => .true
  | .static => .static
  | .mixed => .mixed

namespace AnalysisM

set_option linter.unusedVariables false in
/-- The type that a node declares. -/
def declaredType (c : Context) (n : Node) : AnalysisM UnionType := do
  match n.kind with
  | .typeHint =>
    match TypeHint.ofCode? n.flags with
    | some hint => return .native hint.native
    | none => unanalyzable n "unknown type hint"
  | .nullableType =>
    match h : n.childNode? "type" with
    | some inner =>
      let u ← declaredType c inner
      types u.withNull
    | none =>
      let _ ← required n "type"
      unanalyzable n "nullable type without a type"
  | .typeUnion =>
    (n.list.filterMap Child.node?).attach.foldlM (fun result m => do
      return result.union (← declaredType c m.1)) UnionType.empty
  | .name =>
    let name ← classOfName c n
    return .of (← types (TypeM.classType name))
  | _ => unanalyzable n "not a type declaration"
termination_by sizeOf n
decreasing_by
  · exact NodeOf.sizeOf_childNode?_lt h
  · exact NodeOf.sizeOf_list_lt m.2

/-- The type that the node in a slot declares; nothing is known without one. -/
def declaredTypeIn (c : Context) (n : Node) (slot : String) : AnalysisM UnionType :=
  match n.childNode? slot with
  | some m => declaredType c m
  | none => pure .empty

end AnalysisM

end UnionInference
