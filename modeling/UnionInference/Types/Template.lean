import UnionInference.Types.Union

/-!
Template placeholders: putting types in their places, finding them, and learning what they stand for
from an argument. Likewise the types that stand for the class the code belongs to.
-/

namespace UnionInference

/-- What template placeholders stand for, each name once. -/
abbrev TemplateMap := List (String × UnionType)

namespace TemplateMap

/-- What a placeholder stands for. -/
def get? (m : TemplateMap) (name : String) : Option UnionType := m.lookup name

/-- Adds types to what a placeholder stands for. -/
def add (m : TemplateMap) (name : String) (u : UnionType) : TemplateMap :=
  match m with
  | [] => [(name, UnionType.empty.union u)]
  | (n, v) :: rest => if n = name then (n, v.union u) :: rest else (n, v) :: add rest name u

/-- Says what a placeholder stands for, in place of what was said before. -/
def put (m : TemplateMap) (name : String) (u : UnionType) : TemplateMap :=
  match m with
  | [] => [(name, u)]
  | (n, v) :: rest => if n = name then (n, u) :: rest else (n, v) :: put rest name u

end TemplateMap

namespace UnionType

/-- The union of what a function makes of each member. -/
def bindMembers (u : UnionType) (f : (a : TypeId) → a ∈ u.members → TypeM UnionType) :
    TypeM UnionType :=
  u.members.attach.foldlM (fun result ⟨a, ha⟩ => do return result.union (← f a ha)) empty

end UnionType

namespace TypeM

set_option linter.unusedVariables false in
/-- Replaces the template placeholders inside a type. One that stands for nothing stays. -/
def substitute (m : TemplateMap) (id : TypeId) : TypeM UnionType := do
  let ⟨ty, below⟩ ← fetchBelow id
  match hk : ty.kind with
  | .template name =>
    match m.get? name with
    | some bound => if ty.nullable then bound.withNull else return bound
    | none => return .of id
  | .array key element =>
    let elements ← substitute m element
    elements.orMixed.mapMembers fun e => array key e ty.nullable
  | .shape fields =>
    let fields ← fields.attach.mapM fun f => do
      let type ← f.1.2.type.bindMembers fun a ha => substitute m a
      return (f.1.1, { f.1.2 with type })
    return .of (← intern (.shape (ShapeFields.ofList fields)) ty.nullable)
  | .object name args =>
    if args.isEmpty then return .of id
    else
      let args ← args.attach.mapM fun arg => arg.1.bindMembers fun a ha => substitute m a
      return .of (← make name.space name.name args ty.nullable)
  | .callable sig =>
    let params ← sig.params.attach.mapM fun p => do
      let type ← p.1.type.bindMembers fun a ha => substitute m a
      return { p.1 with type }
    let result ← sig.result.bindMembers fun a ha => substitute m a
    return .of (← intern (.callable { sig with params, result }) ty.nullable)
  | _ => return .of id
termination_by id
decreasing_by
  · exact below _ (by simp [hk, TypeKind.embedded])
  · exact below _ (by
      simp only [hk, TypeKind.embedded, List.mem_flatMap]; exact ⟨f.1, f.2, ha⟩)
  · exact below _ (by
      simp only [hk, TypeKind.embedded, List.mem_flatMap]; exact ⟨arg.1, arg.2, ha⟩)
  · exact below _ (by
      simp only [hk, TypeKind.embedded, List.mem_append, List.mem_flatMap]
      exact .inl ⟨p.1, p.2, ha⟩)
  · exact below _ (by
      simp only [hk, TypeKind.embedded, List.mem_append]; exact .inr ha)

set_option linter.unusedVariables false in
/-- Replaces the types that stand for the class the code belongs to by the type of a class. -/
def resolveStatic (owner : TypeId) (id : TypeId) : TypeM TypeId := do
  let ⟨ty, below⟩ ← fetchBelow id
  if ty.isStaticLike then withNull owner ty.nullable
  else
    match hk : ty.kind with
    | .array key element =>
      let element ← resolveStatic owner element
      array key element ty.nullable
    | .shape fields =>
      let fields ← fields.attach.mapM fun f => do
        let members ← f.1.2.type.members.attach.mapM fun a => resolveStatic owner a.1
        return (f.1.1, { f.1.2 with type := UnionType.ofList members })
      intern (.shape (ShapeFields.ofList fields)) ty.nullable
    | _ => return id
termination_by id
decreasing_by
  · exact below _ (by simp [hk, TypeKind.embedded])
  · exact below _ (by
      simp only [hk, TypeKind.embedded, List.mem_flatMap]; exact ⟨f.1, f.2, a.2⟩)

set_option linter.unusedVariables false in
/-- Learns what the placeholders of a declared type stand for when a value of the actual types is
passed for it. -/
def bindType (actual : UnionType) (m : TemplateMap) (declared : TypeId) : TypeM TemplateMap := do
  if actual.isEmpty then return m
  else
    let ⟨ty, below⟩ ← fetchBelow declared
    match hk : ty.kind with
    | .template name =>
      let bound ← (← actual.widenLiterals).withoutNull
      return m.add name bound
    | .array _ element =>
      let elements ← (← query actual.elementTypes).widenLiterals
      bindType elements m element
    | .object name params =>
      if params.isEmpty then return m
      else
        actual.members.foldlM (fun m candidate => do
          match (← fetch candidate).kind with
          | .object other args =>
            if other.sameClass name then
              (params.attach.zip args).foldlM (fun m p =>
                p.1.1.members.attach.foldlM (fun m d => bindType p.2 m d.1) m) m
            else return m
          | _ => return m) m
    | _ => return m
termination_by declared
decreasing_by
  · exact below _ (by simp [hk, TypeKind.embedded])
  · exact below _ (by
      simp only [hk, TypeKind.embedded, List.mem_flatMap]; exact ⟨p.1.1, p.1.2, d.2⟩)

end TypeM

namespace TypeTable

/-- Adds a name unless the list has it. -/
def addName (names : List String) (name : String) : List String :=
  if names.contains name then names else names ++ [name]

set_option linter.unusedVariables false in
/-- Adds the template placeholders anywhere inside a type to those found so far. -/
def collectTemplates (t : TypeTable) (found : List String) (id : TypeId) :
    Checked (List String) := do
  let ⟨ty, below⟩ ← t.fetchBelow id
  match ty.kind with
  | .template name => return addName found name
  | _ => ty.kind.embedded.attach.foldlM (fun found e => t.collectTemplates found e.1) found
termination_by id
decreasing_by exact below _ e.2

end TypeTable

namespace UnionType

/-- Replaces the template placeholders inside the members. -/
def substitute (u : UnionType) (m : TemplateMap) : TypeM UnionType :=
  if m.isEmpty then pure u else u.bindMembers fun a _ => TypeM.substitute m a

/-- The template placeholders inside the members, in the order in which they are met. -/
def templateNames (u : UnionType) (t : TypeTable) : Checked (List String) :=
  u.members.foldlM t.collectTemplates []

/-- Replaces the types that stand for the class the code belongs to. -/
def resolveStatic (u : UnionType) (owner : ClassName) : TypeM UnionType := do
  let ownerType ← TypeM.classType owner
  u.mapMembers (TypeM.resolveStatic ownerType)

/-- Learns what placeholders stand for when values of the actual types are passed for the declared
ones. -/
def bindTemplates (declared actual : UnionType) (m : TemplateMap) : TypeM TemplateMap :=
  declared.members.foldlM (TypeM.bindType actual) m

end UnionType

end UnionInference
