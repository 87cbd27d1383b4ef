import UnionInference.Proofs.Types.Cursor

/-!
The grammar by bytes. The cursor reads types as the reader of characters does, with loops that get
stuck if they run more often than there are bytes. Whatever is read, at any depth, both have the
same outcome from every place between two characters; so the cursor, which starts at one, never gets
stuck.
-/

namespace UnionInference

namespace TypeParser

namespace Cursor

/-! ### Literals and lists -/

/-- An integer literal. -/
def intLiteral (src : Source) : CursorM UnionType := do
  let literal ← takeWhile src isNumeralChar
  match Text.integer? literal with
  | some n => return .of (← types (TypeM.intern (.intLiteral n) false))
  | none => fail (.invalidLiteral src.input (String.ofList literal))

/-- Further members after a bar, added to those read so far. -/
def moreMembers (src : Source) (member : CursorM UnionType) : Nat → UnionType → CursorM UnionType
  | 0, _ => stuck
  | n + 1, u => do
    if ← eat src '|' then moreMembers src member n (u.union (← member)) else return u

/-- Members divided by bars. -/
def alternatives (src : Source) (member : CursorM UnionType) : CursorM UnionType := do
  let first ← member
  moreMembers src member (rounds src) first

/-- Further unions after a comma. -/
def moreUnions (src : Source) (union : CursorM UnionType) : Nat → CursorM (List UnionType)
  | 0 => stuck
  | n + 1 => do
    if ← eat src ',' then
      let u ← union
      return u :: (← moreUnions src union n)
    else return []

/-- Unions divided by commas, up to the closing bracket. -/
def typeList (src : Source) (union : CursorM UnionType) : CursorM (List UnionType) := do
  let first ← union
  let rest ← moreUnions src union (rounds src)
  expect src '>'
  return first :: rest

/-- Array types of all members. -/
def arraysOf (u : UnionType) (key : KeyKind) : CursorM UnionType := types (u.asArrays key)

/-- An array type, from its opening bracket on. -/
def genericArray (src : Source) (union : CursorM UnionType) : CursorM UnionType := do
  advance 1
  let list ← typeList src union
  let key :=
    match list with
    | first :: _ :: _ =>
      if first.isOnly NativeKind.int.id then KeyKind.int
      else if first.isOnly NativeKind.string.id then .string
      else .mixed
    | _ => .mixed
  arraysOf (list.getLast?.getD .empty) key

/-! ### Shapes and callable types -/

/-- The key of a field. -/
def fieldKey (src : Source) : CursorM ShapeKey := do
  skipSpace src
  match ← peek src with
  | some '\'' => return .ofText (← quotedText src)
  | some _ =>
    let raw ← takeWhile src isKeyChar
    if raw.isEmpty then unexpectedNext src else return .ofText (String.ofList raw)
  | none => fail (.unexpectedEnd src.input)

/-- The fields of a shape from the first one on, stored after those read so far. -/
def fields (src : Source) (union : CursorM UnionType) : Nat → ShapeFields → CursorM ShapeFields
  | 0, _ => stuck
  | n + 1, found => do
    let key ← fieldKey src
    let optional ← eat src '?'
    expect src ':'
    let type ← union
    let found := ShapeFields.insert found key { type, optional }
    if ← eat src '\x7d' then return found
    else
      expect src ','
      fields src union n found

/-- A shape, from its opening brace on. -/
def shape (src : Source) (union : CursorM UnionType) : CursorM UnionType := do
  advance 1
  let found ← if ← eat src '\x7d' then pure [] else fields src union (rounds src) []
  return .of (← types (TypeM.intern (.shape found) false))

/-- The name that a parameter may have. -/
def paramName (src : Source) : CursorM Unit := do
  skipSpace src
  if (← peek src) = some '$' then
    advance 1
    let _ ← takeWhile src ShapeKey.isWordChar

/-- The parameters of a callable from the first one on. -/
def params (src : Source) (union : CursorM UnionType) : Nat → CursorM (List CallableParam)
  | 0 => stuck
  | n + 1 => do
    let byRef ← eat src '&'
    let type ← union
    let variadic ← eatText src ['.', '.', '.']
    paramName src
    let optional ← eat src '='
    let param : CallableParam := { type, byRef, variadic, optional }
    if ← eat src ')' then return [param]
    else
      expect src ','
      return param :: (← params src union n)

/-- A callable, from its opening bracket on. -/
def callable (src : Source) (isClosure : Bool) (union member : CursorM UnionType) :
    CursorM UnionType := do
  advance 1
  let params ← if ← eat src ')' then pure [] else params src union (rounds src)
  let result ← if ← eat src ':' then member else pure .empty
  return .of (← types (TypeM.intern (.callable { isClosure, params, result }) false))

/-! ### The grammar -/

/-- How unions and members are read inside a number of brackets. -/
structure Grammar where
  union : CursorM UnionType
  member : CursorM UnionType

/-- Complains that brackets nest too deeply. -/
def tooDeep {α : Type} (src : Source) : CursorM α := fail (.tooDeep src.input maxDepth)

/-- A class type with the arguments that follow its name. -/
def classType (src : Source) (union : CursorM UnionType) (name : List Char) :
    CursorM UnionType := do
  if isBadClassName name then fail (.invalidName src.input (String.ofList name))
  else
    let owner :=
      if (name.head?.map isSeparator).getD false then
        QualifiedName.ofFullName (String.ofList name)
      else src.names.resolveClass (String.ofList name)
    let args ← if ← eat src '<' then typeList src union else pure []
    return .of (← types (TypeM.make owner.space owner.name args false))

/-- A built-in type, a template placeholder or a class. -/
def plainName (src : Source) (union : CursorM UnionType) (name : List Char) :
    CursorM UnionType := do
  let text := String.ofList name
  if (name.head?.map isSeparator).getD false then classType src union name
  else
    match NativeKind.ofName? text with
    | some .self =>
      match src.names.selfClass with
      | some owner => return .of (← types (TypeM.classType owner))
      | none => return .native .self
    | some k => return .native k
    | none =>
      if src.names.isTemplate text then return .of (← types (TypeM.template text))
      else classType src union name

/-- What starts with a name. -/
def named (src : Source) (union : CursorM UnionType) (inner : Option Grammar) :
    CursorM UnionType := do
  let name ← name src
  match Text.fold (String.ofList name), ← peek src with
  | "array", some '\x7b' =>
    match inner with
    | some g => shape src g.union
    | none => tooDeep src
  | "array", some '<' => genericArray src union
  | "closure", some '(' | "\\closure", some '(' =>
    match inner with
    | some g => callable src true g.union g.member
    | none => tooDeep src
  | "callable", some '(' =>
    match inner with
    | some g => callable src false g.union g.member
    | none => tooDeep src
  | _, _ => plainName src union name

/-- A member without marks. -/
def atom (src : Source) (union : CursorM UnionType) (inner : Option Grammar) :
    CursorM UnionType := do
  skipSpace src
  match ← peek src with
  | none => fail (.unexpectedEnd src.input)
  | some b =>
    if b = '(' then
      advance 1
      let u ← union
      expect src ')'
      return u
    else if b = '\'' then
      return .of (← types (TypeM.intern (.stringLiteral (← quotedText src)) false))
    else if isNumeralChar b then intLiteral src
    else if isNameStart b then named src union inner
    else unexpectedNext src

/-- The pairs of square brackets after an atom. -/
def arraySuffixes (src : Source) : Nat → UnionType → CursorM UnionType
  | 0, _ => stuck
  | n + 1, u => do
    if ← eatText src ['[', ']'] then arraySuffixes src n (← arraysOf u .mixed) else return u

/-- A member with its marks. -/
def memberWith (src : Source) (union : CursorM UnionType) (inner : Option Grammar) :
    CursorM UnionType := do
  let nullable ← eat src '?'
  let u ← atom src union inner
  let u ← arraySuffixes src (rounds src) u
  if nullable then types u.withNull else return u

/-- The grammar with a number of levels left. -/
def grammar (src : Source) : Nat → Grammar
  | 0 => { union := tooDeep src, member := memberWith src (tooDeep src) none }
  | n + 1 =>
    let inner := grammar src n
    let union := alternatives src inner.member
    { union, member := memberWith src union (some inner) }

/-- A union that makes up the whole text. -/
def whole (src : Source) : CursorM UnionType := do
  let u ← (grammar src maxDepth).union
  skipSpace src
  match ← peekChar src with
  | none => return u
  | some found => unexpected src found

/-- Reads a union from the first byte on. There is no outcome where the cursor gets stuck. -/
def parse (names : NameResolver) (input : String) :
    OptionT TypeM (Except TypeParseError UnionType) :=
  if Text.isBlank input then pure (.ok .empty)
  else do
    let result ← ((whole ⟨names, input⟩).run 0).run
    return result.map Prod.fst

end Cursor

/-! ### Agreement -/

section

variable {src : Source} {α : Type} {before cs : List Char}

/-- From every place between two characters the cursor has the outcome that reading has. -/
def Tracks (src : Source) (q : CursorM α) (p : ParseM α) : Prop :=
  ∀ before cs, Agrees src q p before cs

/-- There are more rounds than characters left. -/
theorem Agrees.of_lt_rounds {q : CursorM α} {p : ParseM α}
    (h : cs.length < Cursor.rounds src → Agrees src q p before cs) : Agrees src q p before cs := by
  intro hsrc
  refine h ?_ hsrc
  have := length_le_byteSize cs
  rw [Cursor.rounds, bytes_eq, hsrc, ← byteSize_eq_length, byteSize_append]
  omega

/-- A type that is made is read as the union of that type. -/
theorem agrees_of_types (work : TypeM TypeId) :
    Agrees src (Cursor.types work >>= fun i => pure (UnionType.of i))
      (types work >>= fun i => pure (UnionType.of i)) before cs :=
  Agrees.bind (agrees_types work) fun _ _ _ _ => agrees_pure _

theorem agrees_intLiteral : Agrees src (Cursor.intLiteral src) (intLiteral src) before cs := by
  rw [Cursor.intLiteral, intLiteral]
  refine Agrees.bind (agrees_takeWhile bytewise_isNumeralChar) fun literal _ _ _ => ?_
  cases Text.integer? literal with
  | some n => exact agrees_of_types _
  | none => exact agrees_fail rfl

section

variable {union : ParseM UnionType} {cursorUnion : CursorM UnionType}
  {member : ParseM UnionType} {cursorMember : CursorM UnionType}

theorem agrees_moreMembers (hm : Tracks src cursorMember member) (k : Nat) :
    ∀ {n : Nat} {u : UnionType} {before cs : List Char}, cs.length < k → cs.length ≤ n →
      Agrees src (Cursor.moreMembers src cursorMember k u) (moreMembers member n u) before cs := by
  induction k with
  | zero => exact fun hk _ => absurd hk (Nat.not_lt_zero _)
  | succ k ih =>
    intro n u before cs hk hn
    have hstep : ∀ n, cs.length ≤ n + 1 → Agrees src (Cursor.moreMembers src cursorMember (k + 1) u)
        (moreMembers member (n + 1) u) before cs := by
      intro n hn
      rw [Cursor.moreMembers, moreMembers]
      refine Agrees.eat (by decide) fun found passed rest _ hlen => ?_
      cases found with
      | false => exact agrees_pure u
      | true =>
        refine Agrees.bind (hm _ _) fun v passed' rest' hrest => ?_
        have hle : rest'.length ≤ rest.length := by rw [hrest, List.length_append]; omega
        have hlt := hlen rfl
        exact ih (by omega) (by omega)
    cases n with
    | zero =>
      obtain rfl := List.length_eq_zero_iff.1 (Nat.le_zero.1 hn)
      exact hstep 0 (Nat.zero_le _)
    | succ n => exact hstep n hn

theorem tracks_alternatives (hm : Tracks src cursorMember member) :
    Tracks src (Cursor.alternatives src cursorMember) (alternatives member) := by
  intro before cs
  rw [Cursor.alternatives, alternatives]
  refine Agrees.bind (hm _ _) fun u passed rest _ => Agrees.afterReader (fun _ => gives_get) ?_
  exact Agrees.of_lt_rounds fun hlt => agrees_moreMembers hm _ hlt (Nat.le_refl _)

theorem agrees_moreUnions (hu : Tracks src cursorUnion union) (k : Nat) :
    ∀ {n : Nat} {before cs : List Char}, cs.length < k → cs.length ≤ n →
      Agrees src (Cursor.moreUnions src cursorUnion k) (moreUnions union n) before cs := by
  induction k with
  | zero => exact fun hk _ => absurd hk (Nat.not_lt_zero _)
  | succ k ih =>
    intro n before cs hk hn
    have hstep : ∀ n, cs.length ≤ n + 1 → Agrees src (Cursor.moreUnions src cursorUnion (k + 1))
        (moreUnions union (n + 1)) before cs := by
      intro n hn
      rw [Cursor.moreUnions, moreUnions]
      refine Agrees.eat (by decide) fun found passed rest _ hlen => ?_
      cases found with
      | false => exact agrees_pure []
      | true =>
        refine Agrees.bind (hu _ _) fun v passed' rest' hrest => ?_
        have hle : rest'.length ≤ rest.length := by rw [hrest, List.length_append]; omega
        have hlt := hlen rfl
        exact Agrees.bind (ih (by omega) (by omega)) fun _ _ _ _ => agrees_pure _
    cases n with
    | zero =>
      obtain rfl := List.length_eq_zero_iff.1 (Nat.le_zero.1 hn)
      exact hstep 0 (Nat.zero_le _)
    | succ n => exact hstep n hn

theorem agrees_typeList (hu : Tracks src cursorUnion union) :
    Agrees src (Cursor.typeList src cursorUnion) (typeList src union) before cs := by
  rw [Cursor.typeList, typeList]
  refine Agrees.bind (hu _ _) fun u passed rest _ => Agrees.afterReader (fun _ => gives_get) ?_
  refine Agrees.bind (Agrees.of_lt_rounds fun hlt => agrees_moreUnions hu _ hlt (Nat.le_refl _)) ?_
  exact fun us _ _ _ => Agrees.expect (by decide) fun _ _ _ _ => agrees_pure _

theorem agrees_arraysOf (u : UnionType) (key : KeyKind) :
    Agrees src (Cursor.arraysOf u key) (arraysOf u key) before cs := agrees_types _

theorem agrees_genericArray (hu : Tracks src cursorUnion union) (hcs : cs.head? = some '<') :
    Agrees src (Cursor.genericArray src cursorUnion) (genericArray src union) before cs := by
  obtain ⟨ds, rfl⟩ := List.head?_eq_some_iff.1 hcs
  rw [Cursor.genericArray, genericArray]
  refine Agrees.bind (agrees_advance (by decide) rfl) fun _ _ _ _ => ?_
  exact Agrees.bind (agrees_typeList hu) fun _ _ _ _ => agrees_arraysOf _ _

theorem agrees_fieldKey : Agrees src (Cursor.fieldKey src) (fieldKey src) before cs := by
  have hbare : ∀ {before cs : List Char}, cs ≠ [] → Agrees src
      (do
        let raw ← Cursor.takeWhile src isKeyChar
        if raw.isEmpty then Cursor.unexpectedNext src
        else return ShapeKey.ofText (String.ofList raw))
      (do
        let raw ← takeWhile isKeyChar
        if raw.isEmpty then unexpected src
        else return ShapeKey.ofText (String.ofList raw)) before cs := by
    intro before cs hne
    refine Agrees.step List.takeWhile_append_dropWhile.symm
      (fun hsrc _ => Cursor.moves_takeWhile bytewise_isKeyChar hsrc) (fun _ => rfl) ?_
    split
    · next hempty =>
      refine agrees_unexpectedNext fun hnil => hne ?_
      rw [← List.takeWhile_append_dropWhile (p := isKeyChar) (l := cs), hnil,
        List.isEmpty_iff.1 hempty]
      rfl
    · exact agrees_pure _
  rw [Cursor.fieldKey, fieldKey]
  refine Agrees.bind agrees_skipSpace fun _ passed rest _ => Agrees.peek ?_
  cases rest with
  | nil => exact agrees_fail rfl
  | cons c ds =>
    by_cases hc : c = '\''
    · subst hc
      exact Agrees.bind (agrees_quotedText rfl) fun _ _ _ _ => agrees_pure _
    · have hface : face c ≠ '\'' := fun h => hc ((face_eq_iff (by decide)).1 h)
      simp only [List.head?_cons, Option.map_some]
      exact hbare (List.cons_ne_nil c ds)

theorem length_le_of_eq_append {cs passed rest : List Char} (h : cs = passed ++ rest) :
    rest.length ≤ cs.length := by
  rw [h, List.length_append]
  exact Nat.le_add_left _ _

theorem agrees_fields (hu : Tracks src cursorUnion union) (k : Nat) :
    ∀ {n : Nat} {found : ShapeFields} {before cs : List Char}, cs.length < k → cs.length < n →
      Agrees src (Cursor.fields src cursorUnion k found) (fields src union n found) before cs := by
  induction k with
  | zero => exact fun hk _ => absurd hk (Nat.not_lt_zero _)
  | succ k ih =>
    intro n found before cs hk hn
    obtain ⟨n, rfl⟩ := Nat.exists_eq_add_of_lt ((Nat.zero_le _).trans_lt hn)
    rw [Nat.zero_add, Cursor.fields, fields]
    refine Agrees.bind agrees_fieldKey fun key _ r₁ h₁ => ?_
    refine Agrees.eat (by decide) fun optional _ r₂ h₂ _ => ?_
    refine Agrees.expect (by decide) fun _ r₃ _ hlt₃ => ?_
    refine Agrees.bind (hu _ _) fun type _ r₄ h₄ => ?_
    refine Agrees.eat (by decide) fun closed _ r₅ h₅ _ => ?_
    cases closed with
    | true => exact agrees_pure _
    | false =>
      refine Agrees.expect (by decide) fun _ r₆ _ hlt₆ => ?_
      have h₁ := length_le_of_eq_append h₁
      have h₂ := length_le_of_eq_append h₂
      have h₄ := length_le_of_eq_append h₄
      have h₅ := length_le_of_eq_append h₅
      exact ih (by omega) (by omega)

theorem agrees_shape (hu : Tracks src cursorUnion union) (hcs : cs.head? = some '\x7b') :
    Agrees src (Cursor.shape src cursorUnion) (shape src union) before cs := by
  obtain ⟨ds, rfl⟩ := List.head?_eq_some_iff.1 hcs
  rw [Cursor.shape, shape]
  refine Agrees.bind (agrees_advance (by decide) rfl) fun _ _ _ _ => ?_
  refine Agrees.eat (by decide) fun closed _ rest _ _ => ?_
  cases closed with
  | true => exact Agrees.bind (agrees_pure []) fun _ _ _ _ => agrees_of_types _
  | false =>
    refine Agrees.afterReader (fun _ => gives_get) (Agrees.bind ?_ fun _ _ _ _ => agrees_of_types _)
    exact Agrees.of_lt_rounds fun hlt => agrees_fields hu _ hlt (Nat.lt_succ_self _)

theorem agrees_paramName : Agrees src (Cursor.paramName src) paramName before cs := by
  rw [Cursor.paramName, paramName]
  refine Agrees.bind agrees_skipSpace fun _ _ rest _ => Agrees.peek ?_
  by_cases hhead : rest.head? = some '$'
  · obtain ⟨ds, rfl⟩ := List.head?_eq_some_iff.1 hhead
    rw [if_pos ((map_face_head?_eq_iff (by decide)).2 hhead)]
    refine Agrees.bind (agrees_advance (by decide) rfl) fun _ _ _ _ => ?_
    exact Agrees.bind (agrees_takeWhile bytewise_isWordChar) fun _ _ _ _ => agrees_pure _
  · rw [if_neg fun h => hhead ((map_face_head?_eq_iff (by decide)).1 h)]
    split
    · next heq => exact absurd heq hhead
    · exact agrees_pure _

theorem agrees_params (hu : Tracks src cursorUnion union) (k : Nat) :
    ∀ {n : Nat} {before cs : List Char}, cs.length < k → cs.length < n →
      Agrees src (Cursor.params src cursorUnion k) (params src union n) before cs := by
  induction k with
  | zero => exact fun hk _ => absurd hk (Nat.not_lt_zero _)
  | succ k ih =>
    intro n before cs hk hn
    obtain ⟨n, rfl⟩ := Nat.exists_eq_add_of_lt ((Nat.zero_le _).trans_lt hn)
    rw [Nat.zero_add, Cursor.params, params]
    refine Agrees.eat (by decide) fun byRef _ r₁ h₁ _ => ?_
    refine Agrees.bind (hu _ _) fun type _ r₂ h₂ => ?_
    refine Agrees.eatText (by decide) fun variadic _ r₃ h₃ _ => ?_
    refine Agrees.bind agrees_paramName fun _ _ r₄ h₄ => ?_
    refine Agrees.eat (by decide) fun optional _ r₅ h₅ _ => ?_
    refine Agrees.eat (by decide) fun closed _ r₆ h₆ _ => ?_
    cases closed with
    | true => exact agrees_pure _
    | false =>
      refine Agrees.expect (by decide) fun _ r₇ _ hlt₇ => ?_
      have h₁ := length_le_of_eq_append h₁
      have h₂ := length_le_of_eq_append h₂
      have h₃ := length_le_of_eq_append h₃
      have h₄ := length_le_of_eq_append h₄
      have h₅ := length_le_of_eq_append h₅
      have h₆ := length_le_of_eq_append h₆
      exact Agrees.bind (ih (by omega) (by omega)) fun _ _ _ _ => agrees_pure _

theorem agrees_callable (hu : Tracks src cursorUnion union) (hm : Tracks src cursorMember member)
    (isClosure : Bool) (hcs : cs.head? = some '(') :
    Agrees src (Cursor.callable src isClosure cursorUnion cursorMember)
      (callable src isClosure union member) before cs := by
  obtain ⟨ds, rfl⟩ := List.head?_eq_some_iff.1 hcs
  have hend : ∀ {before cs : List Char} (ps : List CallableParam), Agrees src
      (do
        let result ← if ← Cursor.eat src ':' then cursorMember else pure .empty
        return UnionType.of
          (← Cursor.types (TypeM.intern (.callable ⟨isClosure, ps, result⟩) false)))
      (do
        let result ← if ← eat [':'] then member else pure .empty
        return UnionType.of
          (← types (TypeM.intern (.callable ⟨isClosure, ps, result⟩) false))) before cs := by
    intro before cs ps
    refine Agrees.eat (by decide) fun found _ _ _ _ => ?_
    cases found with
    | true => exact Agrees.bind (hm _ _) fun _ _ _ _ => agrees_of_types _
    | false => exact Agrees.bind (agrees_pure _) fun _ _ _ _ => agrees_of_types _
  rw [Cursor.callable, callable]
  refine Agrees.bind (agrees_advance (by decide) rfl) fun _ _ _ _ => ?_
  refine Agrees.eat (by decide) fun closed _ rest _ _ => ?_
  cases closed with
  | true => exact Agrees.bind (agrees_pure []) fun ps _ _ _ => hend ps
  | false =>
    refine Agrees.afterReader (fun _ => gives_get) (Agrees.bind ?_ fun ps _ _ _ => hend ps)
    exact Agrees.of_lt_rounds fun hlt => agrees_params hu _ hlt (Nat.lt_succ_self _)

end

/-! ### The grammar -/

section

variable {union : ParseM UnionType} {cursorUnion : CursorM UnionType}
  {inner : Option Grammar} {cursorInner : Option Cursor.Grammar}

theorem agrees_classType (hu : Tracks src cursorUnion union) (name : List Char) :
    Agrees src (Cursor.classType src cursorUnion name) (classType src union name) before cs := by
  rw [Cursor.classType, classType]
  split
  · exact agrees_fail rfl
  · refine Agrees.eat (by decide) fun found _ _ _ _ => ?_
    cases found with
    | true => exact Agrees.bind (agrees_typeList hu) fun _ _ _ _ => agrees_of_types _
    | false => exact Agrees.bind (agrees_pure []) fun _ _ _ _ => agrees_of_types _

theorem agrees_plainName (hu : Tracks src cursorUnion union) (name : List Char) :
    Agrees src (Cursor.plainName src cursorUnion name) (plainName src union name) before cs := by
  rw [Cursor.plainName, plainName]
  split
  · exact agrees_classType hu name
  · cases NativeKind.ofName? (String.ofList name) with
    | none =>
      simp only
      split
      · exact agrees_of_types _
      · exact agrees_classType hu name
    | some k =>
      by_cases hk : k = .self
      · subst hk
        cases src.names.selfClass with
        | some owner => exact agrees_of_types _
        | none => exact agrees_pure _
      · cases k <;> first | exact absurd rfl hk | exact agrees_pure _

/-- Inside of brackets of their own, if any more may stand there, the cursor reads the same. -/
def Tracked (src : Source) : Option Cursor.Grammar → Option Grammar → Prop
  | none, none => True
  | some h, some g => Tracks src h.union g.union ∧ Tracks src h.member g.member
  | _, _ => False

theorem agrees_tooDeep : Agrees src (Cursor.tooDeep (α := α) src) (tooDeep src) before cs :=
  agrees_fail rfl

/-- What stands in brackets of its own is read the same, or is refused. -/
theorem agrees_inner (q : Cursor.Grammar → CursorM UnionType) (p : Grammar → ParseM UnionType) :
    Tracked src cursorInner inner → (∀ h g, Tracks src h.union g.union →
      Tracks src h.member g.member → Agrees src (q h) (p g) before cs) →
    Agrees src (match cursorInner with | some g => q g | none => Cursor.tooDeep src)
      (match inner with | some g => p g | none => tooDeep src) before cs := by
  intro hi hqp
  cases cursorInner <;> cases inner
  · exact agrees_tooDeep
  · exact hi.elim
  · exact hi.elim
  · exact hqp _ _ hi.1 hi.2

/-- A signature starts with a bracket, and is read the same inside of it. -/
theorem agrees_signature (isClosure : Bool) (hcs : cs.head? = some '(') :
    Tracked src cursorInner inner → Agrees src
      (match cursorInner with
        | some g => Cursor.callable src isClosure g.union g.member
        | none => Cursor.tooDeep src)
      (match inner with
        | some g => callable src isClosure g.union g.member
        | none => tooDeep src) before cs := fun hi =>
  agrees_inner (fun g => Cursor.callable src isClosure g.union g.member)
    (fun g => callable src isClosure g.union g.member) hi
    fun _ _ hu hm => agrees_callable hu hm isClosure hcs

theorem agrees_named (hu : Tracks src cursorUnion union) (hi : Tracked src cursorInner inner) :
    Agrees src (Cursor.named src cursorUnion cursorInner) (named src union inner) before cs := by
  rw [Cursor.named.eq_def, named.eq_def]
  refine Agrees.bind agrees_name fun w _ rest _ => Agrees.peek ?_
  generalize Text.fold (String.ofList w) = word
  -- only brackets are looked for, and they are in ASCII
  have hnext {c : Char} (hc : c.toNat < 128) :
      rest.head?.map face = some c ↔ rest.head? = some c := map_face_head?_eq_iff hc
  split
  · next heq =>
    have ho : rest.head? = some '\x7b' := (hnext (by decide)).1 heq
    rw [ho]
    exact agrees_inner (fun g => Cursor.shape src g.union) (fun g => shape src g.union) hi
      fun h g hu _ => agrees_shape hu ho
  · next heq =>
    have ho : rest.head? = some '<' := (hnext (by decide)).1 heq
    rw [ho]
    exact agrees_genericArray hu ho
  · next heq =>
    have ho : rest.head? = some '(' := (hnext (by decide)).1 heq
    rw [ho]
    exact agrees_signature true ho hi
  · next heq =>
    have ho : rest.head? = some '(' := (hnext (by decide)).1 heq
    rw [ho]
    exact agrees_signature true ho hi
  · next heq =>
    have ho : rest.head? = some '(' := (hnext (by decide)).1 heq
    rw [ho]
    exact agrees_signature false ho hi
  · next hshape harray hclosure hrooted hcallable =>
    split
    · exact (hshape rfl ((hnext (by decide)).2 ‹_›)).elim
    · exact (harray rfl ((hnext (by decide)).2 ‹_›)).elim
    · exact (hclosure rfl ((hnext (by decide)).2 ‹_›)).elim
    · exact (hrooted rfl ((hnext (by decide)).2 ‹_›)).elim
    · exact (hcallable rfl ((hnext (by decide)).2 ‹_›)).elim
    · exact agrees_plainName hu w

theorem agrees_atom (hu : Tracks src cursorUnion union) (hi : Tracked src cursorInner inner) :
    Agrees src (Cursor.atom src cursorUnion cursorInner) (atom src union inner) before cs := by
  rw [Cursor.atom, atom]
  refine Agrees.bind agrees_skipSpace fun _ _ rest _ => Agrees.peek ?_
  cases rest with
  | nil => exact agrees_fail rfl
  | cons c ds =>
    simp only [List.head?_cons, Option.map_some, face_eq_iff (d := '(') (by decide),
      face_eq_iff (d := '\'') (by decide), bytewise_isNumeralChar.face, bytewise_isNameStart.face]
    split_ifs with hparen hquote
    · subst hparen
      refine Agrees.bind (agrees_advance (by decide) rfl) fun _ _ _ _ => ?_
      refine Agrees.bind (hu _ _) fun u _ _ _ => ?_
      exact Agrees.expect (by decide) fun _ _ _ _ => agrees_pure u
    · subst hquote
      exact Agrees.bind (agrees_quotedText rfl) fun _ _ _ _ => agrees_of_types _
    · exact agrees_intLiteral
    · exact agrees_named hu hi
    · exact agrees_unexpectedNext (List.cons_ne_nil c ds)

theorem agrees_arraySuffixes (k : Nat) : ∀ {n : Nat} {u : UnionType} {before cs : List Char},
    cs.length < k → cs.length ≤ n →
      Agrees src (Cursor.arraySuffixes src k u) (arraySuffixes n u) before cs := by
  induction k with
  | zero => exact fun hk _ => absurd hk (Nat.not_lt_zero _)
  | succ k ih =>
    intro n u before cs hk hn
    have hstep : ∀ n, cs.length ≤ n + 1 → Agrees src (Cursor.arraySuffixes src (k + 1) u)
        (arraySuffixes (n + 1) u) before cs := by
      intro n hn
      rw [Cursor.arraySuffixes, arraySuffixes]
      refine Agrees.eatText (by decide) fun found _ rest _ hlen => ?_
      cases found with
      | false => exact agrees_pure u
      | true =>
        refine Agrees.bind (agrees_arraysOf u .mixed) fun v _ rest' hrest => ?_
        have hle := length_le_of_eq_append hrest
        have hlt := hlen rfl
        exact ih (by omega) (by omega)
    cases n with
    | zero =>
      obtain rfl := List.length_eq_zero_iff.1 (Nat.le_zero.1 hn)
      exact hstep 0 (Nat.zero_le _)
    | succ n => exact hstep n hn

theorem tracks_memberWith (hu : Tracks src cursorUnion union) (hi : Tracked src cursorInner inner) :
    Tracks src (Cursor.memberWith src cursorUnion cursorInner) (memberWith src union inner) := by
  intro before cs
  rw [Cursor.memberWith, memberWith]
  refine Agrees.eat (by decide) fun nullable _ _ _ _ => ?_
  refine Agrees.bind (agrees_atom hu hi) fun u _ rest _ => ?_
  refine Agrees.afterReader (fun _ => gives_get) (Agrees.bind ?_ fun v _ _ _ => ?_)
  · exact Agrees.of_lt_rounds fun hlt => agrees_arraySuffixes _ hlt (Nat.le_refl _)
  · cases nullable with
    | true => exact agrees_types _
    | false => exact agrees_pure v

/-- Inside of any number of brackets the cursor reads what is read by characters. -/
theorem tracks_grammar (src : Source) (n : Nat) :
    Tracks src (Cursor.grammar src n).union (grammar src n).union ∧
      Tracks src (Cursor.grammar src n).member (grammar src n).member := by
  induction n with
  | zero =>
    have hdeep : Tracks src (Cursor.tooDeep src) (tooDeep (α := UnionType) src) := fun _ _ =>
      agrees_tooDeep
    exact ⟨hdeep, tracks_memberWith hdeep trivial⟩
  | succ n ih =>
    have hunion := tracks_alternatives ih.2
    exact ⟨hunion, tracks_memberWith hunion ih⟩

theorem agrees_whole : Agrees src (Cursor.whole src) (whole src) before cs := by
  rw [Cursor.whole, whole]
  refine Agrees.bind ((tracks_grammar src maxDepth).1 _ _) fun u _ _ _ => ?_
  refine Agrees.bind agrees_skipSpace fun _ _ rest _ => ?_
  refine Agrees.afterCursor (fun hsrc _ => Cursor.moves_peekChar hsrc)
    (Agrees.afterReader (fun _ => gives_get) ?_)
  cases rest with
  | nil => exact agrees_pure u
  | cons c ds =>
    rw [List.isEmpty_cons, if_neg Bool.false_ne_true]
    intro hsrc t
    rw [unexpected_eq hsrc]
    exact .complaint ⟨rfl, _, ds, hsrc, rfl⟩

end

end

end TypeParser

namespace UnionType

open TypeParser

/-- Reading by bytes has the outcome that reading by characters has, and does not get stuck; an
error tells a true place. -/
theorem cursor_of_parse {names : NameResolver} {input : String} {t t' : TypeTable}
    {r : Except TypeParseError UnionType} (h : parse names input t = .ok (r, t')) :
    Cursor.parse names input t = .ok (some r, t') ∧ ∀ e, r = .error e → Located input e := by
  rw [parse] at h
  cases hblank : Text.isBlank input with
  | true =>
    rw [hblank] at h
    cases h
    refine ⟨?_, fun e he => by cases he⟩
    rw [Cursor.parse, hblank]
    rfl
  | false =>
    rw [hblank, if_neg Bool.false_ne_true] at h
    obtain ⟨result, t₁, hwhole, h⟩ := TypeM.bind_eq_ok.1 h
    cases h
    have hsame : Same ⟨names, input⟩ [] input.toList
        (Cursor.whole ⟨names, input⟩ (byteSize []) t) (whole ⟨names, input⟩ input.toList t) :=
      agrees_whole rfl t
    rw [show whole ⟨names, input⟩ input.toList t = .ok (result, t') from hwhole] at hsame
    generalize hq : Cursor.whole ⟨names, input⟩ (byteSize []) t = x at hsame
    cases hsame with
    | complaint he =>
      refine ⟨?_, fun e heq => by cases heq; exact he⟩
      rw [Cursor.parse, hblank, if_neg Bool.false_ne_true]
      show Except.bind (Cursor.whole ⟨names, input⟩ (byteSize []) t) _ = _
      rw [hq]
      rfl
    | goes _ =>
      refine ⟨?_, fun e heq => by cases heq⟩
      rw [Cursor.parse, hblank, if_neg Bool.false_ne_true]
      show Except.bind (Cursor.whole ⟨names, input⟩ (byteSize []) t) _ = _
      rw [hq]
      rfl

end UnionType

end UnionInference
