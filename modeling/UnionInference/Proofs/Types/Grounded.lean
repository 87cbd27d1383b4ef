import Mathlib.Logic.Relation
import UnionInference.Proofs.Types.Interning

/-!
Why types are made of earlier types. Here a table is two bare rows, the types with their texts and
the places by text, and nothing is promised about them: a place may be out of bounds, and a type
might be made of itself. What keeps the rows in order is that a type is written before it is stored.
Writing reads the text of every type that it is made of, so it is refused where one of them is not
there yet, and then nothing is stored. The table in which the promise is part of the data answers
every request as the bare rows do.
-/

namespace UnionInference

/-! ### Work that looks at places -/

section

variable {α β : Type} {size : Nat} {ids ids' : List TypeId} {w : Checked α} {k : α → Checked β}
  {a : α} {b : β}

/-- The work looks at the places in order. It is refused at the first one that is out of bounds, and
gives the value where there is none. -/
def Reads (size : Nat) (ids : List TypeId) (w : Checked α) (a : α) : Prop :=
  w = match ids.find? fun id => decide (size ≤ id) with
    | some id => .error (.outOfBounds size id)
    | none => .ok a

theorem Reads.nothing (size : Nat) (a : α) : Reads size [] (.ok a) a := rfl

theorem Reads.eq_ok (h : Reads size ids w a) (hin : ∀ id ∈ ids, id < size) : w = .ok a := by
  rw [h, List.find?_eq_none.2 fun id hid => by simpa using hin id hid]

theorem Reads.eq_error (h : Reads size ids w a) {id : TypeId}
    (hout : ids.find? (fun id => decide (size ≤ id)) = some id) :
    w = .error (.outOfBounds size id) := by
  rw [h, hout]

theorem Reads.bind (h : Reads size ids w a)
    (h' : (∀ id ∈ ids, id < size) → Reads size ids' (k a) b) :
    Reads size (ids ++ ids') (w >>= k) b := by
  cases hfind : ids.find? fun id => decide (size ≤ id) with
  | some id =>
    rw [Reads, List.find?_append, hfind, h.eq_error hfind]
    rfl
  | none =>
    have hin : ∀ id ∈ ids, id < size :=
      fun id hid => by simpa using List.find?_eq_none.1 hfind id hid
    rw [Reads, List.find?_append, hfind, h.eq_ok hin]
    exact h' hin

theorem Reads.map (h : Reads size ids w a) (f : α → β) :
    Reads size ids (w >>= fun a => pure (f a)) (f a) := by
  have hall := h.bind (k := fun a => pure (f a)) fun _ => Reads.nothing size (f a)
  rwa [List.append_nil] at hall

/-- Work on elements one after the other looks at the places of each. -/
theorem Reads.mapM {places : α → List TypeId} {f : α → Checked β} {g : α → β} {as : List α}
    (h : ∀ a, Reads size (places a) (f a) (g a)) :
    Reads size (as.flatMap places) (as.mapM f) (as.map g) := by
  induction as with
  | nil => exact Reads.nothing size []
  | cons a as ih =>
    rw [List.mapM_cons, List.flatMap_cons, List.map_cons]
    exact (h a).bind fun _ => ih.map _

/-- Looking at the same places again makes no difference. -/
theorem Reads.again (h : Reads size ids w a) (h' : Reads size ids (k a) b) :
    Reads size ids (w >>= k) b := by
  have hall := h.bind fun _ => h'
  rw [Reads, List.find?_append, Option.or_self] at hall
  exact hall

end

/-! ### Bare rows -/

/-- Types with their texts, and places by text. -/
structure TypeRows where
  entries : Array TypeEntry := #[]
  byKey : Std.HashMap String TypeId := {}

namespace TypeRows

variable (r : TypeRows)

/-- The type at a place. -/
def fetch (id : TypeId) : Checked Ty :=
  match r.entries[id]? with
  | some e => .ok e.type
  | none => .error (.unknownType id)

/-- The text of the type at a place. -/
def typeKey (id : TypeId) : Checked String :=
  match r.entries[id]? with
  | some e => .ok e.key
  | none => .error (.outOfBounds r.entries.size id)

/-- The members of a union in the order of their texts. -/
def writeUnion (u : UnionType) : Checked String := do
  let texts ← u.members.mapM r.typeKey
  return Text.join "|" (TypeTable.sortTexts texts)

/-- A class type with its arguments. -/
def writeClass (name : String) (args : List UnionType) : Checked String :=
  if args.isEmpty then return name
  else do
    let texts ← args.mapM r.writeUnion
    return name ++ "<" ++ Text.join "," texts ++ ">"

/-- An array of elements of one type. -/
def writeArray (key : KeyKind) (element : TypeId) : Checked String := do
  let text ← r.typeKey element
  match key with
  | .int => return "array<int," ++ text ++ ">"
  | .string => return "array<string," ++ text ++ ">"
  | .mixed =>
    let ty ← r.fetch element
    return if ty.nullable || ty.kind matches .callable _ then "(" ++ text ++ ")[]" else text ++ "[]"

/-- A field of an array shape. -/
def writeField (key : ShapeKey) (field : ShapeField) : Checked String := do
  let text ← r.writeUnion field.type
  return key.text ++ (if field.optional then "?" else "") ++ ":" ++ text

/-- The type of a parameter, which may be any. -/
def writeParamType (u : UnionType) : Checked String :=
  if u.isEmpty then return NativeKind.mixed.name else r.writeUnion u

/-- A parameter of a callable type. -/
def writeParam (p : CallableParam) : Checked String := do
  let text ← r.writeParamType p.type
  return (if p.byRef then "&" else "") ++ text ++ (if p.variadic then "..." else "") ++
    (if p.optional then "=" else "")

/-- The result of a callable type. -/
def writeResult (u : UnionType) : Checked String :=
  match u.members with
  | [] => return ""
  | [_] => do return ":" ++ (← r.writeUnion u)
  | _ => do return ":(" ++ (← r.writeUnion u) ++ ")"

/-- A type apart from null. -/
def writeKind : TypeKind → Checked String
  | .native k => return k.name
  | .object name args => r.writeClass name.text args
  | .array key element => r.writeArray key element
  | .shape fields => do
    let texts ← fields.mapM fun f => r.writeField f.1 f.2
    return "array\x7b" ++ Text.join "," texts ++ "\x7d"
  | .intLiteral n => return Text.decimal n
  | .stringLiteral s => return quote s
  | .callable sig => do
    let params ← sig.params.mapM r.writeParam
    let result ← r.writeResult sig.result
    return (if sig.isClosure then "Closure" else "callable") ++ "(" ++ Text.join "," params ++ ")" ++
      result
  | .template name => return name

/-- The text by which a type is written. -/
def write (ty : Ty) : Checked String := do
  return TypeTable.nullMark ty.nullable ++ (← r.writeKind ty.kind)

/-- The text under which a type is looked for. -/
def writeIdentity (ty : Ty) : Checked String :=
  match ty.kind with
  | .object name args => do
    return TypeTable.nullMark ty.nullable ++ (← r.writeClass name.foldedText args)
  | _ => r.write ty

/-- Both texts of a type. -/
def texts (ty : Ty) : Checked (String × String) := do
  return (← r.write ty, ← r.writeIdentity ty)

/-- Looks a type up, and stores it at the end if it was not there. -/
def store (ty : Ty) (text identity : String) : TypeId × TypeRows :=
  match r.byKey[identity]? with
  | some id => (id, r)
  | none =>
    (r.entries.size,
      { entries := r.entries.push ⟨ty, text⟩
        byKey := (r.byKey.insert identity r.entries.size).insert text r.entries.size })

/-- The place of a type. Its texts are written before anything is stored. -/
def intern (kind : TypeKind) (nullable : Bool) : Checked TypeId × TypeRows :=
  match r.texts (TypeTable.normalize kind nullable) with
  | .error v => (.error v, r)
  | .ok (text, identity) =>
    let (id, r) := r.store (TypeTable.normalize kind nullable) text identity
    (.ok id, r)

/-- The rows of a new table. -/
def initial : TypeRows :=
  let plain := NativeKind.all.foldl (fun r k => (r.intern (.native k) false).2) {}
  NativeKind.all.foldl (fun r k => if k.ignoresNull then r else (r.intern (.native k) true).2) plain

end TypeRows

/-! ### Writing -/

namespace TypeTable

variable (t : TypeTable)

/-- The rows of a table. -/
def rows : TypeRows := ⟨t.entries, t.byKey⟩

theorem fetch_rows (id : TypeId) : t.rows.fetch id = t.fetch id := by
  unfold fetch fetchBelow TypeRows.fetch rows
  by_cases h : id < t.entries.size
  · simp [h, Except.map]
  · simp [h, Except.map]

theorem reads_typeKey (id : TypeId) : Reads t.size [id] (t.rows.typeKey id) (t.key id) := by
  unfold Reads TypeRows.typeKey rows key size
  by_cases h : id < t.entries.size
  · simp [h]
  · simp [h, Nat.not_lt.1 h]

theorem reads_writeUnion (u : UnionType) :
    Reads t.size u.members (t.rows.writeUnion u) (t.renderUnion u) := by
  have h : Reads t.size (u.members.flatMap fun id => [id]) (u.members.mapM t.rows.typeKey)
      (u.members.map t.key) := Reads.mapM t.reads_typeKey
  rw [List.flatMap_singleton'] at h
  exact h.map _

theorem reads_writeClass (name : String) (args : List UnionType) :
    Reads t.size (args.flatMap UnionType.members) (t.rows.writeClass name args)
      (t.renderClass name args) := by
  unfold TypeRows.writeClass renderClass
  cases args with
  | nil => exact Reads.nothing _ _
  | cons arg args => exact (Reads.mapM t.reads_writeUnion).map _

theorem reads_writeArray (key : KeyKind) (element : TypeId) :
    Reads t.size [element] (t.rows.writeArray key element) (t.renderArray key element) := by
  have hkey := t.reads_typeKey element
  cases key with
  | int => exact hkey.map _
  | string => exact hkey.map _
  | mixed =>
    -- the element is there when it is looked at for brackets
    rw [← List.append_nil [element]]
    refine hkey.bind fun hin => ?_
    have hlt : element < t.entries.size := hin element List.mem_cons_self
    rw [fetch_rows, fetch_eq (Array.getElem?_eq_getElem hlt)]
    have hparens : t.needsParens element =
        ((t.entries[element]).type.nullable ||
          (t.entries[element]).type.kind matches .callable _) := by
      rw [needsParens, get?, Array.getElem?_eq_getElem hlt, Option.map_some]
      rcases (t.entries[element]).type with ⟨kind, nullable⟩
      cases kind <;> simp
    rw [renderArray, hparens]
    exact Reads.nothing _ _

theorem reads_writeField (f : ShapeKey × ShapeField) :
    Reads t.size f.2.type.members (t.rows.writeField f.1 f.2) (t.renderField f.1 f.2) :=
  (t.reads_writeUnion f.2.type).map _

theorem reads_writeParamType (u : UnionType) :
    Reads t.size u.members (t.rows.writeParamType u)
      (if u.isEmpty then NativeKind.mixed.name else t.renderUnion u) := by
  unfold TypeRows.writeParamType
  by_cases hu : u.isEmpty = true
  · rw [if_pos hu, if_pos hu, List.isEmpty_iff.1 hu]
    exact Reads.nothing _ _
  · rw [if_neg hu, if_neg hu]
    exact t.reads_writeUnion u

theorem reads_writeParam (p : CallableParam) :
    Reads t.size p.type.members (t.rows.writeParam p) (t.renderParam p) :=
  (t.reads_writeParamType p.type).map fun text => (if p.byRef then "&" else "") ++ text ++
    (if p.variadic then "..." else "") ++ (if p.optional then "=" else "")

theorem reads_writeResult (u : UnionType) :
    Reads t.size u.members (t.rows.writeResult u) (t.renderResult u) := by
  have h := t.reads_writeUnion u
  unfold TypeRows.writeResult renderResult
  rcases hu : u.members with _ | ⟨i, _ | ⟨j, ids⟩⟩
  · exact Reads.nothing _ _
  · rw [hu] at h
    exact h.map fun text => ":" ++ text
  · rw [hu] at h
    exact h.map fun text => ":(" ++ text ++ ")"

/-- Writing a kind of type looks at everything that it is made of. -/
theorem reads_writeKind (kind : TypeKind) :
    Reads t.size kind.embedded (t.rows.writeKind kind) (t.renderKind kind) := by
  cases kind with
  | object name args => exact t.reads_writeClass name.text args
  | array key element => exact t.reads_writeArray key element
  | shape fields => exact (Reads.mapM t.reads_writeField).map _
  | callable sig =>
    exact (Reads.mapM t.reads_writeParam).bind fun _ => (t.reads_writeResult sig.result).map _
  | native k => exact Reads.nothing _ _
  | intLiteral n => exact Reads.nothing _ _
  | stringLiteral s => exact Reads.nothing _ _
  | template name => exact Reads.nothing _ _

theorem reads_write (ty : Ty) : Reads t.size ty.kind.embedded (t.rows.write ty) (t.render ty) :=
  (t.reads_writeKind ty.kind).map _

theorem reads_writeIdentity (ty : Ty) :
    Reads t.size ty.kind.embedded (t.rows.writeIdentity ty) (t.identity ty) := by
  rcases ty with ⟨kind, nullable⟩
  cases kind with
  | object name args => exact (t.reads_writeClass name.foldedText args).map _
  | _ => exact t.reads_write _

theorem reads_texts (ty : Ty) :
    Reads t.size ty.kind.embedded (t.rows.texts ty) (t.render ty, t.identity ty) :=
  (t.reads_write ty).again ((t.reads_writeIdentity ty).map fun identity => (t.render ty, identity))

/-! ### Storing -/

theorem store_rows (ty : Ty) (h : ∀ e ∈ ty.kind.embedded, e < t.size) :
    t.rows.store ty (t.render ty) (t.identity ty) = ((t.place ty h).1, (t.place ty h).2.rows) := by
  unfold TypeRows.store place
  show (match t.byKey[t.identity ty]? with | some id => _ | none => _) = _
  cases t.byKey[t.identity ty]? <;> rfl

/-- The rows answer as the table does, and store what the table stores. -/
theorem intern_rows (kind : TypeKind) (nullable : Bool) :
    t.rows.intern kind nullable =
      match TypeM.intern kind nullable t with
      | .ok (id, t') => (.ok id, t'.rows)
      | .error v => (.error v, t.rows) := by
  have htexts := t.reads_texts (normalize kind nullable)
  unfold TypeRows.intern TypeM.intern
  by_cases h : ∀ e ∈ kind.embedded, e < t.size
  · rw [dif_pos h, htexts.eq_ok h]
    dsimp only
    rw [t.store_rows (normalize kind nullable) h]
  · obtain ⟨e, he⟩ : ∃ e, kind.embedded.find? (fun id => decide (t.size ≤ id)) = some e := by
      rw [← Option.isSome_iff_exists, List.find?_isSome]
      simpa using h
    rw [dif_neg h, htexts.eq_error he, he]
    rfl

end TypeTable

/-! ### Requests -/

namespace TypeRequest

/-- Whether a class type may have the name. -/
def checkName (space name : String) : Checked Unit :=
  if space.isEmpty then throw .emptyNamespace
  else if !Text.startsWith space "\\" then throw (.unrootedNamespace space)
  else if name.isEmpty then throw .emptyTypeName
  else if Text.hasChar name '|' || Text.hasChar space '|' then throw (.dividedTypeName name)
  else return ()

/-- What a request comes down to: a place that is known, or a type that is looked up or stored. -/
def settle (fetch : TypeId → Checked Ty) : TypeRequest → Checked (TypeId ⊕ TypeKind × Bool)
  | .intern kind nullable => return .inr (kind, nullable)
  | .native k nullable => return if nullable then .inr (.native k, true) else .inl k.id
  | .make space name args nullable => do
    checkName space name
    return .inr (.object (.make space name) args, nullable)
  | .classType name args => do
    checkName name.space name.name
    return .inr (.object (.make name.space name.name) args, false)
  | .array key element nullable => return .inr (.array key element, nullable)
  | .template name =>
    if name.isEmpty then throw .emptyTemplateName
    else if Text.hasChar name '|' then throw (.dividedTemplateName name)
    else return .inr (.template name, false)
  | .withNull id nullable => do
    let ty ← fetch id
    return if ty.nullable == nullable || !ty.kind.acceptsNull then .inl id
      else .inr (ty.kind, nullable)
  | .widenLiteral id => do
    let ty ← fetch id
    match ty.kind with
    | .intLiteral _ =>
      return if ty.nullable then .inr (.native .int, true) else .inl NativeKind.int.id
    | .stringLiteral _ =>
      return if ty.nullable then .inr (.native .string, true) else .inl NativeKind.string.id
    | _ => return .inl id

end TypeRequest

/-- A request to a table of types. -/
inductive TableRequest where
  | ask (q : TypeRequest)
  /-- Every type but the built-in ones is forgotten. -/
  | reset

namespace TypeRows

/-- The answer to a request, and the rows afterwards. -/
def answer (r : TypeRows) (q : TypeRequest) : Checked TypeId × TypeRows :=
  match q.settle r.fetch with
  | .error v => (.error v, r)
  | .ok (.inl id) => (.ok id, r)
  | .ok (.inr (kind, nullable)) => r.intern kind nullable

/-- The rows after a request. -/
def serve (r : TypeRows) : TableRequest → TypeRows
  | .ask q => (r.answer q).2
  | .reset => .initial

/-- The rows after requests to those of a new table. -/
def served (requests : List TableRequest) : TypeRows := requests.foldl serve .initial

end TypeRows

namespace TypeTable

/-- The answer to a request, and the table afterwards. -/
def answer (t : TypeTable) (q : TypeRequest) : Checked TypeId × TypeTable :=
  match q.run t with
  | .ok (id, t') => (.ok id, t')
  | .error v => (.error v, t)

/-- The table after a request. -/
def serve (t : TypeTable) : TableRequest → TypeTable
  | .ask q => (t.answer q).2
  | .reset => t.reset

variable {t : TypeTable}

theorem make_eq (space name : String) (args : List UnionType) (nullable : Bool) :
    TypeM.make space name args nullable t =
      TypeRequest.checkName space name >>= fun _ =>
        TypeM.intern (.object (.make space name) args) nullable t := by
  unfold TypeM.make TypeRequest.checkName
  split_ifs <;> rfl

/-- Every request comes down to a known place or to a type that is stored. -/
theorem run_eq (q : TypeRequest) : q.run t = q.settle t.fetch >>= fun
    | .inl id => .ok (id, t)
    | .inr (kind, nullable) => TypeM.intern kind nullable t := by
  have hnative : ∀ (k : NativeKind) (nullable : Bool), TypeM.native k nullable t =
      match (if nullable then .inr (.native k, true) else .inl k.id : TypeId ⊕ TypeKind × Bool) with
      | .inl id => .ok (id, t)
      | .inr (kind, nullable) => TypeM.intern kind nullable t := by
    intro k nullable
    cases nullable <;> rfl
  cases q with
  | intern kind nullable => rfl
  | native k nullable => exact hnative k nullable
  | make space name args nullable =>
    refine (make_eq space name args nullable).trans ?_
    cases hname : TypeRequest.checkName space name <;>
      simp [TypeRequest.settle, hname, bind, Except.bind, pure, Except.pure]
  | classType name args =>
    refine (make_eq name.space name.name args false).trans ?_
    cases hname : TypeRequest.checkName name.space name.name <;>
      simp [TypeRequest.settle, hname, bind, Except.bind, pure, Except.pure]
  | array key element nullable => rfl
  | template name =>
    simp only [TypeRequest.run, TypeM.template, TypeRequest.settle]
    split_ifs <;> rfl
  | withNull id nullable =>
    simp only [TypeRequest.run, TypeM.withNull, TypeRequest.settle]
    rw [TypeM.bind_apply, TypeM.fetch, TypeM.query]
    cases t.fetch id with
    | error v => rfl
    | ok ty =>
      simp only [Except.map, bind, Except.bind, pure, Except.pure]
      split_ifs <;> rfl
  | widenLiteral id =>
    simp only [TypeRequest.run, TypeM.widenLiteral, TypeRequest.settle]
    rw [TypeM.bind_apply, TypeM.fetch, TypeM.query]
    cases t.fetch id with
    | error v => rfl
    | ok ty =>
      rcases ty with ⟨kind, nullable⟩
      cases kind with
      | intLiteral n => exact hnative .int nullable
      | stringLiteral s => exact hnative .string nullable
      | _ => rfl

/-- The rows answer every request as the table does. -/
theorem answer_rows (q : TypeRequest) :
    t.rows.answer q = ((t.answer q).1, (t.answer q).2.rows) := by
  have hfetch : t.rows.fetch = t.fetch := funext t.fetch_rows
  unfold TypeRows.answer answer
  rw [run_eq, hfetch]
  rcases q.settle t.fetch with v | id | ⟨kind, nullable⟩
  · rfl
  · rfl
  · dsimp only [bind, Except.bind]
    rw [intern_rows]
    cases TypeM.intern kind nullable t <;> rfl

theorem rows_addNative (k : NativeKind) (nullable : Bool) :
    (t.addNative k nullable).rows = (t.rows.intern (.native k) nullable).2 := by
  rw [intern_rows, TypeM.intern, dif_pos (by simp [TypeKind.embedded])]
  rfl

theorem rows_initial (nullCasts : Bool) : (initial nullCasts).rows = .initial := by
  have hnull : ∀ (t : TypeTable) (k : NativeKind),
      (if k.ignoresNull then t.rows else (t.rows.intern (.native k) true).2) =
        (if k.ignoresNull then t else t.addNative k true).rows := by
    intro t k
    by_cases hk : k.ignoresNull = true
    · rw [if_pos hk, if_pos hk]
    · rw [if_neg hk, if_neg hk, rows_addNative]
  unfold initial TypeRows.initial
  generalize NativeKind.all = ks
  refine (List.foldl_hom rows hnull).symm.trans (congrArg (fun r => ks.foldl _ r) ?_)
  exact (List.foldl_hom rows fun t k => (rows_addNative k false).symm).symm

theorem rows_reset (t : TypeTable) : t.reset.rows = .initial := by
  have h := rows_initial t.nullCasts
  unfold reset
  generalize initial t.nullCasts = t₀ at h ⊢
  exact h

theorem rows_serve (t : TypeTable) (q : TableRequest) : (t.serve q).rows = t.rows.serve q := by
  cases q with
  | ask q =>
    rw [TypeRows.serve, answer_rows]
    rfl
  | reset =>
    rw [serve, TypeRows.serve]
    exact rows_reset t

/-- The rows that a row of requests leads to are those of the table that it leads to. -/
theorem rows_served (nullCasts : Bool) (requests : List TableRequest) :
    (requests.foldl serve (initial nullCasts)).rows = .served requests := by
  rw [TypeRows.served, ← rows_initial nullCasts]
  exact (List.foldl_hom rows fun t q => (rows_serve t q).symm).symm

end TypeTable

namespace TypeRows

variable {r : TypeRows}

/-- A type is part of what the type at a place is made of. -/
def Embeds (r : TypeRows) (e id : TypeId) : Prop :=
  ∃ entry, r.entries[id]? = some entry ∧ e ∈ entry.type.kind.embedded

/-- A request that is refused stores nothing. -/
theorem answer_of_error {q : TypeRequest} {v : Violation} (h : (r.answer q).1 = .error v) :
    (r.answer q).2 = r := by
  unfold answer at h ⊢
  rcases hsettle : q.settle r.fetch with v' | id | ⟨kind, nullable⟩
  · rfl
  · rfl
  · rw [hsettle] at h
    unfold intern at h ⊢
    dsimp only at h ⊢
    cases htexts : r.texts (TypeTable.normalize kind nullable) with
    | error v' => rfl
    | ok texts =>
      rw [htexts] at h
      cases h

end TypeRows

namespace TypeTable

variable (t : TypeTable)

/-- A type is made of earlier ones, however deep they lie in it. -/
theorem lt_of_embeds {e id : TypeId} (h : Relation.TransGen t.rows.Embeds e id) :
    e < id ∧ id < t.size := by
  have hstep : ∀ {e id : TypeId}, t.rows.Embeds e id → e < id ∧ id < t.size := by
    rintro e id ⟨entry, hentry, he⟩
    exact ⟨embedded_lt hentry he, lt_size_of_entry hentry⟩
  induction h with
  | single h => exact hstep h
  | tail _ h ih => exact ⟨Nat.lt_trans ih.1 (hstep h).1, (hstep h).2⟩

/-- A type whose parts are not all there is refused, and nothing is stored. -/
theorem intern_rows_cases (kind : TypeKind) (nullable : Bool) :
    (∀ e ∈ kind.embedded, e < t.size) ∨ ∃ v, t.rows.intern kind nullable = (.error v, t.rows) := by
  by_cases h : ∀ e ∈ kind.embedded, e < t.size
  · exact .inl h
  · rw [intern_rows, TypeM.intern, dif_neg h]
    exact .inr ⟨_, rfl⟩

end TypeTable

end UnionInference
