import Std.Data.HashMap
import UnionInference.Types.Basic
import UnionInference.Types.Violation

/-!
The table of types. Each type is held once, under the text by which it is written, so two places are
equal exactly when their types are. A type is made of types that were there before it, which is why
every walk down into a type comes to an end.
-/

namespace UnionInference

/-- A type together with the text by which it is written. -/
structure TypeEntry where
  type : Ty
  key : String

/-- The ancestors of types found so far, as of one state of the class hierarchy. -/
structure ExpansionCache where
  generation : Nat := 0
  entries : Std.HashMap TypeId UnionType := {}

/-- The table of types. -/
structure TypeTable where
  /-- The types by place. -/
  entries : Array TypeEntry := #[]
  /-- The places by text; a class type is found under its folded name too. -/
  byKey : Std.HashMap String TypeId := {}
  /-- Whether `null` may stand for a value of any type. -/
  nullCasts : Bool := false
  /-- The ancestors found so far. -/
  cache : ExpansionCache := {}
  /-- A type is made of types that stand before it. -/
  grounded : ∀ i (h : i < entries.size), ∀ e ∈ (entries[i]).type.kind.embedded, e < i := by
    exact fun i h => absurd h (Nat.not_lt_zero i)

namespace TypeTable

/-- The number of types. -/
def size (t : TypeTable) : Nat := t.entries.size

/-- The type at a place. -/
def get? (t : TypeTable) (id : TypeId) : Option Ty := t.entries[id]?.map TypeEntry.type

/-- The text of the type at a place, empty where there is none. -/
def key (t : TypeTable) (id : TypeId) : String := ((t.entries[id]?.map TypeEntry.key).getD "")

/-- A type that is made of types before the given place. -/
abbrev TyBelow (id : TypeId) : Type := { ty : Ty // ∀ e ∈ ty.kind.embedded, e < id }

/-- The type at a place, with the proof that it is made of earlier ones. -/
def fetchBelow (t : TypeTable) (id : TypeId) : Checked (TyBelow id) :=
  if h : id < t.entries.size then .ok ⟨(t.entries[id]).type, t.grounded id h⟩
  else .error (.unknownType id)

/-- The type at a place. -/
def fetch (t : TypeTable) (id : TypeId) : Checked Ty := (t.fetchBelow id).map Subtype.val

/-- The text of the type at a place. -/
def typeKey (t : TypeTable) (id : TypeId) : Checked String :=
  if id < t.size then .ok (t.key id) else .error (.outOfBounds t.size id)

/-! ### Writing types -/

/-- The texts in ascending order. -/
def sortTexts (texts : List String) : List String :=
  texts.mergeSort fun a b => !decide (b < a)

/-- The members of a union in the order of their texts. -/
def renderUnion (t : TypeTable) (u : UnionType) : String :=
  Text.join "|" (sortTexts (u.members.map t.key))

/-- A class type with its arguments. -/
def renderClass (t : TypeTable) (name : String) (args : List UnionType) : String :=
  if args.isEmpty then name
  else name ++ "<" ++ Text.join "," (args.map t.renderUnion) ++ ">"

/-- Whether a type is put in brackets when it is the element of an array. -/
def needsParens (t : TypeTable) (id : TypeId) : Bool :=
  match t.get? id with
  | some ⟨.callable _, _⟩ => true
  | some ty => ty.nullable
  | none => false

/-- An array of elements of one type. -/
def renderArray (t : TypeTable) (key : KeyKind) (element : TypeId) : String :=
  match key with
  | .int => "array<int," ++ t.key element ++ ">"
  | .string => "array<string," ++ t.key element ++ ">"
  | .mixed =>
    if t.needsParens element then "(" ++ t.key element ++ ")[]" else t.key element ++ "[]"

/-- A field of an array shape. -/
def renderField (t : TypeTable) (key : ShapeKey) (field : ShapeField) : String :=
  key.text ++ (if field.optional then "?" else "") ++ ":" ++ t.renderUnion field.type

/-- A parameter of a callable type. -/
def renderParam (t : TypeTable) (p : CallableParam) : String :=
  (if p.byRef then "&" else "") ++
    (if p.type.isEmpty then NativeKind.mixed.name else t.renderUnion p.type) ++
    (if p.variadic then "..." else "") ++ (if p.optional then "=" else "")

/-- The result of a callable type. -/
def renderResult (t : TypeTable) (u : UnionType) : String :=
  match u.members with
  | [] => ""
  | [_] => ":" ++ t.renderUnion u
  | _ => ":(" ++ t.renderUnion u ++ ")"

/-- A type apart from null. -/
def renderKind (t : TypeTable) : TypeKind → String
  | .native k => k.name
  | .object name args => t.renderClass name.text args
  | .array key element => t.renderArray key element
  | .shape fields =>
    "array\x7b" ++ Text.join "," (fields.map fun f => t.renderField f.1 f.2) ++ "\x7d"
  | .intLiteral n => Text.decimal n
  | .stringLiteral s => quote s
  | .callable sig =>
    (if sig.isClosure then "Closure" else "callable") ++ "(" ++
      Text.join "," (sig.params.map t.renderParam) ++ ")" ++ t.renderResult sig.result
  | .template name => name

/-- The mark of a type that also admits null. -/
def nullMark (nullable : Bool) : String := if nullable then "?" else ""

/-- The text by which a type is written. -/
def render (t : TypeTable) (ty : Ty) : String := nullMark ty.nullable ++ t.renderKind ty.kind

/-- The text under which a type is looked for: class names in small letters, all else as written. -/
def identity (t : TypeTable) (ty : Ty) : String :=
  match ty.kind with
  | .object name args => nullMark ty.nullable ++ t.renderClass name.foldedText args
  | _ => t.render ty

/-! ### Holding types -/

/-- The place of a type, at the end of the table if the type was not there. -/
def place (t : TypeTable) (ty : Ty) (h : ∀ e ∈ ty.kind.embedded, e < t.size) :
    TypeId × TypeTable :=
  match t.byKey[t.identity ty]? with
  | some id => (id, t)
  | none =>
    (t.size,
      { t with
        entries := t.entries.push ⟨ty, t.render ty⟩
        byKey := (t.byKey.insert (t.identity ty) t.size).insert (t.render ty) t.size
        grounded := by
          intro i hi e he
          rw [Array.getElem_push] at he
          split at he
          · next hlt => exact t.grounded i hlt e he
          · next hge =>
            have : i = t.entries.size := by simp only [Array.size_push] at hi; omega
            exact this ▸ h e he })

/-- The type with the mark for null left off where it says nothing. -/
def normalize (kind : TypeKind) (nullable : Bool) : Ty := ⟨kind, nullable && kind.acceptsNull⟩

/-- Adds a built-in type. -/
def addNative (t : TypeTable) (k : NativeKind) (nullable : Bool) : TypeTable :=
  (t.place (normalize (.native k) nullable) (by simp [normalize, TypeKind.embedded])).2

/-- A table with the built-in types, first as they are and then those that also admit null. -/
def initial (nullCasts : Bool) : TypeTable :=
  let plain := NativeKind.all.foldl (fun t k => t.addNative k false)
    ({ nullCasts := nullCasts } : TypeTable)
  NativeKind.all.foldl (fun t k => if k.ignoresNull then t else t.addNative k true) plain

instance : Inhabited TypeTable := ⟨initial false⟩

/-- The place of the type with the given text. -/
def lookup (t : TypeTable) (key : String) : Option TypeId := t.byKey[key]?

/-- Forgets every type but the built-in ones. -/
def reset (t : TypeTable) : TypeTable :=
  { initial t.nullCasts with cache := { t.cache with entries := {} } }

/-- Forgets the ancestors found so far. -/
def clearCache (t : TypeTable) : TypeTable :=
  { t with cache := { t.cache with entries := {} } }

end TypeTable

/-- Work on a table of types. -/
abbrev TypeM := StateT TypeTable Checked

namespace TypeM

/-- Asks the table. -/
def query {α : Type} (f : TypeTable → Checked α) : TypeM α := fun t => (f t).map fun a => (a, t)

/-- The type at a place, with the proof that it is made of earlier ones. -/
def fetchBelow (id : TypeId) : TypeM (TypeTable.TyBelow id) := query fun t => t.fetchBelow id

/-- The type at a place. -/
def fetch (id : TypeId) : TypeM Ty := query fun t => t.fetch id

/-- The place of a type, which joins the table if it was not there. Every type it is made of is in
the table. -/
def intern (kind : TypeKind) (nullable : Bool) : TypeM TypeId := fun t =>
  if h : ∀ e ∈ kind.embedded, e < t.size then .ok (t.place (TypeTable.normalize kind nullable) h)
  else
    .error (.outOfBounds t.size ((kind.embedded.find? fun e => decide (t.size ≤ e)).getD 0))

/-- A built-in type. -/
def native (k : NativeKind) (nullable : Bool) : TypeM TypeId :=
  if nullable then intern (.native k) true else pure k.id

/-- A class type. Its namespace starts at the root, its name is not empty, and neither holds the
separator of unions. -/
def make (space name : String) (args : List UnionType) (nullable : Bool) : TypeM TypeId :=
  if space.isEmpty then throw .emptyNamespace
  else if !Text.startsWith space "\\" then throw (.unrootedNamespace space)
  else if name.isEmpty then throw .emptyTypeName
  else if Text.hasChar name '|' || Text.hasChar space '|' then throw (.dividedTypeName name)
  else intern (.object (.make space name) args) nullable

/-- The type of the objects of a class. -/
def classTypeWith (name : ClassName) (args : List UnionType) : TypeM TypeId :=
  make name.space name.name args false

/-- The type of the objects of a class without arguments. -/
def classType (name : ClassName) : TypeM TypeId := classTypeWith name []

/-- An array of elements of one type. -/
def array (key : KeyKind) (element : TypeId) (nullable : Bool) : TypeM TypeId :=
  intern (.array key element) nullable

/-- A template placeholder. -/
def template (name : String) : TypeM TypeId :=
  if name.isEmpty then throw .emptyTemplateName
  else if Text.hasChar name '|' then throw (.dividedTemplateName name)
  else intern (.template name) false

/-- The variant of a type that admits null, or the one that does not. -/
def withNull (id : TypeId) (nullable : Bool) : TypeM TypeId := do
  let ty ← fetch id
  if ty.nullable == nullable || !ty.kind.acceptsNull then return id
  else intern ty.kind nullable

/-- The built-in type of a literal; any other type stays as it is. -/
def widenLiteral (id : TypeId) : TypeM TypeId := do
  let ty ← fetch id
  match ty.kind with
  | .intLiteral _ => native .int ty.nullable
  | .stringLiteral _ => native .string ty.nullable
  | _ => return id

end TypeM

end UnionInference
