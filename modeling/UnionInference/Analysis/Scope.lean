import UnionInference.Table.Ordered
import UnionInference.Types.Union

/-!
Scopes: the variables that are known at a place, in order of definition, and those that the language
itself provides.
-/

namespace UnionInference

/-- The variables of a function body or of the program outside of functions. -/
structure Scope where
  «variables» : OrderedTable String UnionType := {}
  isGlobal : Bool := false

namespace Scope

/-- The empty scope outside of functions. -/
def global : Scope := { isGlobal := true }

/-- The empty scope of a function body. -/
def function : Scope := {}

instance : Inhabited Scope := ⟨function⟩

/-- The variables that are provided in every scope. -/
def superglobals : List String :=
  ["_GET", "_POST", "_COOKIE", "_REQUEST", "_SERVER", "_ENV", "_FILES", "_SESSION", "GLOBALS"]

/-- The type of a variable. -/
def get? (s : Scope) (name : String) : Option UnionType := s.variables.get? name

/-- Whether a variable is defined. -/
def has (s : Scope) (name : String) : Bool := s.variables.contains name

/-- Defines a variable, or gives it another type. -/
def add (s : Scope) (name : String) (type : UnionType) : Scope :=
  { s with «variables» := s.variables.insert name type }

/-- Removes a variable and tells the type it had. -/
def take (s : Scope) (name : String) : Option UnionType × Scope :=
  let (type, rest) := s.variables.take name
  (type, { s with «variables» := rest })

/-- The names of the variables in order. -/
def names (s : Scope) : List String := s.variables.keys

/-- The number of variables. -/
def size (s : Scope) : Nat := s.variables.size

/-- Whether the language itself provides a variable here. -/
def isProvided (s : Scope) (name : String) : Bool :=
  superglobals.contains name ||
    (s.isGlobal && ["argc", "argv", "http_response_header"].contains name)

/-- The type of a variable that the language itself provides here. -/
def providedType (s : Scope) (name : String) : TypeM (Option UnionType) := do
  if superglobals.contains name then
    return some (.of (← TypeM.array .string NativeKind.mixed.id false))
  else if !s.isGlobal then return none
  else
    match name with
    | "argc" => return some (.native .int)
    | "argv" => return some (.of (← TypeM.array .mixed NativeKind.string.id false))
    | "http_response_header" =>
      return some (.of (← TypeM.array .mixed NativeKind.string.id true))
    | _ => return none

/-- The first variable whose name differs from the given one in letter case alone. -/
def similar? (s : Scope) (name : String) : Option String :=
  s.names.find? fun other => other != name && Text.sameFolded other name

end Scope

end UnionInference
