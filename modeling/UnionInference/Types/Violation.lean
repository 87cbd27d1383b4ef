import UnionInference.Name
import UnionInference.Text.Quoted
import UnionInference.Text.Decimal

/-!
Violations of what the library asks of its callers. They are no findings about the analysed program:
the first one ends the work.
-/

namespace UnionInference

/-- What a caller did that must not be done. -/
inductive Violation where
  /-- A type was asked for that its table does not hold. -/
  | unknownType (id : Nat)
  /-- A type was written that its table does not hold. -/
  | outOfBounds (size index : Nat)
  /-- A class type has no namespace. -/
  | emptyNamespace
  /-- The namespace of a class type does not start at the root. -/
  | unrootedNamespace (space : String)
  /-- A class type has no name. -/
  | emptyTypeName
  /-- The separator of unions stands in the name of a class type. -/
  | dividedTypeName (name : String)
  /-- A template has no name. -/
  | emptyTemplateName
  /-- The separator of unions stands in the name of a template. -/
  | dividedTemplateName (name : String)
  /-- The ancestors of a type nest too deeply. -/
  | expansionTooDeep (key : String) (limit : Nat)
  /-- A class was asked for that is not registered. -/
  | unknownClass (name : ClassName)
  deriving DecidableEq, Repr

/-- What the violation says. -/
def Violation.message : Violation → String
  | .unknownType id =>
    "TypeId(" ++ Text.decimalNat id ++ ") is not registered (stale across reset_all?)"
  | .outOfBounds size index =>
    "index out of bounds: the len is " ++ Text.decimalNat size ++ " but the index is " ++
      Text.decimalNat index
  | .emptyNamespace => "type namespace must not be empty"
  | .unrootedNamespace space =>
    "type namespace " ++ Text.quoted space ++ " must start with '\\'"
  | .emptyTypeName => "type name must not be empty"
  | .dividedTypeName name => "type name " ++ Text.quoted name ++ " must not contain '|'"
  | .emptyTemplateName => "template name must not be empty"
  | .dividedTemplateName name => "template name " ++ Text.quoted name ++ " must not contain '|'"
  | .expansionTooDeep key limit =>
    "expanding " ++ key ++ " exceeded the maximum type expansion depth of " ++
      Text.decimalNat limit
  | .unknownClass name => "class " ++ name.text ++ " is not in the code base"

/-- The result of work that a violation may end. -/
abbrev Checked := Except Violation

end UnionInference
