/-!
The switches that an analysis consults.
-/

namespace UnionInference

/-- The settings of an analysis. -/
structure Options where
  /-- `null` may stand for a value of any type. -/
  nullCastsAsAnyType : Bool := false
  /-- Any integer or string may index an array, whatever the kind of its keys. -/
  scalarArrayKeyCast : Bool := false
  /-- An undeclared variable of the global scope has the empty type and is no issue. -/
  ignoreUndeclaredVariablesInGlobalScope : Bool := false
  /-- A class receives its inherited members when it is first asked for one. -/
  hydrateLazily : Bool := true
  /-- A literal has its literal type. -/
  literalScalarTypes : Bool := true
  /-- A string literal of more bytes has the plain string type. -/
  maxLiteralStringLength : Nat := 200
  /-- An overriding method may accept a wider parameter. -/
  allowMethodParamTypeWidening : Bool := false
  /-- Arrays with string keys may be spread into array literals. -/
  allowStringKeyUnpack : Bool := false
  deriving DecidableEq, Repr

instance : Inhabited Options := ⟨{}⟩

end UnionInference
