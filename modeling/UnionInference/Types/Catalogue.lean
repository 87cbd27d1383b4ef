import UnionInference.Types.Union

/-!
The questions that can be asked about a type and about a union, each under the name by which reports
refer to it.
-/

namespace UnionInference

/-- The questions about a type and their answers. -/
def Ty.answers (t : Ty) : List (String × Bool) :=
  [("nullable_flag", t.nullable), ("is_nullable", t.admitsNull),
   ("accepts_nullability", t.kind.acceptsNull), ("is_native_type", t.isNativeType),
   ("is_array_like", t.isArrayLike), ("is_iterable_like", t.isIterableLike),
   ("is_object_like", t.isObjectLike), ("is_int_like", t.isIntLike),
   ("is_string_like", t.isStringLike), ("is_bool_like", t.isBoolLike), ("is_scalar", t.isScalar),
   ("is_literal", t.isLiteral), ("is_template", t.isTemplate), ("is_static_like", t.isStaticLike)]

/-- The names of the questions about a type that are answered by yes. -/
def Ty.traits (t : Ty) : List String := (t.answers.filter Prod.snd).map Prod.fst

namespace UnionType

/-- The questions about a union. -/
def questions (u : UnionType) : List (String × (TypeTable → Checked Bool)) :=
  [("is_empty", fun _ => .ok u.isEmpty), ("has_mixed", fun _ => .ok u.hasMixed),
   ("is_null", fun _ => .ok u.isNull), ("is_bare_array", fun _ => .ok u.isBareArray),
   ("contains_nullable", u.admitsNull), ("has_array_like", u.hasArrayLike),
   ("is_exclusively_array_like", u.isArrayLike), ("has_array_shape", u.hasShape),
   ("has_generic_array", u.hasGenericArray), ("has_class_like", u.hasClassLike),
   ("has_object_like", u.hasObjectLike), ("has_template_type", u.hasTemplate),
   ("has_static_type", u.hasStatic), ("has_int_like", u.hasIntLike), ("has_float", u.hasFloat),
   ("has_string_like", u.hasStringLike), ("is_exclusively_int_like", u.isIntLike),
   ("is_exclusively_float", u.isFloat), ("is_exclusively_string_like", u.isStringLike),
   ("is_exclusively_scalar", u.isScalar), ("is_array_key_like", u.isKeyLike)]

/-- The names of the questions about a union that are answered by yes. -/
def traits (u : UnionType) (t : TypeTable) : Checked (List String) := do
  let yes ← u.questions.filterM fun q => q.2 t
  return yes.map Prod.fst

end UnionType

end UnionInference
