/-!
The issues that an analysis can report. Each kind has a stable name, a category, a severity, a
number of its own and a message with numbered places for the particulars.
-/

namespace UnionInference

/-- What an issue is about, broadly. -/
inductive IssueCategory where
  | undefined | typing | access | compatibility | comment
  deriving DecidableEq, Repr

/-- The category as it stands in a report. -/
def IssueCategory.text : IssueCategory → String
  | .undefined => "UndefError"
  | .typing => "TypeError"
  | .access => "AccessError"
  | .compatibility => "CompatError"
  | .comment => "CommentError"

/-- How serious an issue is. -/
inductive Severity where
  | low | normal | critical
  deriving DecidableEq, Repr

/-- The name of a severity. -/
def Severity.text : Severity → String
  | .low => "Low"
  | .normal => "Normal"
  | .critical => "Critical"

/-- The kinds of issue. -/
inductive IssueKind where
  | undeclaredVariable
  | undeclaredClassMethod
  | undeclaredStaticMethod
  | undeclaredMethod
  | undeclaredFunction
  | undeclaredProperty
  | undeclaredStaticProperty
  | undeclaredConstant
  | undeclaredClassConstant
  | undeclaredClassReference
  | undeclaredClassInstanceof
  | undeclaredTypeClassConstant
  | undeclaredTypeProperty
  | undeclaredTypeThrowsType
  | nonClassMethodCall
  | parentlessClass
  | traitParentReference
  | contextNotObject
  | typeMismatchDimFetch
  | typeMismatchDimFetchNullable
  | typeArraySuspicious
  | typeArraySuspiciousNullable
  | typeInvalidDimOffset
  | typeMismatchUnpackValue
  | typeMismatchUnpackKey
  | typeInvalidInstanceof
  | typeInvalidThrowsNonObject
  | typeInvalidThrowsNonThrowable
  | typeInvalidThrowsIsTrait
  | typeInvalidThrowsIsInterface
  | typeArrayOperator
  | typeComparisonFromArray
  | typeComparisonToArray
  | typeExpectedObjectPropAccess
  | typeInvalidCloneNotObject
  | typeInstantiateAbstract
  | typeInstantiateInterface
  | typeInstantiateTrait
  | accessPropertyPrivate
  | accessPropertyProtected
  | accessMethodPrivate
  | accessMethodProtected
  | accessSignatureMismatch
  | accessSignatureMismatchInternal
  | staticCallToNonStatic
  | paramSignatureMismatch
  | paramSignatureMismatchInternal
  | templateTypeConstant
  | commentObjectInClassConstantType
  deriving DecidableEq, Repr

/-- The particulars that all issues of one kind share. -/
structure IssueKind.Details where
  name : String
  category : IssueCategory
  severity : Severity
  code : Nat
  template : String

namespace IssueKind

/-- The particulars of a kind. -/
def details : IssueKind → Details
  | .undeclaredVariable => ⟨"UndeclaredVariable", .undefined, .normal, 11000,
    "Variable ${0} is undeclared"⟩
  | .undeclaredClassMethod => ⟨"UndeclaredClassMethod", .undefined, .critical, 11001,
    "Call to method {0} from undeclared class {1}"⟩
  | .undeclaredStaticMethod => ⟨"UndeclaredStaticMethod", .undefined, .critical, 11002,
    "Static call to undeclared method {0}"⟩
  | .undeclaredMethod => ⟨"UndeclaredMethod", .undefined, .critical, 11003,
    "Call to undeclared method {0}"⟩
  | .undeclaredFunction => ⟨"UndeclaredFunction", .undefined, .critical, 11004,
    "Call to undeclared function {0}"⟩
  | .undeclaredProperty => ⟨"UndeclaredProperty", .undefined, .normal, 11005,
    "Reference to undeclared property {0}"⟩
  | .undeclaredStaticProperty => ⟨"UndeclaredStaticProperty", .undefined, .critical, 11006,
    "Static property '{0}' on {1} is undeclared"⟩
  | .undeclaredConstant => ⟨"UndeclaredConstant", .undefined, .critical, 11007,
    "Reference to undeclared constant {0}"⟩
  | .undeclaredClassConstant => ⟨"UndeclaredClassConstant", .undefined, .critical, 11008,
    "Reference to undeclared class constant {0}"⟩
  | .undeclaredClassReference => ⟨"UndeclaredClassReference", .undefined, .critical, 11009,
    "Reference to undeclared class {0}"⟩
  | .undeclaredClassInstanceof => ⟨"UndeclaredClassInstanceof", .undefined, .critical, 11010,
    "Checking instanceof against undeclared class {0}"⟩
  | .undeclaredTypeClassConstant => ⟨"UndeclaredTypeClassConstant", .undefined, .normal, 11011,
    "Class constant {0} has undeclared class type {1}"⟩
  | .undeclaredTypeProperty => ⟨"UndeclaredTypeProperty", .undefined, .normal, 11012,
    "Property {0} has undeclared type {1}"⟩
  | .undeclaredTypeThrowsType => ⟨"UndeclaredTypeThrowsType", .undefined, .normal, 11013,
    "@throws type of {0} has undeclared type {1}"⟩
  | .nonClassMethodCall => ⟨"NonClassMethodCall", .undefined, .critical, 11014,
    "Call to method {0} on non-class type {1}"⟩
  | .parentlessClass => ⟨"ParentlessClass", .undefined, .critical, 11015,
    "Reference to parent of class {0} that does not extend anything"⟩
  | .traitParentReference => ⟨"TraitParentReference", .undefined, .low, 11016,
    "Reference to parent from trait {0}"⟩
  | .contextNotObject => ⟨"ContextNotObject", .undefined, .critical, 11017,
    "Cannot access {0} when not in object context"⟩
  | .typeMismatchDimFetch => ⟨"TypeMismatchDimFetch", .typing, .normal, 10000,
    "When fetching an array index from a value of type {0}, found an array index of type {1}, " ++
      "but expected the index to be of type {2}"⟩
  | .typeMismatchDimFetchNullable => ⟨"TypeMismatchDimFetchNullable", .typing, .low, 10001,
    "When fetching an array index from a value of type {0}, found an array index of type {1}, " ++
      "but expected the index to be of the non-nullable type {2}"⟩
  | .typeArraySuspicious => ⟨"TypeArraySuspicious", .typing, .normal, 10002,
    "Suspicious array access to {0}"⟩
  | .typeArraySuspiciousNullable => ⟨"TypeArraySuspiciousNullable", .typing, .normal, 10003,
    "Suspicious array access to nullable {0}"⟩
  | .typeInvalidDimOffset => ⟨"TypeInvalidDimOffset", .typing, .normal, 10004,
    "Invalid offset {0} of array type {1}"⟩
  | .typeMismatchUnpackValue => ⟨"TypeMismatchUnpackValue", .typing, .normal, 10005,
    "Attempting to unpack a value of type {0} which does not contain any subtypes of iterable " ++
      "(such as array or Traversable)"⟩
  | .typeMismatchUnpackKey => ⟨"TypeMismatchUnpackKey", .typing, .normal, 10006,
    "When unpacking a value of type {0}, the value's keys were of type {1}, but the keys " ++
      "should be consecutive integers"⟩
  | .typeInvalidInstanceof => ⟨"TypeInvalidInstanceof", .typing, .normal, 10007,
    "Found an instanceof class name of type {0}, but class name must be a valid object or a string"⟩
  | .typeInvalidThrowsNonObject => ⟨"TypeInvalidThrowsNonObject", .typing, .normal, 10008,
    "@throws annotation of {0} has invalid non-object type {1}, expected a class"⟩
  | .typeInvalidThrowsNonThrowable => ⟨"TypeInvalidThrowsNonThrowable", .typing, .normal, 10009,
    "@throws annotation of {0} has suspicious class type {1}, which does not extend " ++
      "Error/Exception"⟩
  | .typeInvalidThrowsIsTrait => ⟨"TypeInvalidThrowsIsTrait", .typing, .normal, 10010,
    "@throws annotation of {0} has invalid trait type {1}, expected a class"⟩
  | .typeInvalidThrowsIsInterface => ⟨"TypeInvalidThrowsIsInterface", .typing, .low, 10011,
    "@throws annotation of {0} has suspicious interface type {1} for an @throws annotation, " ++
      "expected class (PHP allows interfaces to be caught, so this might be intentional)"⟩
  | .typeArrayOperator => ⟨"TypeArrayOperator", .typing, .normal, 10012,
    "Invalid array operand provided to operator '{0}' between types {1} and {2}"⟩
  | .typeComparisonFromArray => ⟨"TypeComparisonFromArray", .typing, .low, 10013,
    "array to {0} comparison"⟩
  | .typeComparisonToArray => ⟨"TypeComparisonToArray", .typing, .low, 10014,
    "{0} to array comparison"⟩
  | .typeExpectedObjectPropAccess => ⟨"TypeExpectedObjectPropAccess", .typing, .critical, 10015,
    "Expected an object instance when accessing an instance property, but saw an expression " ++
      "with type {0}"⟩
  | .typeInvalidCloneNotObject => ⟨"TypeInvalidCloneNotObject", .typing, .critical, 10016,
    "Expected an object to be passed to clone() but got {0}"⟩
  | .typeInstantiateAbstract => ⟨"TypeInstantiateAbstract", .typing, .normal, 10017,
    "Instantiation of abstract class {0}"⟩
  | .typeInstantiateInterface => ⟨"TypeInstantiateInterface", .typing, .critical, 10018,
    "Instantiation of interface {0}"⟩
  | .typeInstantiateTrait => ⟨"TypeInstantiateTrait", .typing, .critical, 10019,
    "Instantiation of trait {0}"⟩
  | .accessPropertyPrivate => ⟨"AccessPropertyPrivate", .access, .critical, 1000,
    "Cannot access private property {0} defined at {1}:{2}"⟩
  | .accessPropertyProtected => ⟨"AccessPropertyProtected", .access, .critical, 1001,
    "Cannot access protected property {0} defined at {1}:{2}"⟩
  | .accessMethodPrivate => ⟨"AccessMethodPrivate", .access, .critical, 1002,
    "Cannot access private method {0} defined at {1}:{2}"⟩
  | .accessMethodProtected => ⟨"AccessMethodProtected", .access, .critical, 1003,
    "Cannot access protected method {0} defined at {1}:{2}"⟩
  | .accessSignatureMismatch => ⟨"AccessSignatureMismatch", .access, .normal, 1004,
    "Access level to {0} must be compatible with {1} defined in {2}:{3}"⟩
  | .accessSignatureMismatchInternal => ⟨"AccessSignatureMismatchInternal", .access, .normal, 1005,
    "Access level to {0} must be compatible with internal {1}"⟩
  | .staticCallToNonStatic => ⟨"StaticCallToNonStatic", .access, .critical, 1006,
    "Static call to non-static method {0} defined at {1}:{2}"⟩
  | .paramSignatureMismatch => ⟨"ParamSignatureMismatch", .compatibility, .normal, 3000,
    "Declaration of {0} should be compatible with {1}{2}"⟩
  | .paramSignatureMismatchInternal => ⟨"ParamSignatureMismatchInternal", .compatibility,
    .normal, 3001, "Declaration of {0} should be compatible with internal {1}{2}"⟩
  | .templateTypeConstant => ⟨"TemplateTypeConstant", .comment, .normal, 16000,
    "constant {0} may not have a template type"⟩
  | .commentObjectInClassConstantType => ⟨"CommentObjectInClassConstantType", .comment, .normal,
    16001,
    "Impossible phpdoc declaration that a class constant {0} has a type {1} containing " ++
      "objects. This type is ignored during analysis."⟩

/-- Every kind, in the order of the table. -/
def all : List IssueKind :=
  [.undeclaredVariable, .undeclaredClassMethod, .undeclaredStaticMethod, .undeclaredMethod,
   .undeclaredFunction, .undeclaredProperty, .undeclaredStaticProperty, .undeclaredConstant,
   .undeclaredClassConstant, .undeclaredClassReference, .undeclaredClassInstanceof,
   .undeclaredTypeClassConstant, .undeclaredTypeProperty, .undeclaredTypeThrowsType,
   .nonClassMethodCall, .parentlessClass, .traitParentReference, .contextNotObject,
   .typeMismatchDimFetch, .typeMismatchDimFetchNullable, .typeArraySuspicious,
   .typeArraySuspiciousNullable, .typeInvalidDimOffset, .typeMismatchUnpackValue,
   .typeMismatchUnpackKey, .typeInvalidInstanceof, .typeInvalidThrowsNonObject,
   .typeInvalidThrowsNonThrowable, .typeInvalidThrowsIsTrait, .typeInvalidThrowsIsInterface,
   .typeArrayOperator, .typeComparisonFromArray, .typeComparisonToArray,
   .typeExpectedObjectPropAccess, .typeInvalidCloneNotObject, .typeInstantiateAbstract,
   .typeInstantiateInterface, .typeInstantiateTrait, .accessPropertyPrivate,
   .accessPropertyProtected, .accessMethodPrivate, .accessMethodProtected,
   .accessSignatureMismatch, .accessSignatureMismatchInternal, .staticCallToNonStatic,
   .paramSignatureMismatch, .paramSignatureMismatchInternal, .templateTypeConstant,
   .commentObjectInClassConstantType]

/-- The stable name of a kind. -/
def name (k : IssueKind) : String := k.details.name

/-- The number of a kind. -/
def code (k : IssueKind) : Nat := k.details.code

/-- The kind with the given name. -/
def ofName? (name : String) : Option IssueKind := all.find? fun k => k.name == name

end IssueKind

end UnionInference
