/-!
The kinds of syntax node. Each has a number, under which a front end names it.
-/

namespace UnionInference

/-- The kind of a syntax node. -/
inductive NodeKind where
  | variable
  | name
  | constant
  | classConst
  | className
  | magicConst
  | binaryOp
  | unaryOp
  | preInc
  | preDec
  | postInc
  | postDec
  | assign
  | assignRef
  | assignOp
  | cast
  | instanceOf
  | conditional
  | array
  | arrayElem
  | unpack
  | dim
  | prop
  | nullsafeProp
  | staticProp
  | call
  | methodCall
  | nullsafeMethodCall
  | staticCall
  | new
  | argList
  | closure
  | arrowFunc
  | paramList
  | param
  | closureUses
  | closureVar
  | returnStmt
  | stmtList
  | classDecl
  | typeHint
  | nullableType
  | typeUnion
  | isset
  | empty
  | clone
  | yieldExpr
  | yieldFrom
  | print
  | encaps
  | shellExec
  | includeExpr
  | matchExpr
  | matchArmList
  | matchArm
  | exprList
  | throwExpr
  | exit
  deriving DecidableEq, Repr, Inhabited

namespace NodeKind

/-- The number and the name of a kind. -/
def label : NodeKind → Nat × String
  | .variable => (0, "Variable")
  | .name => (1, "Name")
  | .constant => (2, "Const")
  | .classConst => (3, "ClassConst")
  | .className => (4, "ClassName")
  | .magicConst => (5, "MagicConst")
  | .binaryOp => (10, "BinaryOp")
  | .unaryOp => (11, "UnaryOp")
  | .preInc => (12, "PreInc")
  | .preDec => (13, "PreDec")
  | .postInc => (14, "PostInc")
  | .postDec => (15, "PostDec")
  | .assign => (16, "Assign")
  | .assignRef => (17, "AssignRef")
  | .assignOp => (18, "AssignOp")
  | .cast => (19, "Cast")
  | .instanceOf => (20, "Instanceof")
  | .conditional => (21, "Conditional")
  | .array => (30, "Array")
  | .arrayElem => (31, "ArrayElem")
  | .unpack => (32, "Unpack")
  | .dim => (33, "Dim")
  | .prop => (40, "Prop")
  | .nullsafeProp => (41, "NullsafeProp")
  | .staticProp => (42, "StaticProp")
  | .call => (43, "Call")
  | .methodCall => (44, "MethodCall")
  | .nullsafeMethodCall => (45, "NullsafeMethodCall")
  | .staticCall => (46, "StaticCall")
  | .new => (47, "New")
  | .argList => (48, "ArgList")
  | .closure => (50, "Closure")
  | .arrowFunc => (51, "ArrowFunc")
  | .paramList => (52, "ParamList")
  | .param => (53, "Param")
  | .closureUses => (54, "ClosureUses")
  | .closureVar => (55, "ClosureVar")
  | .returnStmt => (56, "Return")
  | .stmtList => (57, "StmtList")
  | .classDecl => (58, "Class")
  | .typeHint => (60, "Type")
  | .nullableType => (61, "NullableType")
  | .typeUnion => (62, "TypeUnion")
  | .isset => (70, "Isset")
  | .empty => (71, "Empty")
  | .clone => (72, "Clone")
  | .yieldExpr => (73, "Yield")
  | .yieldFrom => (74, "YieldFrom")
  | .print => (75, "Print")
  | .encaps => (76, "Encaps")
  | .shellExec => (77, "ShellExec")
  | .includeExpr => (78, "Include")
  | .matchExpr => (79, "Match")
  | .matchArmList => (80, "MatchArmList")
  | .matchArm => (81, "MatchArm")
  | .exprList => (82, "ExprList")
  | .throwExpr => (83, "Throw")
  | .exit => (84, "Exit")

/-- The number of a kind. -/
def code (k : NodeKind) : Nat := k.label.1

/-- The name of a kind in text. -/
def text (k : NodeKind) : String := k.label.2

/-- Every kind, by ascending number. -/
def all : List NodeKind :=
  [.variable, .name, .constant, .classConst, .className, .magicConst, .binaryOp, .unaryOp,
   .preInc, .preDec, .postInc, .postDec, .assign, .assignRef, .assignOp, .cast, .instanceOf,
   .conditional, .array, .arrayElem, .unpack, .dim, .prop, .nullsafeProp, .staticProp, .call,
   .methodCall, .nullsafeMethodCall, .staticCall, .new, .argList, .closure, .arrowFunc,
   .paramList, .param, .closureUses, .closureVar, .returnStmt, .stmtList, .classDecl, .typeHint,
   .nullableType, .typeUnion, .isset, .empty, .clone, .yieldExpr, .yieldFrom, .print, .encaps,
   .shellExec, .includeExpr, .matchExpr, .matchArmList, .matchArm, .exprList, .throwExpr, .exit]

/-- The kind with the given number. -/
def ofCode? (n : Nat) : Option NodeKind := all.find? fun k => k.code == n

/-- Whether the children of the node are a plain list. -/
def isList : NodeKind → Bool
  | .array | .argList | .paramList | .closureUses | .stmtList | .typeUnion | .encaps
  | .matchArmList | .exprList => true
  | _ => false

/-- Whether the node is a call of a function or a method. -/
def isCall : NodeKind → Bool
  | .call | .methodCall | .nullsafeMethodCall | .staticCall => true
  | _ => false

end NodeKind

end UnionInference
