import UnionInference.Tree.Node
import UnionInference.Text.Fold

/-!
Building syntax trees. Nodes are numbered in the order in which they are built, and each bears the
line that was set last.
-/

namespace UnionInference

/-- The number of the next node and the line it will bear. -/
structure Builder where
  next : Nat := 0
  line : Nat := 1

/-- A step of building a tree. -/
abbrev BuilderM := StateM Builder

namespace Builder

/-- Sets the line of the nodes built from now on. -/
def setLine (line : Nat) : BuilderM Unit := modify fun b => { b with line }

/-- A node with the given children. -/
def node (kind : NodeKind) (flags : Nat) (children : List (Slot × Child)) : BuilderM Child := do
  let b ← get
  set { b with next := b.next + 1 }
  return .node { id := b.next, kind, flags, line := b.line, children }

/-- A node whose children stand in named slots. -/
def named (kind : NodeKind) (flags : Nat) (children : List (String × Child)) : BuilderM Child :=
  node kind flags (children.map fun (name, c) => (.name name, c))

/-- The children in a row, numbered from zero. -/
def row (items : List Child) : List (Slot × Child) :=
  items.mapIdx fun i c => (.index i, c)

/-- A node whose children stand in a row. -/
def list (kind : NodeKind) (items : List Child) : BuilderM Child := node kind 0 (row items)

/-! ### Names -/

/-- A variable. -/
def var (name : String) : BuilderM Child := named .variable 0 [("name", .str name)]

/-- A name. A backslash in front makes it fully qualified, the word `namespace` relative. -/
def name (text : String) : BuilderM Child :=
  let (kind, rest) :=
    match Text.dropStart? text "\\" with
    | some rest => (NameKind.fullyQualified, rest)
    | none =>
      match Text.dropStart? text "namespace\\" with
      | some rest => (.relative, rest)
      | none => (.notFullyQualified, text)
  named .name kind.code [("name", .str rest)]

/-- A reference to a constant. -/
def constant (text : String) : BuilderM Child := do
  named .constant 0 [("name", ← name text)]

/-- A constant of a class. -/
def classConst (owner : Child) (name : String) : BuilderM Child :=
  named .classConst 0 [("class", owner), ("const", .str name)]

/-- The name of a class as a string. -/
def className (owner : Child) : BuilderM Child := named .className 0 [("class", owner)]

/-- A constant that depends on where it stands. -/
def magic (flags : Nat) : BuilderM Child := named .magicConst flags []

/-! ### Operators -/

/-- An operation on two operands. -/
def binary (flags : Nat) (left right : Child) : BuilderM Child :=
  named .binaryOp flags [("left", left), ("right", right)]

/-- An operation on one operand. -/
def unary (flags : Nat) (expr : Child) : BuilderM Child := named .unaryOp flags [("expr", expr)]

/-- An increment or a decrement. -/
def incDec (kind : NodeKind) (var : Child) : BuilderM Child := named kind 0 [("var", var)]

/-- An assignment. -/
def assign (var expr : Child) : BuilderM Child := named .assign 0 [("var", var), ("expr", expr)]

/-- An assignment that combines the old value with a new one. -/
def assignOp (flags : Nat) (var expr : Child) : BuilderM Child :=
  named .assignOp flags [("var", var), ("expr", expr)]

/-- An explicit conversion. -/
def cast (flags : Nat) (expr : Child) : BuilderM Child := named .cast flags [("expr", expr)]

/-- A test whether a value belongs to a class. -/
def instanceOf (expr owner : Child) : BuilderM Child :=
  named .instanceOf 0 [("expr", expr), ("class", owner)]

/-- A choice between two values; without the first one, the condition itself stands for it. -/
def conditional (cond yes no : Child) : BuilderM Child :=
  named .conditional 0 [("cond", cond), ("true", yes), ("false", no)]

/-! ### Arrays -/

/-- An element with a key, or with none if the slot is empty. -/
def elem (key value : Child) : BuilderM Child :=
  named .arrayElem 0 [("value", value), ("key", key)]

/-- An array literal of the given elements. -/
def arrayOf (items : List Child) : BuilderM Child := list .array items

/-- An array literal of keys and values. -/
def array (items : List (Child × Child)) : BuilderM Child := do
  arrayOf (← items.mapM fun (key, value) => elem key value)

/-- An array literal of values without keys. -/
def arrayList (values : List Child) : BuilderM Child := array (values.map fun v => (.null, v))

/-- The spreading of a value. -/
def unpack (expr : Child) : BuilderM Child := named .unpack 0 [("expr", expr)]

/-- Indexing, or appending if the slot of the index is empty. -/
def dim (expr index : Child) : BuilderM Child := named .dim 0 [("expr", expr), ("dim", index)]

/-! ### Members and calls -/

/-- A property of an object, reached through `kind`. -/
def prop (kind : NodeKind) (expr : Child) (name : String) : BuilderM Child :=
  named kind 0 [("expr", expr), ("prop", .str name)]

/-- A static property. -/
def staticProp (owner : Child) (name : String) : BuilderM Child :=
  named .staticProp 0 [("class", owner), ("prop", .str name)]

/-- The arguments of a call. -/
def args (items : List Child) : BuilderM Child := list .argList items

/-- A call of a name or of any value that can be called. -/
def call (expr : Child) (items : List Child) : BuilderM Child := do
  let items ← args items
  named .call 0 [("expr", expr), ("args", items)]

/-- A call of a function by name. -/
def callFunction (text : String) (items : List Child) : BuilderM Child := do
  call (← name text) items

/-- A call of a method of an object, reached through `kind`. -/
def methodCall (kind : NodeKind) (expr : Child) (method : String) (items : List Child) :
    BuilderM Child := do
  let items ← args items
  named kind 0 [("expr", expr), ("method", .str method), ("args", items)]

/-- A call of a static method. -/
def staticCall (owner : Child) (method : String) (items : List Child) : BuilderM Child := do
  let items ← args items
  named .staticCall 0 [("class", owner), ("method", .str method), ("args", items)]

/-- The making of an object. -/
def instantiate (owner : Child) (items : List Child) : BuilderM Child := do
  let items ← args items
  named .new 0 [("class", owner), ("args", items)]

/-! ### Functions and declared types -/

/-- The keyword of a built-in type. -/
def typeHint (flags : Nat) : BuilderM Child := named .typeHint flags []

/-- A type that admits null. -/
def nullableType (inner : Child) : BuilderM Child := named .nullableType 0 [("type", inner)]

/-- A union of types. -/
def typeUnion (items : List Child) : BuilderM Child := list .typeUnion items

/-- A parameter; its type and its default may be empty slots. -/
def param (name : String) (type default : Child) (flags : Nat) : BuilderM Child :=
  named .param (ParamMarks.ofBits flags).bits
    [("type", type), ("name", .str name), ("default", default)]

/-- A closure with its captured variables and no statements. -/
def closure (params : List Child) (uses : List String) (result : Child) (flags : Nat) :
    BuilderM Child := do
  let params ← list .paramList params
  let uses ← list .closureUses (← uses.mapM fun u => named .closureVar 0 [("name", .str u)])
  let stmts ← list .stmtList []
  named .closure (Modifiers.ofBits flags).bits
    [("params", params), ("uses", uses), ("stmts", stmts), ("returnType", result)]

/-- A function given by one expression. -/
def arrowFunction (params : List Child) (result body : Child) : BuilderM Child := do
  let params ← list .paramList params
  named .arrowFunc 0 [("params", params), ("stmts", body), ("returnType", result)]

/-! ### Other expressions -/

/-- A node around one expression. -/
def wrap (kind : NodeKind) (expr : Child) : BuilderM Child :=
  named kind 0 [(if kind = .isset then "var" else "expr", expr)]

/-- A value handed out by a generator; value and key may be empty slots. -/
def yieldValue (value key : Child) : BuilderM Child :=
  named .yieldExpr 0 [("value", value), ("key", key)]

/-- A string with parts to be filled in. -/
def encaps (parts : List Child) : BuilderM Child := list .encaps parts

/-- A command with parts to be filled in. -/
def shellExec (parts : List Child) : BuilderM Child := do
  named .shellExec 0 [("expr", ← encaps parts)]

/-- A match over arms; an arm without conditions is the default. -/
def matchExpr (cond : Child) (arms : List (Option (List Child) × Child)) : BuilderM Child := do
  let arms ← arms.mapM fun (conds, expr) => do
    let conds ←
      match conds with
      | some items => list .exprList items
      | none => pure .null
    named .matchArm 0 [("cond", conds), ("expr", expr)]
  let arms ← list .matchArmList arms
  named .matchExpr 0 [("cond", cond), ("stmts", arms)]

end Builder

end UnionInference
