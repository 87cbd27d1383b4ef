import UnionInference.Tree.Kind
import UnionInference.Tree.Flags
import UnionInference.Text.Decimal

/-!
Syntax trees. A node has a kind, a number whose meaning depends on the kind, a line, and children
that stand in named slots or in a row. A child is another node, a literal, or an empty slot.
-/

namespace UnionInference

/-- The slot of a child. -/
inductive Slot where
  | index (i : Nat)
  | name (s : String)
  deriving DecidableEq, Repr

/-- The slot as text. -/
def Slot.text : Slot → String
  | .index i => Text.decimalNat i
  | .name s => s

/-- A node over children of type `α`. -/
structure NodeOf (α : Type) where
  /-- The number under which results about the node are kept. -/
  id : Nat
  kind : NodeKind
  flags : Nat
  line : Nat
  children : List (Slot × α)

/-- A child of a node: a node, a literal or an empty slot. A floating-point literal is kept as the
64 bits of its binary format. -/
inductive Child where
  | node (n : NodeOf Child)
  | int (value : Int)
  | float (bits : UInt64)
  | str (value : String)
  | bool (value : Bool)
  | null

/-- A syntax node. -/
abbrev Node := NodeOf Child

instance : Inhabited Child := ⟨.null⟩

namespace Child

/-- The node, if the child is one. -/
def node? : Child → Option Node
  | .node n => some n
  | _ => none

/-- The string, if the child is a string literal. -/
def str? : Child → Option String
  | .str s => some s
  | _ => none

/-- Whether the slot is empty. -/
def isNull : Child → Bool
  | .null => true
  | _ => false

/-- Whether the child is a literal. -/
def isScalar : Child → Bool
  | .int _ | .float _ | .str _ | .bool _ => true
  | _ => false

/-- The line of a child that is a node. -/
def line? (c : Child) : Option Nat := c.node?.map NodeOf.line

end Child

namespace NodeOf

/-- The child in the first slot of the given name. -/
def child? (n : Node) (name : String) : Option Child :=
  n.children.findSome? fun (slot, c) => if slot = .name name then some c else none

/-- The node in the slot of the given name. -/
def childNode? (n : Node) (name : String) : Option Node := (n.child? name).bind Child.node?

/-- The string in the slot of the given name. -/
def childStr? (n : Node) (name : String) : Option String := (n.child? name).bind Child.str?

/-- The child at a place in the row. -/
def childAt? (n : Node) (i : Nat) : Option Child :=
  n.children.findSome? fun (slot, c) => if slot = .index i then some c else none

/-- The children that stand in the row, in order. -/
def list (n : Node) : List Child :=
  n.children.filterMap fun (slot, c) =>
    match slot with
    | .index _ => some c
    | .name _ => none

/-- The name of a node in messages. -/
def label (n : Node) : String := "NodeId(" ++ Text.decimalNat n.id ++ ")"

end NodeOf

end UnionInference
