import UnionInference.Analysis.Resolve
import UnionInference.Binary64

/-!
How the parts of an expression are evaluated. The rules for the kinds of node are written against an
evaluator: it tells where the node stands, whether issues are reported at once, and how a child is
evaluated one level down.
-/

namespace UnionInference

/-- Where a node stands and how its children are evaluated. -/
structure Evaluator where
  context : Context
  /-- Whether an issue is reported where it arises; else it fails the whole expression. -/
  catching : Bool
  /-- Evaluates a child, with the given way of catching issues, in the given context. -/
  run : Bool → Context → Child → AnalysisM UnionType

namespace Evaluator

/-- Evaluates a child. -/
def visit (v : Evaluator) (child : Child) : AnalysisM UnionType := v.run v.catching v.context child

/-- Evaluates a child in another context. -/
def visitIn (v : Evaluator) (c : Context) (child : Child) : AnalysisM UnionType :=
  v.run v.catching c child

/-- Evaluates a child without reporting issues; where it fails nothing is known. -/
def visitQuietly (v : Evaluator) (child : Child) : AnalysisM UnionType :=
  AnalysisM.recover (v.run false v.context child) fun _ => pure .empty

/-- Evaluates a child for the issues in it. -/
def visitForEffects (v : Evaluator) (child : Child) : AnalysisM Unit :=
  AnalysisM.recover (do let _ ← v.visit child) fun _ => pure ()

/-- Reports an issue that leaves the type of the expression as it is. -/
def report (v : Evaluator) (kind : IssueKind) (line : Nat) (args : List String) : AnalysisM Unit :=
  AnalysisM.report v.context kind line args

/-- Fails with an issue. -/
def failWith {α : Type} (v : Evaluator) (kind : IssueKind) (line : Nat) (args : List String) :
    AnalysisM α :=
  AnalysisM.failWith v.context kind line args

end Evaluator

/-- A child that must be there. -/
def required (n : Node) (name : String) : AnalysisM Child :=
  match n.child? name with
  | some c => pure c
  | none => AnalysisM.unanalyzable n "missing child"

/-- A child that is there and no empty slot. -/
def optional? (n : Node) (name : String) : Option Child :=
  (n.child? name).filter fun c => !c.isNull

namespace Child

/-- The literal value of a child that is no node. -/
def scalar? : Child → Option Scalar
  | .int n => some (.int n)
  | .float bits => some (.float bits)
  | .str s => some (.string s)
  | .bool b => some (.bool b)
  | .null => some .null
  | .node _ => none

/-- Whether a condition holds, if it is a literal or one of the constants for truth and null. -/
def truthiness? : Child → Option Bool
  | .int n => some (n != 0)
  | .float bits => some (!Binary64.isZero bits)
  | .str s => some (!(s.isEmpty || s == "0"))
  | .bool b => some b
  | .null => some false
  | .node n =>
    if n.kind = .constant then
      match ((n.childNode? "name").bind fun m => m.childStr? "name").map Text.fold with
      | some "true" => some true
      | some "false" | some "null" => some false
      | _ => none
    else none

end Child

/-- The type of a literal. -/
def literalType (s : Scalar) : AnalysisM UnionType := do
  AnalysisM.types (UnionType.ofScalar s (← AnalysisM.options))

end UnionInference
