import UnionInference.Analysis.Context
import UnionInference.CodeBase.Hydrate
import UnionInference.Tree.Node

/-!
The state of an analysis and the work on it. Work may fail: with an issue that the analysed program
has, or because a node cannot be understood. A failure keeps what was done before it; a violation of
what the library asks for ends the work.
-/

namespace UnionInference

/-- What a condition tells about variables: their types where it holds, and where it does not. -/
structure Narrowing where
  whenTrue : List (String × UnionType) := []
  whenFalse : List (String × UnionType) := []

/-- What stays fixed during an analysis. -/
structure Setup where
  options : Options := {}
  narrowing : Narrowing := {}

/-- What an analysis knows and has found. -/
structure World where
  types : TypeTable
  base : CodeBase
  issues : IssueLog := {}
  /-- The scopes that contexts refer to. -/
  scopes : Array Scope := #[]
  /-- The types found for nodes, in the stores that contexts refer to. -/
  caches : Array (Std.HashMap Nat UnionType) := #[]

/-- Why an expression has no type. -/
inductive Failure where
  | issue (issue : Issue)
  | unanalyzable (node : Nat) (reason : String)

/-- The failure as text. -/
def Failure.text : Failure → String
  | .issue i => i.text
  | .unanalyzable node reason =>
    "cannot analyze NodeId(" ++ Text.decimalNat node ++ "): " ++ reason

/-- Work that may fail. -/
abbrev AnalysisM := ReaderT Setup (ExceptT Failure (StateT World Checked))

namespace AnalysisM

variable {α : Type}

/-- Gives up with a failure. -/
def fail (f : Failure) : AnalysisM α := fun _ w => .ok (.error f, w)

/-- Goes on after a failure, from the state it left. -/
def recover (work : AnalysisM α) (handle : Failure → AnalysisM α) : AnalysisM α := fun s w => do
  match ← work s w with
  | (.ok a, w) => return (.ok a, w)
  | (.error f, w) => handle f s w

/-- Work on the types alone. -/
def types (work : TypeM α) : AnalysisM α := fun _ w => do
  let (a, t) ← work w.types
  return (.ok a, { w with types := t })

/-- Asks the table of types. -/
def query (f : TypeTable → Checked α) : AnalysisM α := fun _ w => do
  let a ← f w.types
  return (.ok a, w)

/-- Work on the code base alone. -/
def base (work : BaseM α) : AnalysisM α := fun _ w =>
  let (a, b) := work w.base
  .ok (.ok a, { w with base := b })

/-- Work on the types and the code base. -/
def hierarchy (work : ExpandM CodeBase α) : AnalysisM α := fun _ w => do
  let (a, (t, b)) ← work (w.types, w.base)
  return (.ok a, { w with types := t, base := b })

/-- The options. -/
def options : AnalysisM Options := do return (← read).options

/-- The class, which must be registered. -/
def getClass (name : ClassName) : AnalysisM ClassDecl := fun _ w => do
  let (c, b) ← CodeBase.getClass name w.base
  return (.ok c, { w with base := b })

/-- Whether the class exists, after loading it if it can be. -/
def hasClass (name : ClassName) : AnalysisM Bool := base (CodeBase.hasClass name)

/-- The code base as it is. -/
def codeBase : AnalysisM CodeBase := do return (← get).base

/-- Reports an issue. -/
def emit (i : Issue) : AnalysisM Unit := modify fun w => { w with issues := w.issues.add i }

/-- Reports an issue at a line of the file. -/
def report (c : Context) (kind : IssueKind) (line : Nat) (args : List String) : AnalysisM Unit :=
  emit (c.issue kind line args)

/-- Gives up with an issue at a line of the file. -/
def failWith (c : Context) (kind : IssueKind) (line : Nat) (args : List String) : AnalysisM α :=
  fail (.issue (c.issue kind line args))

/-- Gives up on a node. -/
def unanalyzable (n : Node) (reason : String) : AnalysisM α := fail (.unanalyzable n.id reason)

/-- A union in a message; where nothing is known it reads as any value. -/
def display (u : UnionType) : AnalysisM String := do
  let text ← query u.display
  return if text.isEmpty then NativeKind.mixed.name else text

end AnalysisM

namespace World

/-- A world without classes and issues. -/
def create (o : Options) : World :=
  { types := .initial o.nullCastsAsAnyType, base := .create o.hydrateLazily }

/-- The scope of a context. -/
def scopeOf (w : World) (c : Context) : Scope := w.scopes[c.scope]?.getD .function

/-- The store of results of a context. -/
def cacheOf (w : World) (c : Context) : Std.HashMap Nat UnionType := w.caches[c.cache]?.getD {}

/-- The number of results in the store of a context. -/
def cachedCount (w : World) (c : Context) : Nat := (w.cacheOf c).size

/-- A context outside of functions and namespaces, with a scope and a store of its own. -/
def newContext (w : World) (file : String) : Context × World :=
  ({ file, scope := w.scopes.size, cache := w.caches.size },
    { w with scopes := w.scopes.push .global, caches := w.caches.push {} })

/-- The context with a scope of its own. -/
def withScope (w : World) (c : Context) (s : Scope) : Context × World :=
  ({ c with scope := w.scopes.size }, { w with scopes := w.scopes.push s })

/-- The context with a copy of its scope in which a variable is defined. -/
def withVariable (w : World) (c : Context) (name : String) (type : UnionType) : Context × World :=
  w.withScope c ((w.scopeOf c).add name type)

/-- The context inside a function, with an empty scope. -/
def withFunction (w : World) (c : Context) (f : Enclosing) (isStatic : Bool) : Context × World :=
  w.withScope { c with enclosing := some f, isStatic } .function

/-- The context with an empty store of results. -/
def withFreshCache (w : World) (c : Context) : Context × World :=
  ({ c with cache := w.caches.size }, { w with caches := w.caches.push {} })

/-- Defines a variable in the scope of a context. -/
def define (w : World) (c : Context) (name : String) (type : UnionType) : World :=
  { w with scopes := w.scopes.modify c.scope fun s => s.add name type }

/-- Keeps the type of a node. -/
def remember (w : World) (c : Context) (node : Nat) (type : UnionType) : World :=
  { w with caches := w.caches.modify c.cache fun m => m.insert node type }

/-- The context with a copy of its scope for each variable that is defined. -/
def withVariables (w : World) (c : Context) : List (String × UnionType) → Context × World
  | [] => (c, w)
  | (name, type) :: rest =>
    let (c, w) := w.withVariable c name type
    w.withVariables c rest

end World

namespace AnalysisM

/-- A context made by changing the world. -/
def newContext (f : World → Context × World) : AnalysisM Context := modifyGet f

/-- The scope of a context. -/
def scopeOf (c : Context) : AnalysisM Scope := do return (← get).scopeOf c

/-- The context where a condition holds, or where it does not. -/
def narrow (c : Context) (holds : Bool) : AnalysisM Context := do
  let n := (← read).narrowing
  newContext fun w => w.withVariables c (if holds then n.whenTrue else n.whenFalse)

end AnalysisM

end UnionInference
