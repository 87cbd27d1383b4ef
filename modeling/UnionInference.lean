import UnionInference.Analysis.Access
import UnionInference.Analysis.Arrays
import UnionInference.Analysis.Context
import UnionInference.Analysis.Declaration
import UnionInference.Analysis.Declared
import UnionInference.Analysis.Evaluator
import UnionInference.Analysis.Expression
import UnionInference.Analysis.Operator
import UnionInference.Analysis.Resolve
import UnionInference.Analysis.Scope
import UnionInference.Analysis.World
import UnionInference.Binary64
import UnionInference.CodeBase.Basic
import UnionInference.CodeBase.Element
import UnionInference.CodeBase.Hydrate
import UnionInference.CodeBase.Load
import UnionInference.CodeBase.Member
import UnionInference.CodeBase.Undo
import UnionInference.Hashing
import UnionInference.Issue.Basic
import UnionInference.Issue.Kind
import UnionInference.Name
import UnionInference.Options.Basic
import UnionInference.Options.Json
import UnionInference.Table.Interner
import UnionInference.Table.Multi
import UnionInference.Table.Ordered
import UnionInference.Text.Blank
import UnionInference.Text.Decimal
import UnionInference.Text.Fold
import UnionInference.Text.Quoted
import UnionInference.Tree.Builder
import UnionInference.Tree.Flags
import UnionInference.Tree.Kind
import UnionInference.Tree.Node
import UnionInference.Types.Basic
import UnionInference.Types.Cast
import UnionInference.Types.Catalogue
import UnionInference.Types.Expand
import UnionInference.Types.Native
import UnionInference.Types.Parse
import UnionInference.Types.Table
import UnionInference.Types.Template
import UnionInference.Types.Union
import UnionInference.Types.Violation
import UnionInference.Proofs.Text
import UnionInference.Proofs.Name
import UnionInference.Proofs.Types.Scan
import UnionInference.Proofs.Types.Canonical
import UnionInference.Proofs.Types.Rendering
import UnionInference.Proofs.Types.Unambiguous
import UnionInference.Proofs.Types.Interning
import UnionInference.Proofs.Types.Reading
import UnionInference.Proofs.Types.Nesting
import UnionInference.Proofs.Types.RoundTrip
import UnionInference.Proofs.CodeBase.Members
import UnionInference.Proofs.CodeBase.Hydration
import UnionInference.Proofs.CodeBase.Expansion
import UnionInference.Proofs.CodeBase.ExpansionCache
import UnionInference.Proofs.CodeBase.Session
import UnionInference.Proofs.Types.Listing
import UnionInference.Proofs.CodeBase.SelfContained
import UnionInference.Proofs.CodeBase.Ancestry
import UnionInference.Proofs.CodeBase.Elements
import UnionInference.Proofs.CodeBase.Copies
import UnionInference.Proofs.CodeBase.Mirror
import UnionInference.Proofs.CodeBase.Retraction
import UnionInference.Proofs.CodeBase.LookUps
import UnionInference.Proofs.CodeBase.Supplements
import UnionInference.Proofs.Analysis.Steps
import UnionInference.Proofs.Analysis.Issues
import UnionInference.Proofs.Analysis.Modes
import UnionInference.Proofs.Analysis.Frame
import UnionInference.Proofs.ClassName
import UnionInference.Proofs.Types.Sound
import UnionInference.Proofs.Types.Supply
import UnionInference.Proofs.Types.Placeholders
import UnionInference.Proofs.CodeBase.Sound
import UnionInference.Proofs.CodeBase.Shallow
import UnionInference.Proofs.Analysis.Sound
import UnionInference.Proofs.Analysis.Resolve
import UnionInference.Proofs.Analysis.Operators
import UnionInference.Proofs.Analysis.Calls
import UnionInference.Proofs.Analysis.Safety
import UnionInference.Proofs.Analysis.Tracing
import UnionInference.Proofs.Analysis.Totality
import UnionInference.Proofs.Types.Parts
import UnionInference.Proofs.Types.Proper
import UnionInference.Proofs.Types.Replacing
import UnionInference.Proofs.Types.Substitution
import UnionInference.Proofs.Types.TemplateNames
import UnionInference.Proofs.Types.StaticTypes
import UnionInference.Proofs.Types.Erasure
import UnionInference.Proofs.Types.Casting
import UnionInference.Proofs.Types.NullCasts
import UnionInference.Proofs.Types.Widening
import UnionInference.Proofs.Types.Arrays
import UnionInference.Proofs.Types.Flattening
import UnionInference.Proofs.Types.Learning
import UnionInference.Proofs.Types.Binding
import UnionInference.Proofs.Types.Inference
import UnionInference.Proofs.CodeBase.Settled
import UnionInference.Proofs.CodeBase.Closure
import UnionInference.Proofs.Analysis.Literals
import UnionInference.Proofs.Analysis.Indexing
import UnionInference.Proofs.Analysis.Overrides
import UnionInference.Proofs.Analysis.ShapeIndexing
import UnionInference.Proofs.Analysis.Receivers
import UnionInference.Proofs.CodeBase.TraitMembers
import UnionInference.Proofs.Analysis.TraitAccess
import UnionInference.Proofs.Analysis.Repetition
import UnionInference.Proofs.Analysis.RepeatedRules
import UnionInference.Proofs.Analysis.Echo
import UnionInference.Proofs.Analysis.Passes
import UnionInference.Proofs.CodeBase.Resolving
import UnionInference.Proofs.CodeBase.Reentrancy
import UnionInference.Proofs.CodeBase.Upkeep
import UnionInference.Proofs.CodeBase.Ascription
import UnionInference.Proofs.Types.NormalForm
import UnionInference.Proofs.Types.ReadingSafety
import UnionInference.Proofs.Table.Rows
import UnionInference.Proofs.CodeBase.Reset
import UnionInference.Proofs.Issue.Messages
import UnionInference.Proofs.FullName
import UnionInference.Proofs.Types.ClassIdentity
import UnionInference.Proofs.Types.NullTwins
import UnionInference.Proofs.Table.Changes
import UnionInference.Proofs.CodeBase.Termination
import UnionInference.Proofs.CodeBase.History
import UnionInference.Proofs.CodeBase.WellKeyed
import UnionInference.Proofs.Types.Grounded
import UnionInference.Proofs.Types.Descent
import UnionInference.Proofs.Analysis.Agreement
