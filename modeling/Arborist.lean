import Arborist.Adapter
import Arborist.Analysis.Calculator
import Arborist.Analysis.Complexity
import Arborist.Analysis.Depth
import Arborist.Analysis.FragmentOrder
import Arborist.Analysis.Selections
import Arborist.Batch
import Arborist.Children
import Arborist.Decimal.Binary64
import Arborist.Decimal.Integer
import Arborist.Decimal.Shortest
import Arborist.Dict
import Arborist.Error
import Arborist.Fanout
import Arborist.Graph
import Arborist.Identity
import Arborist.Json.Basic
import Arborist.Json.Coercion
import Arborist.Json.OfValue
import Arborist.Proofs.Simultaneous
import Arborist.Proofs.Splicing
import Arborist.Query.Block
import Arborist.Query.Document
import Arborist.Query.Node
import Arborist.Query.Print
import Arborist.Query.Sharing
import Arborist.Query.Tree
import Arborist.Query.Value
import Arborist.Role
import Arborist.Script.Action
import Arborist.Script.Look
import Arborist.Script.Visitor
import Arborist.Transform
import Arborist.Traversal.Context
import Arborist.Traversal.Request
import Arborist.Traversal.Walk
import Arborist.Vars
import Arborist.Visitor
import Arborist.Zipper
import Arborist.Zipper.Root
import Arborist.Zipper.Splice
import Arborist.Proofs.Reconciliation
import Arborist.Proofs.Rounds
import Arborist.Proofs.AllAtOnce
import Arborist.Proofs.Descent
import Arborist.Proofs.Agreement
import Arborist.Proofs.Expansion
import Arborist.Proofs.Simulation
import Arborist.Proofs.Levels
import Arborist.Proofs.Limits
import Arborist.Proofs.Inlining
import Arborist.Proofs.NestedSelections
import Arborist.Proofs.SpreadNames
import Arborist.Proofs.OperationDepth
import Arborist.Proofs.Records
import Arborist.Proofs.Rewriting
import Arborist.Proofs.Bookkeeping
import Arborist.Proofs.Recording
import Arborist.Proofs.Forests
import Arborist.Proofs.Transformation
import Arborist.Proofs.DependencyOrder
import Arborist.Proofs.Scoring
import Arborist.Proofs.OperationComplexity
import Arborist.Proofs.Likeness
import Arborist.Proofs.Counterparts
import Arborist.Proofs.Sharing
import Arborist.Proofs.Positions
import Arborist.Proofs.EditLog
import Arborist.Proofs.InStep
import Arborist.Proofs.Reordering
import Arborist.Proofs.Callbacks
import Arborist.Proofs.Exactness
import Arborist.Proofs.LevelOrder
import Arborist.Proofs.FanoutVisits
import Arborist.Proofs.InPlace
import Arborist.Proofs.Equality
import Arborist.Proofs.Rebuilding
import Arborist.Proofs.DeclaredTypes
import Arborist.Proofs.Legibility
import Arborist.Proofs.PrintedValues
import Arborist.Proofs.RoundTrip
import Arborist.Proofs.PrintedDocuments
import Arborist.Proofs.SiblingEdits
import Arborist.Proofs.DeletedRoot
import Arborist.Proofs.Folding
import Arborist.Proofs.Landing
import Arborist.Proofs.Frugality
import Arborist.Proofs.IndexRange
import Arborist.Proofs.Bystanders
import Arborist.Proofs.TopologicalOrder
import Arborist.Proofs.UpwardView
import Arborist.Proofs.Coercibility
import Arborist.Proofs.StringLiterals
import Arborist.Proofs.Rounding
import Arborist.Proofs.ShortestDecimals
import Arborist.Proofs.NumberTexts
import Arborist.Proofs.Recoercion
import Arborist.Proofs.Refusals
import Arborist.Proofs.InsertionOrder
import Arborist.Proofs.Arenas
import Arborist.Proofs.Progress
