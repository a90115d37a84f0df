import FlexConfig.Backend.Addresses
import FlexConfig.Backend.Compensation
import FlexConfig.Backend.Deletions
import FlexConfig.Backend.Inverse
import FlexConfig.Backend.Journal
import FlexConfig.Backend.Messages
import FlexConfig.Backend.Mirror
import FlexConfig.Backend.Setback
import FlexConfig.Backend.StartupRollback
import FlexConfig.Backend.TakenBack
import FlexConfig.Constraint.Evaluation
import FlexConfig.Constraint.Grammar
import FlexConfig.Constraint.Handlers
import FlexConfig.Constraint.Logic
import FlexConfig.Constraint.MatchRegex
import FlexConfig.Constraint.Readings
import FlexConfig.Constraint.Resolution
import FlexConfig.Constraint.WellFormed
import FlexConfig.Constraint.Wildcards
import FlexConfig.Constraint.Written
import FlexConfig.Foundation.Concurrent
import FlexConfig.Foundation.Discipline
import FlexConfig.Foundation.Effect
import FlexConfig.Foundation.Heap
import FlexConfig.Foundation.Insertion
import FlexConfig.Foundation.ItemStore
import FlexConfig.Foundation.Keyed
import FlexConfig.Foundation.Packrat
import FlexConfig.Foundation.PackratParts
import FlexConfig.Foundation.PackratPrefix
import FlexConfig.Foundation.PackratReading
import FlexConfig.Foundation.PackratSimulation
import FlexConfig.Foundation.Peg
import FlexConfig.Foundation.Procedure
import FlexConfig.Foundation.SortedMap
import FlexConfig.Foundation.Strtok
import FlexConfig.Foundation.Text
import FlexConfig.Foundation.Until
import FlexConfig.Json.Builder
import FlexConfig.Json.Callback
import FlexConfig.Json.Difference
import FlexConfig.Json.Document
import FlexConfig.Json.Grammar
import FlexConfig.Json.Lexemes
import FlexConfig.Json.Lexer
import FlexConfig.Json.Members
import FlexConfig.Json.Merge
import FlexConfig.Json.Numerals
import FlexConfig.Json.Order
import FlexConfig.Json.Parser
import FlexConfig.Json.Patch
import FlexConfig.Json.Pointer
import FlexConfig.Json.Rewriting
import FlexConfig.Json.RoundTrip
import FlexConfig.Json.Serializer
import FlexConfig.Json.Shape
import FlexConfig.Json.Value
import FlexConfig.Manager.Acceptance
import FlexConfig.Manager.Actions
import FlexConfig.Manager.Atomicity
import FlexConfig.Manager.Candidate
import FlexConfig.Manager.Coherence
import FlexConfig.Manager.ConfigFile
import FlexConfig.Manager.Constraints
import FlexConfig.Manager.DuplicatedKeys
import FlexConfig.Manager.Exactness
import FlexConfig.Manager.Faults
import FlexConfig.Manager.Isolation
import FlexConfig.Manager.Manager
import FlexConfig.Manager.Operations
import FlexConfig.Manager.Patches
import FlexConfig.Manager.Progress
import FlexConfig.Manager.ReferenceIndex
import FlexConfig.Manager.ReferenceRemoval
import FlexConfig.Manager.References
import FlexConfig.Manager.Refusals
import FlexConfig.Manager.Reloading
import FlexConfig.Manager.Requested
import FlexConfig.Manager.Restart
import FlexConfig.Manager.Routine
import FlexConfig.Manager.Saving
import FlexConfig.Manager.Updates
import FlexConfig.Ordering.Completeness
import FlexConfig.Ordering.Cycles
import FlexConfig.Ordering.NodesOrdering
import FlexConfig.Ordering.Precedence
import FlexConfig.Ordering.Resolvers
import FlexConfig.Ordering.TopoSort
import FlexConfig.Ordering.Update
import FlexConfig.Schema.Agreement
import FlexConfig.Schema.Assembly
import FlexConfig.Schema.Entries
import FlexConfig.Schema.Faithfulness
import FlexConfig.Schema.Levels
import FlexConfig.Schema.Loader
import FlexConfig.Schema.Loading
import FlexConfig.Schema.Lookup
import FlexConfig.Schema.Overlay
import FlexConfig.Schema.Plan
import FlexConfig.Schema.Walkers
import FlexConfig.Server.Access
import FlexConfig.Server.ActiveLease
import FlexConfig.Server.Authorization
import FlexConfig.Server.Calls
import FlexConfig.Server.CancelledTimer
import FlexConfig.Server.Candidate
import FlexConfig.Server.Checking
import FlexConfig.Server.Confirmation
import FlexConfig.Server.Exchange
import FlexConfig.Server.Handlers
import FlexConfig.Server.Idleness
import FlexConfig.Server.Outcome
import FlexConfig.Server.Ownership
import FlexConfig.Server.Sessions
import FlexConfig.Server.Silence
import FlexConfig.Server.Threads
import FlexConfig.Tree.Content
import FlexConfig.Tree.Copy
import FlexConfig.Tree.Edits
import FlexConfig.Tree.KeyTemplate
import FlexConfig.Tree.MakeCopy
import FlexConfig.Tree.Node
import FlexConfig.Tree.Paths
import FlexConfig.Tree.Refinement
import FlexConfig.Tree.Select
import FlexConfig.Tree.Store
import FlexConfig.Tree.Traversal
import FlexConfig.Tree.XPath
