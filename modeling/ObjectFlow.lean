import ObjectFlow.Collections.WorkQueue
import ObjectFlow.Duration
import ObjectFlow.PointsTo.ContextTable
import ObjectFlow.Program.Notation
import ObjectFlow.Proofs.Coarsening
import ObjectFlow.Proofs.Complete
import ObjectFlow.Proofs.Containers
import ObjectFlow.Proofs.Convergence
import ObjectFlow.Proofs.Derived
import ObjectFlow.Proofs.Effects
import ObjectFlow.Proofs.Execution
import ObjectFlow.Proofs.Facts
import ObjectFlow.Proofs.Growth
import ObjectFlow.Proofs.Least
import ObjectFlow.Proofs.MethodConstants
import ObjectFlow.Proofs.ProgramConstants
import ObjectFlow.Proofs.Propagation
import ObjectFlow.Proofs.Rounds
import ObjectFlow.Proofs.Rules
import ObjectFlow.Proofs.Steady
import ObjectFlow.Proofs.Termination
import ObjectFlow.Proofs.Universe
import ObjectFlow.Report.Findings
import ObjectFlow.Text.Json
import ObjectFlow.Visitor
import ObjectFlow.Proofs.Building
import ObjectFlow.Proofs.Search
import ObjectFlow.Proofs.ClassGraph
import ObjectFlow.Proofs.CallClosure
import ObjectFlow.Proofs.Refinement
import ObjectFlow.Proofs.Solved
import ObjectFlow.Proofs.Words
import ObjectFlow.Proofs.Computation
import ObjectFlow.Proofs.JoinedGraph
import ObjectFlow.Proofs.KnownConstants
import ObjectFlow.Proofs.Conservation
import ObjectFlow.Proofs.Faults
import ObjectFlow.Proofs.Requests
import ObjectFlow.Proofs.Failure
import ObjectFlow.Proofs.Solutions
import ObjectFlow.Proofs.BodyConstants
import ObjectFlow.Proofs.Schedules
import ObjectFlow.Proofs.LeastConstants
import ObjectFlow.Proofs.Precision
import ObjectFlow.Proofs.Entries
import ObjectFlow.Proofs.RoundLimit
import ObjectFlow.Proofs.FewerCalls
import ObjectFlow.Proofs.Handlers
import ObjectFlow.Proofs.Handles
import ObjectFlow.Proofs.Attained
import ObjectFlow.Proofs.Chains
import ObjectFlow.Proofs.CallStrings
import ObjectFlow.Proofs.MergedContexts
import ObjectFlow.Proofs.BodyShape
import ObjectFlow.Proofs.JoinedEdges
import ObjectFlow.Proofs.OneMethod
import ObjectFlow.Proofs.Arithmetic
import ObjectFlow.Proofs.Falling
import ObjectFlow.Proofs.Inheritance
import ObjectFlow.Proofs.CallTargets
import ObjectFlow.Proofs.Mismatch
import ObjectFlow.Proofs.Translation
import ObjectFlow.Proofs.Unbounded
import ObjectFlow.Proofs.Writing
import ObjectFlow.Proofs.ControlFlow
import ObjectFlow.Proofs.Retries
import ObjectFlow.Proofs.RefusedDeclarations
import ObjectFlow.Proofs.Meets
import ObjectFlow.Proofs.Resolution
import ObjectFlow.Proofs.OnlyOnce
import ObjectFlow.Proofs.Sources
import ObjectFlow.Proofs.HandlerLookup
import ObjectFlow.Proofs.Numerals
import ObjectFlow.Proofs.SelectorNames
import ObjectFlow.Proofs.Settings
import ObjectFlow.Proofs.OptionTexts
import ObjectFlow.Proofs.CallIndexes
import ObjectFlow.Proofs.FactObjects
import ObjectFlow.Proofs.Histories
import ObjectFlow.Proofs.QueuedOnce
import ObjectFlow.Proofs.WaitingObjects
import ObjectFlow.Proofs.ElementNumbers
import ObjectFlow.Proofs.ElementObjects
