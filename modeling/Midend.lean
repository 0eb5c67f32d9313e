import Midend.Batch
import Midend.Bench
import Midend.Bench.Options
import Midend.Bench.Samples
import Midend.Boundary
import Midend.Builder
import Midend.Calls
import Midend.Calls.Accessor
import Midend.Calls.Arithmetic
import Midend.Calls.Compare
import Midend.Calls.Element
import Midend.Calls.Method
import Midend.Calls.Site
import Midend.ClassId
import Midend.Classes
import Midend.Consistency
import Midend.Constant
import Midend.Constants
import Midend.Constants.Analysis
import Midend.Constants.Knowledge
import Midend.Context
import Midend.Decimal.Shortest
import Midend.Double
import Midend.Fault
import Midend.Feedback
import Midend.Flow.Dominance
import Midend.Flow.Loops
import Midend.Flow.Order
import Midend.Graph.Basic
import Midend.Graph.Edit
import Midend.Graph.Layout
import Midend.Graph.Links
import Midend.Graph.Text
import Midend.Hierarchy
import Midend.Hoisting
import Midend.Inst.Basic
import Midend.Inst.Opcode
import Midend.Inst.Traits
import Midend.Inst.Value
import Midend.Key
import Midend.Loads
import Midend.Loads.Availability
import Midend.Loads.Place
import Midend.Main
import Midend.NumberSet
import Midend.Pipeline
import Midend.Proofs.Builder
import Midend.Proofs.Calls
import Midend.Proofs.Calls.Arguments
import Midend.Proofs.Calls.Remainders
import Midend.Proofs.Classes.Removal
import Midend.Proofs.Classes.Rest
import Midend.Proofs.Classes.Tracking
import Midend.Proofs.Classes.Visits
import Midend.Proofs.Consistency
import Midend.Proofs.Constants.Ending
import Midend.Proofs.Constants.Fixpoint
import Midend.Proofs.Constants.Folding
import Midend.Proofs.Constants.Knowledge
import Midend.Proofs.Constants.Reaching
import Midend.Proofs.Constants.Rounds
import Midend.Proofs.Constants.Settled
import Midend.Proofs.Constants.Soundness
import Midend.Proofs.Constants.Transform
import Midend.Proofs.Defined
import Midend.Proofs.Execution
import Midend.Proofs.Execution.Definite
import Midend.Proofs.Execution.Origins
import Midend.Proofs.Execution.Traces
import Midend.Proofs.Feedback
import Midend.Proofs.Flow.Current
import Midend.Proofs.Flow.Discovery
import Midend.Proofs.Flow.Dominance
import Midend.Proofs.Flow.Exact
import Midend.Proofs.Flow.Loops
import Midend.Proofs.Flow.Order
import Midend.Proofs.Flow.Rediscovery
import Midend.Proofs.Flow.Semidominators
import Midend.Proofs.Flow.Tree
import Midend.Proofs.Graph.Changes
import Midend.Proofs.Graph.Initial
import Midend.Proofs.Graph.Layout
import Midend.Proofs.Graph.Links
import Midend.Proofs.Graph.Nodes
import Midend.Proofs.Graph.PhiUses
import Midend.Proofs.Graph.Places
import Midend.Proofs.Graph.Uses
import Midend.Proofs.Hierarchy
import Midend.Proofs.Hierarchy.Fields
import Midend.Proofs.Hoisting
import Midend.Proofs.Hoisting.Places
import Midend.Proofs.Hoisting.Soundness
import Midend.Proofs.Hoisting.Walk
import Midend.Proofs.Inlining
import Midend.Proofs.Keeping
import Midend.Proofs.Loads.Emitting
import Midend.Proofs.Loads.Settling
import Midend.Proofs.Loads.Soundness
import Midend.Proofs.Naming
import Midend.Proofs.Naming.Calls
import Midend.Proofs.Naming.Constants
import Midend.Proofs.Naming.Edits
import Midend.Proofs.Naming.Forgetting
import Midend.Proofs.Naming.Ranges
import Midend.Proofs.Naming.Stages
import Midend.Proofs.Outcome
import Midend.Proofs.Purity
import Midend.Proofs.Ranges.Arithmetic
import Midend.Proofs.Ranges.Boundaries
import Midend.Proofs.Ranges.Checks
import Midend.Proofs.Ranges.Constraining
import Midend.Proofs.Ranges.Finishing
import Midend.Proofs.Ranges.Following
import Midend.Proofs.Ranges.InductionVariables
import Midend.Proofs.Ranges.Intersection
import Midend.Proofs.Ranges.Redundancy
import Midend.Proofs.Ranges.Resolving
import Midend.Proofs.Reading
import Midend.Proofs.Reports.Honest
import Midend.Proofs.Reports.Loads
import Midend.Proofs.Reports.Ranges
import Midend.Proofs.Reports.Records
import Midend.Proofs.Reports.Rewrites
import Midend.Proofs.Reports.Unmodified
import Midend.Proofs.Representations.Selection
import Midend.Proofs.Sharing.Keys
import Midend.Proofs.Sharing.Soundness
import Midend.Proofs.Sharing.Walk
import Midend.Proofs.Simplify
import Midend.Proofs.Simplify.Merging
import Midend.Proofs.SmallIntegers.Soundness
import Midend.Proofs.Ssa.Cleanup
import Midend.Proofs.Ssa.Construct
import Midend.Proofs.Ssa.Paths
import Midend.Proofs.Ssa.Placement
import Midend.Proofs.Ssa.Reads
import Midend.Proofs.Ssa.Sound
import Midend.Proofs.Ssa.Splitting
import Midend.Ranges
import Midend.Ranges.Constraints
import Midend.Ranges.Induction
import Midend.Ranges.Symbols
import Midend.Ranges.Transfer
import Midend.Representations
import Midend.Sharing
import Midend.Simplify
import Midend.SmallIntegers
import Midend.Ssa
import Midend.Ssa.Phis
import Midend.Ssa.Renaming
import Midend.Table
import Midend.Text.Printable
import Midend.Token
import Midend.Word
