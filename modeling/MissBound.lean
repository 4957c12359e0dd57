import MissBound.Classification
import MissBound.Digraph.Basic
import MissBound.Digraph.DepthFirst
import MissBound.Digraph.Dominator
import MissBound.Failure
import MissBound.Fixpoint
import MissBound.Loop.Forest
import MissBound.Loop.Natural
import MissBound.Lru.Age
import MissBound.Lru.NodeArena
import MissBound.Lru.Outcome
import MissBound.Lru.Reference
import MissBound.Lru.SetAnalysis
import MissBound.Lru.SetState
import MissBound.Lru.Trial
import MissBound.Machine.Access
import MissBound.Machine.Boot
import MissBound.Machine.Interpreter
import MissBound.Machine.Memory
import MissBound.Machine.Resolution
import MissBound.Machine.State
import MissBound.Numeral
import MissBound.Platform.Bank
import MissBound.Platform.Geometry
import MissBound.Platform.Policy
import MissBound.Program.FlowGraph
import MissBound.Program.Instruction
import MissBound.Program.Operand
import MissBound.Proofs.AlwaysMiss
import MissBound.Proofs.Classification
import MissBound.Proofs.ConditionalHit
import MissBound.Proofs.Conservation
import MissBound.Proofs.Digraph.Climbing
import MissBound.Proofs.Digraph.Cycle
import MissBound.Proofs.Digraph.DepthFirst
import MissBound.Proofs.Digraph.Dominator
import MissBound.Proofs.Digraph.Immediate
import MissBound.Proofs.Digraph.Iteration
import MissBound.Proofs.Digraph.Postorder
import MissBound.Proofs.Digraph.Recursion
import MissBound.Proofs.Digraph.Sweep
import MissBound.Proofs.Digraph.Walk
import MissBound.Proofs.Failure
import MissBound.Proofs.Fixpoint
import MissBound.Proofs.Fixpoint.Budget
import MissBound.Proofs.Fixpoint.Equations
import MissBound.Proofs.Fixpoint.Least
import MissBound.Proofs.Fixpoint.Termination
import MissBound.Proofs.Fixpoint.Worklist
import MissBound.Proofs.Loop.Exact
import MissBound.Proofs.Loop.Forest
import MissBound.Proofs.Loop.Natural
import MissBound.Proofs.LoopMisses
import MissBound.Proofs.Lru.AlwaysHit
import MissBound.Proofs.Lru.Capacity
import MissBound.Proofs.Lru.Colocation
import MissBound.Proofs.Lru.Concern
import MissBound.Proofs.Lru.Concrete
import MissBound.Proofs.Lru.Descent
import MissBound.Proofs.Lru.Lattice
import MissBound.Proofs.Lru.Levels
import MissBound.Proofs.Lru.May
import MissBound.Proofs.Lru.Meeting
import MissBound.Proofs.Lru.Monotone
import MissBound.Proofs.Lru.Must
import MissBound.Proofs.Lru.Nesting
import MissBound.Proofs.Lru.NodeArena
import MissBound.Proofs.Lru.Order
import MissBound.Proofs.Lru.Outcome
import MissBound.Proofs.Lru.Persistence
import MissBound.Proofs.Lru.Pieces
import MissBound.Proofs.Lru.Range
import MissBound.Proofs.Lru.Recency
import MissBound.Proofs.Lru.Reference
import MissBound.Proofs.Lru.Repetition
import MissBound.Proofs.Lru.Scope
import MissBound.Proofs.Lru.SetMisses
import MissBound.Proofs.Lru.SetState
import MissBound.Proofs.Lru.Sharing
import MissBound.Proofs.Lru.SingleMiss
import MissBound.Proofs.Lru.Solution
import MissBound.Proofs.Lru.Tallies
import MissBound.Proofs.Lru.Traversal
import MissBound.Proofs.Lru.Trial
import MissBound.Proofs.Lru.TrialCount
import MissBound.Proofs.Lru.WellFormed
import MissBound.Proofs.Machine.Access
import MissBound.Proofs.Machine.Bytes
import MissBound.Proofs.Machine.Cells
import MissBound.Proofs.Machine.Convergence
import MissBound.Proofs.Machine.Coverage
import MissBound.Proofs.Machine.Fidelity
import MissBound.Proofs.Machine.HeaderGrowth
import MissBound.Proofs.Machine.HeaderValue
import MissBound.Proofs.Machine.History
import MissBound.Proofs.Machine.Journey
import MissBound.Proofs.Machine.RangeStore
import MissBound.Proofs.Machine.Resolution
import MissBound.Proofs.Machine.Runs
import MissBound.Proofs.Machine.Simulation
import MissBound.Proofs.Machine.State
import MissBound.Proofs.Machine.Transfer
import MissBound.Proofs.Platform.Bank
import MissBound.Proofs.Platform.Geometry
import MissBound.Proofs.Program.Crossing
import MissBound.Proofs.Program.Execution
import MissBound.Proofs.Program.Guarded
import MissBound.Proofs.Program.Labels
import MissBound.Proofs.Program.Reordering
import MissBound.Proofs.Program.Rounds
import MissBound.Proofs.Symbolic.Affine
import MissBound.Proofs.Symbolic.Arithmetic
import MissBound.Proofs.Symbolic.Ascent
import MissBound.Proofs.Symbolic.Coefficients
import MissBound.Proofs.Symbolic.Extent
import MissBound.Proofs.Symbolic.Facts
import MissBound.Proofs.Symbolic.Laws
import MissBound.Proofs.Symbolic.Semilattice
import MissBound.Proofs.Symbolic.Stride
import MissBound.Proofs.Symbolic.Terms
import MissBound.Proofs.Symbolic.TotalOrder
import MissBound.Proofs.Symbolic.Value
import MissBound.Report.Shares
import MissBound.Report.Tally
import MissBound.Symbolic.Affine
import MissBound.Symbolic.Extent
import MissBound.Symbolic.Facts
import MissBound.Symbolic.Interner
import MissBound.Symbolic.Value
import MissBound.Workbench
