import MissBound.Loop.Forest
import MissBound.Program.Instruction

/-!
Control flow graphs with their dominators, their loops, and for every edge what it does to the
loops around it.
-/

namespace MissBound

/-- The loops that an edge closes, leaves and enters. -/
structure Crossing where
  /-- The edge closes an iteration of the loop of its target. -/
  back : Bool
  /-- The headers of the loops left, innermost first. -/
  exited : List Nat
  /-- The edge enters the loop of its target from outside. -/
  enters : Bool
  deriving DecidableEq

/-- The foremost role of an edge. -/
inductive EdgeKind where
  | ordinary
  | entry
  | back
  | exit
  deriving DecidableEq

/-- Closing a loop comes before leaving one, and leaving one before entering one. -/
def Crossing.kind (c : Crossing) : EdgeKind :=
  if c.back then .back
  else if !c.exited.isEmpty then .exit
  else if c.enters then .entry
  else .ordinary

def Crossing.outermostExited? (c : Crossing) : Option Nat :=
  c.exited.getLast?

structure FlowGraph where
  graph : Digraph Block Crossing
  entry : Nat
  dominators : DominatorTree
  loops : LoopForest

namespace FlowGraph

/-- What an edge from `source` to `target` does to the loops. -/
def crossing (t : DominatorTree) (f : LoopForest) (source target : Nat) : Crossing :=
  let back := t.dominates target source
  { back
    exited := (f.headersOf source).takeWhile fun h =>
      (f.loopAt? h).any fun l => !l.body.contains target
    enters := f.isHeader target && !back }

/-- The graph of some blocks and edges, with bounds for some of its loops. -/
def build (blocks : List Block) (edges : List (Nat × Nat)) (bounds : List (Nat × LoopBound))
    (entry : Nat) : Except Failure FlowGraph := do
  let plain : Digraph Block Unit ←
    edges.foldlM (fun g e => g.addEdge e.1 e.2 ()) ⟨blocks, []⟩
  if blocks.isEmpty then throw .noBlocks
  if blocks.length ≤ entry then throw (.entryOutside entry blocks.length)
  let dominators := DominatorTree.of plain entry
  let loops ← bounds.foldlM (fun f b => f.setBound b.1 b.2) (LoopForest.of plain dominators)
  let graph := plain.mapEdges fun _ e => crossing dominators loops e.source e.target
  return { graph, entry, dominators, loops }

variable (g : FlowGraph)

def blockCount : Nat := g.graph.nodeCount

def edgeCount : Nat := g.graph.edgeCount

def block? (n : Nat) : Option Block := g.graph.node? n

/-- The blocks reachable from the entry, in reverse post-order. -/
def order : List Nat := g.graph.reversePostorder g.entry

end FlowGraph

end MissBound
