import MissBound.Digraph.Dominator

/-!
Natural loops: a back edge leads to a node that dominates its source, and the loop of a header is
everything that reaches the source of such an edge without crossing the header.
-/

namespace MissBound

structure NaturalLoop where
  header : Nat
  /-- The sources of the back edges, once for each edge. -/
  latches : List Nat
  /-- The nodes of the loop in ascending order, its header included. -/
  body : List Nat

namespace NaturalLoop

variable {α β : Type}

def size (l : NaturalLoop) : Nat := l.body.length

/-- The back edges as pairs of latch and header, by latch and then in the order of its edges. -/
def backEdges (g : Digraph α β) (t : DominatorTree) : List (Nat × Nat) :=
  (List.range g.nodeCount).flatMap fun n =>
    ((g.successors n).filter fun h => t.dominates h n).map fun h => (n, h)

/-- The nodes that reach one of `latches` without crossing `header`, and `header` itself. -/
def bodyOf (g : Digraph α β) (header : Nat) (latches : List Nat) : List Nat :=
  let found := latches.foldl (fun s n => Search.explore g.predecessors g.nodeCount n s)
    ⟨[header], []⟩
  (List.range g.nodeCount).filter fun n => found.seen.contains n

/-- The loops of a graph by ascending header; back edges to one header make one loop. -/
def detect (g : Digraph α β) (t : DominatorTree) : List NaturalLoop :=
  let back := backEdges g t
  let headers := (List.range g.nodeCount).filter fun h => back.any fun e => e.2 == h
  headers.map fun h =>
    let latches := (back.filter fun e => e.2 == h).map (·.1)
    ⟨h, latches, bodyOf g h latches⟩

end NaturalLoop

end MissBound
