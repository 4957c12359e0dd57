import MissBound.Failure

/-!
Directed graphs as a list of nodes and a list of labelled edges. A node or an edge is named by its
position, and the edges at a node are listed in the order in which they were added.
-/

namespace MissBound

structure Edge (β : Type) where
  source : Nat
  target : Nat
  label : β
  deriving DecidableEq

structure Digraph (α β : Type) where
  nodes : List α
  edges : List (Edge β)

namespace Digraph

variable {α β γ : Type}

def empty : Digraph α β := ⟨[], []⟩

def nodeCount (g : Digraph α β) : Nat := g.nodes.length

def edgeCount (g : Digraph α β) : Nat := g.edges.length

def addNode (g : Digraph α β) (node : α) : Digraph α β :=
  { g with nodes := g.nodes ++ [node] }

/-- Adds an edge between two nodes of the graph. -/
def addEdge (g : Digraph α β) (source target : Nat) (label : β) : Except Failure (Digraph α β) :=
  if source < g.nodeCount ∧ target < g.nodeCount then
    .ok { g with edges := g.edges ++ [⟨source, target, label⟩] }
  else
    .error (.danglingEdge source target g.nodeCount)

def node? (g : Digraph α β) (n : Nat) : Option α := g.nodes[n]?

def edge? (g : Digraph α β) (e : Nat) : Option (Edge β) := g.edges[e]?

/-- The edges leaving `n`, each with its position. -/
def outgoing (g : Digraph α β) (n : Nat) : List (Edge β × Nat) :=
  g.edges.zipIdx.filter fun e => e.1.source == n

/-- The edges entering `n`, each with its position. -/
def incoming (g : Digraph α β) (n : Nat) : List (Edge β × Nat) :=
  g.edges.zipIdx.filter fun e => e.1.target == n

def successors (g : Digraph α β) (n : Nat) : List Nat :=
  (g.edges.filter fun e => e.source == n).map (·.target)

def predecessors (g : Digraph α β) (n : Nat) : List Nat :=
  (g.edges.filter fun e => e.target == n).map (·.source)

/-- Relabels every edge, given its position. -/
def mapEdges (g : Digraph α β) (f : Nat → Edge β → γ) : Digraph α γ where
  nodes := g.nodes
  edges := g.edges.zipIdx.map fun e => ⟨e.1.source, e.1.target, f e.2 e.1⟩

end Digraph

/-- The name of a node in texts. -/
def nodeName (n : Nat) : String := s!"n{n}"

/-- The name of an edge in texts. -/
def edgeName (e : Nat) : String := s!"e{e}"

end MissBound
