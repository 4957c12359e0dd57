import MissBound.Digraph.Basic

/-!
Depth-first search and the orders it yields. A search of one root after another descends at most as
deep as there are nodes, because every level of the descent marks a node that was not seen before.
The search of a whole graph does not descend but keeps a stack of tasks.
-/

namespace MissBound

/-- The nodes met so far and those already left, both with the latest first. -/
structure Search where
  seen : List Nat
  finished : List Nat

/-- What a search has still to do at a node. -/
inductive Task where
  | enter (n : Nat)
  | leave (n : Nat)

namespace Search

def start : Search := ⟨[], []⟩

/-- Visits everything that `n` reaches along `next` through unseen nodes, at most `depth` deep. -/
def explore (next : Nat → List Nat) : Nat → Nat → Search → Search
  | 0, _, s => s
  | depth + 1, n, s =>
    if n ∈ s.seen then s
    else
      let inner := (next n).foldl (fun s m => explore next depth m s) { s with seen := n :: s.seen }
      { inner with finished := n :: inner.finished }

/-- Performs a task. Behind an unseen node come those of its neighbours that are unseen now, and
then it is left; by the time a neighbour is entered it may have been seen from elsewhere. -/
def perform (next : Nat → List Nat) (s : Search) : Task → Search × List Task
  | .enter n =>
    if n ∈ s.seen then (s, [])
    else
      let marked := { s with seen := n :: s.seen }
      (marked, ((next n).filter fun m => m ∉ marked.seen).map .enter ++ [.leave n])
  | .leave n => ({ s with finished := n :: s.finished }, [])

/-- Performs the tasks of a stack, the topmost first, at most `steps` of them. -/
def drain (next : Nat → List Nat) : Nat → List Task → Search → Search
  | steps + 1, task :: stack, s =>
    let done := s.perform next task
    drain next steps (done.2 ++ stack) done.1
  | _, _, s => s

end Search

namespace Digraph

variable {α β : Type}

/-- The nodes reachable from `root` in the order in which a depth-first search leaves them. The
first task is to enter the root; each node has one task to leave it, each edge at most one to enter
its target. -/
def postorder (g : Digraph α β) (root : Nat) : List Nat :=
  if root < g.nodeCount then
    (Search.drain g.successors (1 + g.nodeCount + g.edgeCount) [.enter root]
      .start).finished.reverse
  else []

/-- The nodes reachable from `root`, each before the nodes it leads to except along cycles. -/
def reversePostorder (g : Digraph α β) (root : Nat) : List Nat :=
  (g.postorder root).reverse

end Digraph

end MissBound
