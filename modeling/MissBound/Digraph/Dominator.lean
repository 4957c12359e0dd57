import MissBound.Digraph.DepthFirst

/-!
Dominator trees. Candidates for the immediate dominators are improved in passes over the reverse
post-order until a pass changes nothing; two candidates meet at the closest node that the chains
above them share.
-/

namespace MissBound

structure DominatorTree where
  entry : Nat
  /-- The immediate dominator of each node; the entry is its own, an unreachable node has none. -/
  parents : List (Option Nat)
  /-- Distance from the entry in the tree, zero where unreachable. -/
  depths : List Nat

namespace DominatorTree

def parent? (parents : List (Option Nat)) (n : Nat) : Option Nat :=
  parents[n]?.join

/-- The first common node of the chains above `a` and `b`, climbing from whichever of the two stands
later in `order`, at most `steps` times. -/
def meet (order : List Nat) (parents : List (Option Nat)) : Nat → Nat → Nat → Nat
  | 0, a, _ => a
  | steps + 1, a, b =>
    if a = b then a
    else if order.idxOf b < order.idxOf a then
      match parent? parents a with
      | some up => meet order parents steps up b
      | none => b
    else
      match parent? parents b with
      | some up => meet order parents steps a up
      | none => a

/-- The meet of those of `sources` that have a candidate already. -/
def candidate (order : List Nat) (parents : List (Option Nat)) (sources : List Nat) : Option Nat :=
  sources.foldl
    (fun best p =>
      if (parent? parents p).isNone then best
      else match best with
        | none => some p
        | some q => some (meet order parents (2 * order.length) p q))
    none

variable {α β : Type}

/-- Replaces the candidate of `n` by the meet of its predecessors. -/
def improve (g : Digraph α β) (order : List Nat) (parents : List (Option Nat)) (n : Nat) :
    List (Option Nat) :=
  match candidate order parents (g.predecessors n) with
  | none => parents
  | some p => parents.set n (some p)

/-- One pass over all reachable nodes but the entry. -/
def pass (g : Digraph α β) (order : List Nat) (parents : List (Option Nat)) : List (Option Nat) :=
  (order.drop 1).foldl (improve g order) parents

/-- Repeats passes until nothing changes, at most `rounds` times. -/
def settle (g : Digraph α β) (order : List Nat) : Nat → List (Option Nat) → List (Option Nat)
  | 0, parents => parents
  | rounds + 1, parents =>
    let next := pass g order parents
    if next = parents then parents else settle g order rounds next

/-- The depth of each node, its parent standing earlier in `order`. -/
def measure (order : List Nat) (parents : List (Option Nat)) (nodes : Nat) : List Nat :=
  (order.drop 1).foldl
    (fun depths n =>
      match parent? parents n with
      | some p => depths.set n (depths[p]?.getD 0 + 1)
      | none => depths)
    (List.replicate nodes 0)

/-- The dominator tree of `g` below `entry`. -/
def of (g : Digraph α β) (entry : Nat) : DominatorTree :=
  let nodes := g.nodeCount
  let order := g.reversePostorder entry
  let initial := (List.replicate nodes none).set entry (some entry)
  let parents := settle g order (nodes * nodes + 1) initial
  ⟨entry, parents, measure order parents nodes⟩

variable (t : DominatorTree)

def nodeCount : Nat := t.parents.length

def immediate? (n : Nat) : Option Nat :=
  if n = t.entry then none else parent? t.parents n

def isReachable (n : Nat) : Bool :=
  (parent? t.parents n).isSome

def depth (n : Nat) : Nat :=
  t.depths[n]?.getD 0

/-- The node `levels` steps above `n`. -/
def above? : Nat → Nat → Option Nat
  | 0, n => some n
  | levels + 1, n => (t.immediate? n).bind (above? levels)

/-- Every path from the entry to `b` passes through `a`. Unreachable nodes take no part. -/
def dominates (a b : Nat) : Bool :=
  t.isReachable a && t.isReachable b && t.above? (t.depth b - t.depth a) b == some a

def strictlyDominates (a b : Nat) : Bool :=
  a != b && t.dominates a b

/-- The nodes whose immediate dominator is `n`. -/
def children (n : Nat) : List Nat :=
  (List.range t.nodeCount).filter fun m => m != t.entry && parent? t.parents m == some n

end DominatorTree

end MissBound
