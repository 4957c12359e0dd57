import MissBound.Program.FlowGraph

/-!
Forward data flow analyses and their solution by a worklist. States are kept on edges, so that an
analysis can treat loop entries, loop exits and back edges differently.
-/

namespace MissBound

/-- A state that reaches a block, over an edge or, at the entry block, from outside. -/
structure Arrival (σ : Type) where
  edge : Option (Edge Crossing)
  state : σ

def Arrival.isBack {σ : Type} (a : Arrival σ) : Bool :=
  a.edge.any fun e => e.label.back

structure Analysis (σ : Type) where
  /-- The state of unreached points. -/
  bottom : σ
  /-- The state that enters the program. -/
  entry : σ
  equal : σ → σ → Bool
  /-- The input of a block from its input at the last visit and the states that arrive. -/
  input : Nat → σ → List (Arrival σ) → σ
  /-- The effect of a block. -/
  transfer : Nat → σ → σ
  /-- The effect of an edge. -/
  propagate : Edge Crossing → σ → σ

/-- The input that joins all arrivals. -/
def Analysis.joinAll {σ : Type} (bottom : σ) (join : σ → σ → σ) (arrivals : List (Arrival σ)) : σ :=
  arrivals.foldl (fun acc a => join acc a.state) bottom

/-- How far a fixed point computation has come. -/
structure Progress (σ : Type) where
  inputs : List σ
  outputs : List σ
  /-- The state on each edge, after the effect of the edge. -/
  onEdges : List σ
  /-- The blocks still to visit. -/
  queue : List Nat
  /-- The blocks visited, the latest first. -/
  visited : List Nat

namespace Progress

variable {σ : Type} (A : Analysis σ) (G : FlowGraph)

/-- Nothing is reached and every reachable block waits, in reverse post-order. -/
def start : Progress σ where
  inputs := List.replicate G.blockCount A.bottom
  outputs := List.replicate G.blockCount A.bottom
  onEdges := List.replicate G.edgeCount A.bottom
  queue := G.order
  visited := []

/-- The states that reach `block`, the one from outside first. -/
def arrivals (onEdges : List σ) (block : Nat) : List (Arrival σ) :=
  let outside := if block = G.entry then [⟨none, A.entry⟩] else []
  outside ++ (G.graph.incoming block).map fun e => ⟨some e.1, onEdges[e.2]?.getD A.bottom⟩

/-- Sends `output` over one edge and queues the target if the state there changes. -/
def deliver (output : σ) (p : List σ × List Nat) (e : Edge Crossing × Nat) : List σ × List Nat :=
  let state := A.propagate e.1 output
  if A.equal state (p.1[e.2]?.getD A.bottom) then p
  else (p.1.set e.2 state, if e.1.target ∈ p.2 then p.2 else p.2 ++ [e.1.target])

/-- Recomputes `block`, which has just left the queue. -/
def visit (p : Progress σ) (block : Nat) : Progress σ :=
  let input := A.input block (p.inputs[block]?.getD A.bottom) (arrivals A G p.onEdges block)
  let output := A.transfer block input
  let sent := (G.graph.outgoing block).foldl (deliver A output) (p.onEdges, p.queue)
  { inputs := p.inputs.set block input
    outputs := p.outputs.set block output
    onEdges := sent.1
    queue := sent.2
    visited := block :: p.visited }

/-- Visits queued blocks, at most `budget` of them. -/
def run : Nat → Progress σ → Progress σ
  | 0, p => p
  | budget + 1, p =>
    match p.queue with
    | [] => p
    | block :: rest => run budget (visit A G { p with queue := rest } block)

/-- The blocks in the order in which they were visited. -/
def trail (p : Progress σ) : List Nat := p.visited.reverse

def visits (p : Progress σ) : Nat := p.visited.length

end Progress

/-- A fixed point computation with a flag for each block, so that the queue is not searched. -/
structure Worklist (σ : Type) extends Progress σ where
  /-- Whether each block waits. -/
  waiting : List Bool

namespace Worklist

variable {σ : Type} (A : Analysis σ) (G : FlowGraph)

def isWaiting (w : Worklist σ) (block : Nat) : Bool := w.waiting[block]?.getD false

def start : Worklist σ where
  toProgress := .start A G
  waiting := G.order.foldl (fun flags b => flags.set b true) (List.replicate G.blockCount false)

/-- Takes `block` off the queue, in front of `rest`. -/
def take (w : Worklist σ) (block : Nat) (rest : List Nat) : Worklist σ :=
  { w with queue := rest, waiting := w.waiting.set block false }

/-- Lets a block wait, unless it does already. -/
def enqueue (w : Worklist σ) (block : Nat) : Worklist σ :=
  if w.isWaiting block then w
  else { w with queue := w.queue ++ [block], waiting := w.waiting.set block true }

/-- Sends `output` over one edge and queues the target if the state there changes. -/
def send (output : σ) (w : Worklist σ) (e : Edge Crossing × Nat) : Worklist σ :=
  let state := A.propagate e.1 output
  if A.equal state (w.onEdges[e.2]?.getD A.bottom) then w
  else enqueue { w with onEdges := w.onEdges.set e.2 state } e.1.target

/-- Recomputes `block`, which has just left the queue. -/
def visit (w : Worklist σ) (block : Nat) : Worklist σ :=
  let input := A.input block (w.inputs[block]?.getD A.bottom)
    (Progress.arrivals A G w.onEdges block)
  let output := A.transfer block input
  let sent := (G.graph.outgoing block).foldl (send A output) w
  { sent with
    inputs := sent.inputs.set block input
    outputs := sent.outputs.set block output
    visited := block :: sent.visited }

/-- Visits the first block of the queue. -/
def round (w : Worklist σ) : Worklist σ :=
  match w.queue with
  | [] => w
  | block :: rest => visit A G (w.take block rest) block

/-- Visits queued blocks until none is left. The run fails if one is taken off the queue when the
budget, `limit` at the start, is used up. -/
def run (limit : Nat) : Nat → Worklist σ → Except Failure (Progress σ)
  | 0, w => if w.queue.isEmpty then .ok w.toProgress else .error (.visitLimit limit)
  | budget + 1, w =>
    if w.queue.isEmpty then .ok w.toProgress else run limit budget (round A G w)

end Worklist

/-- Runs an analysis until nothing changes, within a budget of block visits. -/
def Analysis.solve {σ : Type} (A : Analysis σ) (G : FlowGraph) (budget : Nat) :
    Except Failure (Progress σ) :=
  Worklist.run A G budget budget (Worklist.start A G)

/-- The visit budget of an analysis that sets none. -/
def defaultVisits : Nat := 1000000

end MissBound
