import MissBound.Lru.Outcome

/-!
The fixed point of one cache set and the classification of the accesses that touch it.
-/

namespace MissBound.SetDomain

variable (D : SetDomain)

/-- The state after the accesses of a block; what is not reached stays so. -/
def transfer (table : AccessTable) (block : Nat) (s : SetState) : SetState :=
  match s with
  | .bottom => .bottom
  | .known _ => (table.block block).foldl (fun s a => D.update s a.toDataUse) s

/-- Loops that an edge leaves are closed, innermost first. Then a back edge drops stale lines and an
edge into a header opens a level. -/
def propagate (e : Edge Crossing) (s : SetState) : SetState :=
  let s := e.label.exited.foldl (fun s h => D.leave s h e.source) s
  if e.label.back then D.back s
  else if e.label.enters then s.enter
  else s

def analysis (table : AccessTable) : Analysis SetState where
  bottom := .bottom
  entry := .empty
  equal s t := s == t
  input _ _ arrivals := Analysis.joinAll .bottom D.join arrivals
  transfer := D.transfer table
  propagate := D.propagate

/-- The access is classified by this set: its trials can be enumerated and some may lie in the
set. -/
def classifies (a : DataUse) : Bool :=
  (a.reference.enumerable? D.loops D.refs.cap).isSome && D.refs.concerns a.reference D.set

/-- The counts of each access of a block, from the state at its start. -/
def countBlock : List Access → SetState → List (Option (Tally × MissCount))
  | [], _ => []
  | a :: rest, s =>
    let count := if D.classifies a.toDataUse then some (D.countMisses s a.toDataUse) else none
    count :: countBlock rest (D.update s a.toDataUse)

/-- The counts of every access of every block in this set. -/
def run (G : FlowGraph) (table : AccessTable) (maxVisits : Nat) :
    Except Failure (List (List (Option (Tally × MissCount)))) := do
  let p ← (D.analysis table).solve G maxVisits
  return (List.range G.blockCount).map fun b =>
    D.countBlock (table.block b) (p.inputs[b]?.getD .bottom)

end MissBound.SetDomain
