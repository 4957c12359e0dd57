import MissBound.Fixpoint
import MissBound.Machine.Interpreter

/-!
Address resolution: the symbolic state at the start of every block. A loop header widens what comes
back around the loop against its last input before joining it with what enters, so that a pointer
with a constant stride becomes a term of the loop counter.
-/

namespace MissBound

/-- The limits within which an analysis works. -/
structure Limits where
  /-- The largest iteration space that is enumerated. -/
  cap : Nat
  /-- The block visits of one fixed point. -/
  maxVisits : Nat
  /-- The initial value of the stack pointer. -/
  stackBase : UInt32

def Limits.default : Limits := ⟨1000000, defaultVisits, 0x80000000⟩

namespace Resolution

variable (G : FlowGraph) (I : Interpreter)

/-- The states of a program, none where it has not been. -/
def joinStates (L : LoopForest) : Option State → Option State → Option State
  | none, b => b
  | a, none => a
  | some a, some b => some (a.join L b)

/-- Combines two states value by value; an unreached one is neutral. -/
def combineStates (f : Symbolic → Symbolic → Symbolic) :
    Option State → Option State → Option State
  | none, b => b
  | a, none => a
  | some a, some b => some (a.combine f b)

/-- The input of a block from its last input and the states that arrive. -/
def input (block : Nat) (previous : Option State) (arrivals : List (Arrival (Option State))) :
    Option State :=
  let L := G.loops
  let join (as : List (Arrival (Option State))) := Analysis.joinAll none (joinStates L) as
  let entering := join (arrivals.filter fun a => !a.isBack)
  let back := join (arrivals.filter fun a => a.isBack)
  if L.isHeader block then
    combineStates (Symbolic.join L) entering
      (combineStates (Symbolic.widen L block) previous back)
  else joinStates L entering back

def transfer (block : Nat) (input : Option State) : Option State :=
  match G.block? block with
  | some b => input.map fun s => (I.executeBlock s b).1
  | none => input

/-- Leaving loops fixes their counters. -/
def propagate (e : Edge Crossing) (output : Option State) : Option State :=
  output.map fun s => e.label.exited.foldl (fun s h => s.map (Symbolic.afterLoop G.loops h)) s

def analysis (entry : State) : Analysis (Option State) where
  bottom := none
  entry := some entry
  equal a b := a == b
  input := input G
  transfer := transfer G I
  propagate := propagate G

end Resolution

/-- Resolves the addresses of a program. -/
def resolve (G : FlowGraph) (boot : Boot) (limits : Limits) :
    Except Failure (Progress (Option State)) :=
  let I : Interpreter := ⟨G.loops, boot, limits.cap⟩
  (Resolution.analysis G I (.ofBoot boot limits.stackBase)).solve G limits.maxVisits

end MissBound
