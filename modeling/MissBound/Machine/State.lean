import MissBound.Machine.Boot
import MissBound.Machine.Memory

/-!
The registers and the memory at a point of the program.
-/

namespace MissBound

structure State where
  registers : Facts Register
  memory : Memory
  deriving DecidableEq

namespace State

/-- Nothing is known and nothing has been written. -/
def blank : State := ⟨.empty, .empty⟩

def register (s : State) (r : Register) : Symbolic := s.registers.get r

def setRegister (s : State) (r : Register) (v : Symbolic) : State :=
  { s with registers := s.registers.set r v }

def clearTemporaries (s : State) : State :=
  { s with registers := ⟨s.registers.entries.filter fun e => !e.1.isTemporary⟩ }

/-- The state after one of two paths. -/
def join (L : LoopForest) (a b : State) : State :=
  ⟨a.registers.join L b.registers, a.memory.join L b.memory⟩

def combine (f : Symbolic → Symbolic → Symbolic) (a b : State) : State :=
  ⟨a.registers.combine f b.registers, a.memory.combine f b.memory⟩

def map (f : Symbolic → Symbolic) (s : State) : State :=
  ⟨s.registers.map f, s.memory.map f⟩

/-- The state in which a program starts. -/
def ofBoot (b : Boot) (stackBase : UInt32) : State :=
  let s := blank.setRegister b.stackPointer (.const stackBase)
  let s := b.registers.foldl (fun s e => s.setRegister e.1 (.const e.2)) s
  b.words.foldl (fun s e => { s with memory := s.memory.store e.1 (.const e.2) }) s

end State

end MissBound
