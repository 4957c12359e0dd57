import MissBound.Machine.State
import MissBound.Symbolic.Extent

/-!
The effect of instructions on symbolic states. Only what pointers are made of is tracked; every
other result is unknown.
-/

namespace MissBound

inductive AccessKind where
  | load
  | store
  deriving DecidableEq

def AccessKind.name : AccessKind → String
  | load => "load"
  | store => "store"

/-- A load or a store met while an instruction runs. -/
structure MemoryEvent where
  instruction : Instruction
  kind : AccessKind
  address : Symbolic
  type : Scalar

/-- What the interpreter knows besides the state. -/
structure Interpreter where
  loops : LoopForest
  boot : Boot
  /-- The most words that one load joins. -/
  cap : Nat

/-- A state in the middle of an instruction. -/
structure Execution where
  state : State
  /-- Where open guards end, with the state that skipped their operations, innermost first. -/
  pending : List (Nat × State)
  events : List MemoryEvent

namespace Interpreter

variable (I : Interpreter)

/-- The value of a load. A word that is not known may still hold its initial contents. -/
def load (s : State) (address : Symbolic) (type : Scalar) : Symbolic :=
  match address.span? I.loops with
  | none => .top
  | some span =>
    if span.base ≠ span.top then
      s.memory.loadRange I.loops span.base span.top address.step I.cap
    else match s.memory.get? span.base with
      | some v => v
      | none =>
        if s.memory.isPristine span.base type.size then
          match I.boot.read? span.base type with
          | some v => .const v
          | none => .top
        else .top

/-- The memory after a store. A declared range bounds a store to an unknown address. -/
def store (range : Option DeclaredRange) (m : Memory) (address value : Symbolic) : Memory :=
  match address with
  | .bottom => m
  | .top =>
    match range with
    | some r => m.storeRange I.loops r.lo r.hi 1 value
    | none => m.storeAnywhere
  | .affine e =>
    match e.span? I.loops with
    | none => m.storeAnywhere
    | some span =>
      if span.base = span.top then m.store span.base value
      else m.storeRange I.loops span.base span.top e.step value

/-- The result of a binary operator. -/
def binary (op : BinaryOp) (a b : Symbolic) : Symbolic :=
  match op with
  | .add => a.add I.loops b
  | .sub => a.sub I.loops b
  | .shl => a.shl b
  | .mul => a.mul b
  | .or => a.or b
  | _ => .top

/-- One operation, with the memory access that it makes. -/
def step (i : Instruction) (s : State) : MicroOp → State × Option MemoryEvent
  | .nop | .trap | .cont | .branch _ | .guarded .. => (s, none)
  | .scratch dst | .unary _ dst _ => (s.setRegister dst .top, none)
  | .move dst src => (s.setRegister dst (s.register src), none)
  | .literal dst v => (s.setRegister dst (.const v), none)
  | .binary op dst a b => (s.setRegister dst (I.binary op (s.register a) (s.register b)), none)
  | .load dst addr type =>
    let address := s.register addr
    (s.setRegister dst (I.load s address type), some ⟨i, .load, address, type⟩)
  | .store src addr type =>
    let address := s.register addr
    ({ s with memory := I.store i.range s.memory address (s.register src) },
      some ⟨i, .store, address, type⟩)

/-- Joins in the skipping paths of the guards that end at `limit` or before. -/
def rejoin (limit : Nat) : List (Nat × State) → State → List (Nat × State) × State
  | [], s => ([], s)
  | p :: rest, s => if p.1 ≤ limit then rejoin limit rest (s.join I.loops p.2) else (p :: rest, s)

/-- Where the operations of a guard end. Positions are 64-bit numbers. -/
def guardEnd (position skip : Nat) : Nat := (position + 1 + skip) % 0x10000000000000000

/-- One operation at a position of its instruction. -/
def advance (i : Instruction) (x : Execution) (op : MicroOp × Nat) : Execution :=
  let (pending, state, events) :=
    match op.1 with
    | .guarded _ skip => ((guardEnd op.2 skip, x.state) :: x.pending, x.state, x.events)
    | other =>
      let (state, event) := I.step i x.state other
      (x.pending, state, x.events ++ event.toList)
  let (pending, state) := I.rejoin (op.2 + 1) pending state
  ⟨state, pending, events⟩

/-- Runs an instruction and drops its temporaries. -/
def execute (s : State) (i : Instruction) : State × List MemoryEvent :=
  let x := i.ops.zipIdx.foldl (I.advance i) ⟨s, [], []⟩
  let state := x.pending.foldl (fun s p => s.join I.loops p.2) x.state
  (state.clearTemporaries, x.events)

/-- Runs the instructions of a block. -/
def executeBlock (s : State) (b : Block) : State × List MemoryEvent :=
  b.instructions.foldl
    (fun acc i =>
      let (s, events) := I.execute acc.1 i
      (s, acc.2 ++ events))
    (s, [])

end Interpreter

end MissBound
