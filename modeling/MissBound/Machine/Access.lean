import MissBound.Machine.Resolution
import MissBound.Platform.Bank

/-!
The loads and stores of a program with their symbolic addresses.
-/

namespace MissBound

/-- The use of an address in a block. -/
structure DataUse where
  block : Nat
  /-- The address. -/
  reference : Symbolic
  /-- The use goes through the data cache. -/
  cached : Bool

/-- A load or a store of the program. -/
structure Access extends DataUse where
  /-- The address of the instruction. -/
  instruction : Nat
  kind : AccessKind
  type : Scalar
  range : Option DeclaredRange

/-- The accesses of each block, in the order of execution. -/
structure AccessTable where
  blocks : List (List Access)

namespace AccessTable

def block (t : AccessTable) (n : Nat) : List Access := t.blocks[n]?.getD []

def toList (t : AccessTable) : List Access := t.blocks.flatten

def size (t : AccessTable) : Nat := t.toList.length

/-- The lowest address of an access, if it is known. -/
def lowest? (L : LoopForest) (e : MemoryEvent) : Option Nat :=
  match e.address with
  | .top => e.instruction.range.map (·.lo)
  | v => (v.span? L).map (·.base)

/-- The access of a memory event. Its bank is the one that holds its lowest address. -/
def accessOf (L : LoopForest) (memory : MemoryMap) (block : Nat) (e : MemoryEvent) :
    Except Failure Access := do
  let cached ← match lowest? L e with
    | none => pure true
    | some address =>
      match memory.bankAt? address with
      | some bank => pure bank.cached
      | none => throw (.unmapped address e.instruction.address)
  return {
    block, cached
    reference := e.address
    instruction := e.instruction.address
    kind := e.kind
    type := e.type
    range := e.instruction.range }

/-- The accesses of one block from its resolved input; an unreached block makes none. -/
def blockAccesses (I : Interpreter) (memory : MemoryMap) (block : Nat) (code : Block)
    (input : Option State) : Except Failure (List Access) :=
  match input with
  | none => .ok []
  | some s => (I.executeBlock s code).2.mapM (accessOf I.loops memory block)

/-- The accesses of a program. -/
def build (G : FlowGraph) (boot : Boot) (limits : Limits) (memory : MemoryMap)
    (inputs : List (Option State)) : Except Failure AccessTable := do
  let I : Interpreter := ⟨G.loops, boot, limits.cap⟩
  let blocks ← G.graph.nodes.zipIdx.mapM fun b =>
    blockAccesses I memory b.2 b.1 (inputs[b.2]?.join)
  return ⟨blocks⟩

end AccessTable

end MissBound
