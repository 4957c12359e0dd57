import MissBound.Failure

/-!
Memory banks: which addresses go through the data cache, and what a transfer costs there.
-/

namespace MissBound

structure Bank where
  name : String
  base : Nat
  /-- Bytes, up to the whole address space. -/
  size : Nat
  cached : Bool
  readLatency : Nat
  writeLatency : Nat
  deriving DecidableEq

namespace Bank

/-- The first address after the bank. -/
def limit (b : Bank) : Nat := b.base + b.size

def contains (b : Bank) (address : Nat) : Bool :=
  b.base ≤ address && address < b.limit

end Bank

/-- Closes in on the first element between `lo` and `hi` that `p` refuses, by halves and at most
`steps` times. -/
def bisect {α : Type} (p : α → Bool) (xs : List α) : Nat → Nat → Nat → Nat
  | 0, lo, _ => lo
  | steps + 1, lo, hi =>
    if lo < hi then
      let mid := lo + (hi - lo) / 2
      if xs[mid]?.any p then bisect p xs steps (mid + 1) hi else bisect p xs steps lo mid
    else lo

/-- How many elements `p` accepts, if they stand before all others. -/
def partitionPoint {α : Type} (p : α → Bool) (xs : List α) : Nat :=
  bisect p xs xs.length 0 xs.length

/-- Disjoint banks by ascending address. -/
structure MemoryMap where
  banks : List Bank
  deriving DecidableEq

namespace MemoryMap

def empty : MemoryMap := ⟨[]⟩

/-- One cached bank that covers all addresses. -/
def flat (latency : Nat) : MemoryMap :=
  ⟨[⟨"memory", 0, 0x100000000, true, latency, latency⟩]⟩

/-- Adds a bank that is not empty, ends within the address space and meets no other. -/
def add (m : MemoryMap) (b : Bank) : Except Failure MemoryMap :=
  if b.size = 0 ∨ 0x100000000 < b.limit then .error (.bankSize b.name b.base b.size)
  else match m.banks.find? fun o => o.base < b.limit && b.base < o.limit with
    | some other => .error (.bankOverlap b.name other.name)
    | none => .ok ⟨m.banks.insertIdx (partitionPoint (fun o => o.base < b.base) m.banks) b⟩

/-- The bank that holds an address: the last one that starts at or below it, if it reaches so
far. -/
def bankAt? (m : MemoryMap) (address : Nat) : Option Bank :=
  (m.banks.take (partitionPoint (fun b => b.base ≤ address) m.banks)).getLast?.filter
    (·.contains address)

def worstReadLatency (m : MemoryMap) : Nat :=
  m.banks.foldl (fun acc b => max acc b.readLatency) 0

def worstWriteLatency (m : MemoryMap) : Nat :=
  m.banks.foldl (fun acc b => max acc b.writeLatency) 0

end MemoryMap

end MissBound
