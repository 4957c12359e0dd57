import MissBound.Symbolic.Facts

/-!
Abstract memory: word-sized cells with known values, and the bytes that may have been written.
Bytes never written still hold their initial contents.
-/

namespace MissBound

/-- The largest address. -/
def lastAddress : Nat := 0xFFFFFFFF

structure Memory where
  /-- Known words by address. -/
  cells : Facts Nat
  /-- Written intervals as first and last byte, by first byte. -/
  written : List (Nat × Nat)
  /-- A store to an unknown address has happened. -/
  havoc : Bool
  deriving DecidableEq

namespace Memory

def empty : Memory := ⟨.empty, [], false⟩

def get? (m : Memory) (address : Nat) : Option Symbolic :=
  m.cells.find? address

def size (m : Memory) : Nat := m.cells.entries.length

/-- No byte of the `len` bytes at `address` may have been written. -/
def isPristine (m : Memory) (address len : Nat) : Bool :=
  !m.havoc && !m.written.any fun w => w.1 ≤ address + (len - 1) && address ≤ w.2

/-- Adds an interval; of two with the same first byte the longer one stays. -/
def insertWritten (lo hi : Nat) : List (Nat × Nat) → List (Nat × Nat)
  | [] => [(lo, hi)]
  | w :: rest =>
    if lo < w.1 then (lo, hi) :: w :: rest
    else if lo = w.1 then (lo, max w.2 hi) :: rest
    else w :: insertWritten lo hi rest

/-- Marks the words that start at `lo` up to `hi`, cut off at the last address. -/
def markWritten (m : Memory) (lo hi : Nat) : Memory :=
  { m with written := insertWritten lo (min (hi + 3) lastAddress) m.written }

/-- The word at `cell` shares a byte with a word that starts between `lo` and `hi`. -/
def overlaps (cell lo hi : Nat) : Bool :=
  lo - 3 ≤ cell && cell ≤ hi + 3

/-- Writes one word. Every other cell that shares a byte with it is forgotten. -/
def store (m : Memory) (address : Nat) (value : Symbolic) : Memory :=
  let rest : Facts Nat :=
    ⟨m.cells.entries.filter fun e => e.1 == address || !overlaps e.1 address address⟩
  { m with cells := rest.set address value }.markWritten address address

/-- A store to an unknown address. -/
def storeAnywhere (_ : Memory) : Memory := ⟨.empty, [], true⟩

/-- Writes some of the words at `base`, `base + step`, … up to `top`. A cell on this grid keeps the
join of its old value and `value`; any other cell that may be touched is forgotten. -/
def storeRange (L : LoopForest) (m : Memory) (base top step : Nat) (value : Symbolic) : Memory :=
  if top < base then m.storeAnywhere
  else
    let cells := m.cells.entries.filterMap fun e =>
      if overlaps e.1 base top then
        if step != 0 && base ≤ e.1 && e.1 ≤ top && (e.1 - base) % step == 0 then
          Facts.entry? e.1 (e.2.join L value)
        else none
      else some e
    { m with cells := ⟨cells⟩ }.markWritten base top

/-- Joins `count` words from `address` on, `step` bytes apart, to `acc`. -/
def loadWords (L : LoopForest) (m : Memory) (step : Nat) : Nat → Nat → Symbolic → Symbolic
  | 0, _, acc => acc
  | count + 1, address, acc =>
    match m.get? address with
    | none => .top
    | some v =>
      let joined := acc.join L v
      if joined.isTop then .top else loadWords L m step count (address + step) joined

/-- The words that a range load joins; none if there are more than `cap` of them. -/
def loadCount? (base top step cap : Nat) : Option Nat :=
  if top < base || step == 0 then none
  else
    let count := (top - base) / step + 1
    if cap < count then none else some count

/-- The join of the words at `base`, `base + step`, … up to `top`. -/
def loadRange (L : LoopForest) (m : Memory) (base top step cap : Nat) : Symbolic :=
  match loadCount? base top step cap with
  | none => .top
  | some count => loadWords L m step count base .bottom

def mergeWritten (a b : Memory) : List (Nat × Nat) :=
  if a.havoc || b.havoc then []
  else b.written.foldl (fun acc w => insertWritten w.1 w.2 acc) a.written

/-- The memory after one of two paths. -/
def join (L : LoopForest) (a b : Memory) : Memory :=
  if a = b then a else ⟨a.cells.join L b.cells, a.mergeWritten b, a.havoc || b.havoc⟩

def map (f : Symbolic → Symbolic) (m : Memory) : Memory :=
  { m with cells := m.cells.map f }

/-- Combines two memories cell by cell. -/
def combine (f : Symbolic → Symbolic → Symbolic) (a b : Memory) : Memory :=
  ⟨a.cells.combine f b.cells, a.mergeWritten b, a.havoc || b.havoc⟩

end Memory

end MissBound
