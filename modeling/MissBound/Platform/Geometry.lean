import MissBound.Failure

/-!
The geometry of a cache. An address splits into tag, set and offset within a block.
-/

namespace MissBound

structure Geometry where
  /-- Offset bits of an address. -/
  blockBits : Nat
  /-- Set bits of an address. -/
  setBits : Nat
  /-- Lines per set. -/
  ways : Nat
  policy : Policy
  ways_pos : 0 < ways
  ways_le : ways ≤ 255
  /-- At least one bit is left for the tag. -/
  bits_lt : blockBits + setBits < 32
  deriving DecidableEq

namespace Geometry

/-- A geometry of 1 to 255 ways that leaves at least one tag bit; the ways are judged first. -/
def make (blockBits setBits ways : Nat) (policy : Policy) : Except Failure Geometry :=
  if hw : 0 < ways ∧ ways ≤ 255 then
    if hb : blockBits + setBits < 32 then
      .ok ⟨blockBits, setBits, ways, policy, hw.1, hw.2, hb⟩
    else .error (.noTag blockBits setBits)
  else .error (.associativity ways)

variable (g : Geometry)

/-- Bytes per line. -/
def blockSize : Nat := 1 <<< g.blockBits

def setCount : Nat := 1 <<< g.setBits

/-- The memory block that holds an address. -/
def block (address : Nat) : Nat := address >>> g.blockBits

/-- The set to which an address maps. -/
def set (address : Nat) : Nat := g.block address % g.setCount

def tag (address : Nat) : Nat := address >>> (g.blockBits + g.setBits)

/-- The first address of the block that holds an address. -/
def round (address : Nat) : Nat := g.block address <<< g.blockBits

end Geometry

/-- The caches of a platform. -/
structure Caches where
  instruction : Option Geometry
  data : Option Geometry
  /-- Instructions and data share the data cache. -/
  unified : Bool

/-- The data cache, if it is one that can be analysed. -/
def Caches.dataCache (c : Caches) : Except Failure Geometry :=
  if c.unified then .error .unifiedCache
  else match c.data with
    | none => .error .missingDataCache
    | some d => if d.policy = .lru then .ok d else .error (.unsupportedPolicy d.policy)

end MissBound
