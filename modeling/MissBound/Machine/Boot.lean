import MissBound.Failure
import MissBound.Program.Instruction

/-!
What is known when the program starts: some registers, some memory words, and initialised data.
-/

namespace MissBound

/-- Initialised bytes from an address on. -/
structure Segment where
  base : Nat
  bytes : List UInt8
  deriving DecidableEq

namespace Segment

/-- All of the `len` bytes at `address` lie in the segment. -/
def covers (s : Segment) (address len : Nat) : Bool :=
  s.base ≤ address && address + len ≤ s.base + s.bytes.length

end Segment

/-- The little-endian number of some bytes. -/
def littleEndian : List UInt8 → Nat
  | [] => 0
  | b :: rest => b.toNat + 256 * littleEndian rest

/-- The 32-bit word that a transfer of `type` makes of the number it moves: signed types extend
their highest bit. -/
def Scalar.extend (type : Scalar) (n : Nat) : UInt32 :=
  if type.isSigned then word (Int.bmod n (1 <<< (8 * type.size))) else UInt32.ofNat n

structure Boot where
  stackPointer : Register
  /-- Known registers in ascending order. -/
  registers : List (Register × UInt32)
  /-- Known words by ascending address. -/
  words : List (Nat × UInt32)
  image : List Segment

namespace Boot

/-- Nothing is known but the name of the stack pointer. -/
def ofStackPointer (sp : Register) : Boot := ⟨sp, [], [], []⟩

/-- The stack pointer is `r13`. -/
def default : Boot := ofStackPointer (.machine 13)

/-- Puts an entry at its place, replacing one with the same key. -/
def insertAt {κ : Type} [Ord κ] (k : κ) (v : UInt32) : List (κ × UInt32) → List (κ × UInt32)
  | [] => [(k, v)]
  | e :: rest =>
    match compare k e.1 with
    | .lt => (k, v) :: e :: rest
    | .eq => (k, v) :: rest
    | .gt => e :: insertAt k v rest

def withRegister (b : Boot) (r : Register) (v : UInt32) : Except Failure Boot :=
  if r.isTemporary then .error (.temporaryPreset r.name)
  else .ok { b with registers := insertAt r v b.registers }

def withWord (b : Boot) (address : Nat) (v : UInt32) : Boot :=
  { b with words := insertAt address v b.words }

def withSegment (b : Boot) (base : Nat) (bytes : List UInt8) : Boot :=
  { b with image := b.image ++ [⟨base, bytes⟩] }

/-- Reads a value from the first segment that holds all of its bytes. -/
def read? (b : Boot) (address : Nat) (type : Scalar) : Option UInt32 :=
  (b.image.find? fun s => s.covers address type.size).map fun s =>
    type.extend (littleEndian ((s.bytes.drop (address - s.base)).take type.size))

end Boot

end MissBound
