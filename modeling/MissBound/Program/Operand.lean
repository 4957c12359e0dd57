/-!
What register transfers work on: registers, which belong to the machine or live only within one
instruction, and the scalars that move between registers and memory.
-/

namespace MissBound

inductive Register where
  | machine (number : Nat)
  /-- A temporary, which does not outlive its instruction. -/
  | temporary (number : Nat)
  deriving DecidableEq

namespace Register

def isTemporary : Register → Bool
  | machine _ => false
  | temporary _ => true

def name : Register → String
  | machine n => s!"r{n}"
  | temporary n => s!"t{n}"

def ofName? (s : String) : Option Register :=
  match s.toList with
  | 'r' :: digits => (String.ofList digits).toNat?.map machine
  | 't' :: digits => (String.ofList digits).toNat?.map temporary
  | _ => none

/-- Machine registers by number, then temporaries by number. -/
def order : Register → Register → Ordering
  | machine a, machine b => compare a b
  | machine _, temporary _ => .lt
  | temporary _, machine _ => .gt
  | temporary a, temporary b => compare a b

instance : Ord Register := ⟨order⟩

end Register

/-- The width and the signedness of a memory transfer. -/
inductive Scalar where
  | int8
  | uint8
  | int16
  | uint16
  | int32
  | uint32
  deriving DecidableEq

namespace Scalar

def all : List Scalar := [int8, uint8, int16, uint16, int32, uint32]

def name : Scalar → String
  | int8 => "int8"
  | uint8 => "uint8"
  | int16 => "int16"
  | uint16 => "uint16"
  | int32 => "int32"
  | uint32 => "uint32"

def ofName? (s : String) : Option Scalar :=
  all.find? (·.name == s)

/-- Bytes per transfer. -/
def size : Scalar → Nat
  | int8 | uint8 => 1
  | int16 | uint16 => 2
  | int32 | uint32 => 4

def isSigned : Scalar → Bool
  | int8 | int16 | int32 => true
  | uint8 | uint16 | uint32 => false

end Scalar

end MissBound
