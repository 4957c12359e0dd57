import MissBound.Program.Operand

/-!
Instructions as short sequences of register transfers.
-/

namespace MissBound

inductive BinaryOp where
  | cmp
  | cmpu
  | add
  | sub
  | shl
  | shr
  | asr
  | and
  | or
  | xor
  | mul
  | mulu
  | mulh
  | div
  | divu
  | mod
  | modu
  deriving DecidableEq

namespace BinaryOp

def all : List BinaryOp :=
  [cmp, cmpu, add, sub, shl, shr, asr, and, or, xor, mul, mulu, mulh, div, divu, mod, modu]

def name : BinaryOp → String
  | cmp => "cmp"
  | cmpu => "cmpu"
  | add => "add"
  | sub => "sub"
  | shl => "shl"
  | shr => "shr"
  | asr => "asr"
  | and => "and"
  | or => "or"
  | xor => "xor"
  | mul => "mul"
  | mulu => "mulu"
  | mulh => "mulh"
  | div => "div"
  | divu => "divu"
  | mod => "mod"
  | modu => "modu"

def ofName? (s : String) : Option BinaryOp :=
  all.find? (·.name == s)

end BinaryOp

inductive UnaryOp where
  | neg
  | not
  deriving DecidableEq

namespace UnaryOp

def all : List UnaryOp := [neg, not]

def name : UnaryOp → String
  | neg => "neg"
  | not => "not"

def ofName? (s : String) : Option UnaryOp :=
  all.find? (·.name == s)

end UnaryOp

/-- One register transfer. -/
inductive MicroOp where
  | nop
  | trap
  /-- The end of the instruction on this path. -/
  | cont
  | branch (target : Register)
  /-- The destination becomes unknown. -/
  | scratch (dst : Register)
  /-- The next `skip` operations happen only if a condition holds that is not interpreted. -/
  | guarded (cond : Register) (skip : Nat)
  | load (dst addr : Register) (type : Scalar)
  | store (src addr : Register) (type : Scalar)
  | move (dst src : Register)
  | literal (dst : Register) (value : UInt32)
  | unary (op : UnaryOp) (dst a : Register)
  | binary (op : BinaryOp) (dst a b : Register)
  deriving DecidableEq

namespace MicroOp

def isMemory : MicroOp → Bool
  | load .. | store .. => true
  | _ => false

/-- The registers that an operation mentions. -/
def registers : MicroOp → List Register
  | nop | trap | cont => []
  | branch r | scratch r | guarded r _ | literal r _ => [r]
  | load a b _ | store a b _ | move a b | unary _ a b => [a, b]
  | binary _ a b c => [a, b, c]

end MicroOp

/-- The addresses that an instruction is declared to stay within, both ends included. -/
structure DeclaredRange where
  lo : Nat
  hi : Nat
  deriving DecidableEq

structure Instruction where
  address : Nat
  ops : List MicroOp
  range : Option DeclaredRange
  deriving DecidableEq

namespace Instruction

def accessesMemory (i : Instruction) : Bool :=
  i.ops.any MicroOp.isMemory

/-- The registers that an instruction mentions, in ascending order. -/
def registers (i : Instruction) : List Register :=
  ((i.ops.flatMap MicroOp.registers).eraseDups).mergeSort fun a b => (compare a b).isLE

end Instruction

/-- Straight-line code. -/
structure Block where
  address : Nat
  instructions : List Instruction
  deriving DecidableEq

end MissBound
