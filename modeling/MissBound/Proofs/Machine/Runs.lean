import MissBound.Proofs.Machine.Bytes

/-!
What instructions do to registers and bytes. The conditions of guards are left open, so that an
instruction has a run for each of their outcomes. A run logs the loads and stores of its operations:
the addresses of those that it performs, and nothing for those that it skips.
-/

namespace MissBound

/-- The contents of all registers. -/
abbrev RegisterFile : Type := Register → UInt32

/-- The results that an operator may have. Only some operators are tracked; the others are left
open, and so is a shift by a word or more. -/
def BinaryOp.Yields (op : BinaryOp) (x y z : UInt32) : Prop :=
  match op with
  | add => z = x + y
  | sub => z = x - y
  | mul => z = x * y
  | or => z = x ||| y
  | shl => y.toNat < 32 → z = x <<< y
  | _ => True

theorem BinaryOp.exists_yields (op : BinaryOp) (x y : UInt32) : ∃ z, op.Yields x y z := by
  cases op with
  | shl => exact ⟨_, fun _ => rfl⟩
  | add | sub | mul | or => exact ⟨_, rfl⟩
  | _ => exact ⟨0, trivial⟩

/-- The registers and the bytes of a running program, and how many bytes the latest store at each
address has written, four before the first one. -/
structure Machine where
  registers : RegisterFile
  bytes : ByteMemory
  width : Nat → Nat

namespace Machine

def set (x : Machine) (r : Register) (v : UInt32) : Machine :=
  { x with registers := Function.update x.registers r v }

/-- What a load or a store does. -/
def transfer (x : Machine) : MicroOp → Machine
  | .load dst addr type =>
    { x with
      registers := Function.update x.registers dst (x.bytes.load (x.registers addr).toNat type) }
  | .store src addr type =>
    { x with
      bytes := x.bytes.write (x.registers addr).toNat type.size (x.registers src)
      width := Function.update x.width (x.registers addr).toNat type.size }
  | _ => x

/-- The machines do not differ in what outlives an instruction. -/
structure Agrees (x y : Machine) : Prop where
  registers : ∀ n, x.registers (.machine n) = y.registers (.machine n)
  bytes : x.bytes = y.bytes

theorem Agrees.refl (x : Machine) : x.Agrees x := ⟨fun _ => rfl, rfl⟩

theorem Agrees.symm {x y : Machine} (h : x.Agrees y) : y.Agrees x :=
  ⟨fun n => (h.registers n).symm, h.bytes.symm⟩

theorem Agrees.trans {x y z : Machine} (h : x.Agrees y) (h' : y.Agrees z) : x.Agrees z :=
  ⟨fun n => (h.registers n).trans (h'.registers n), h.bytes.trans h'.bytes⟩

end Machine

namespace MicroOp

/-- What an operation does. -/
inductive Effect (x : Machine) : MicroOp → Machine → Prop
  | nop : Effect x .nop x
  | trap : Effect x .trap x
  | cont : Effect x .cont x
  | branch {target : Register} : Effect x (.branch target) x
  /-- The condition holds. -/
  | guarded {cond : Register} {skip : Nat} : Effect x (.guarded cond skip) x
  | scratch {dst : Register} (v : UInt32) : Effect x (.scratch dst) (x.set dst v)
  | move {dst src : Register} : Effect x (.move dst src) (x.set dst (x.registers src))
  | literal {dst : Register} {v : UInt32} : Effect x (.literal dst v) (x.set dst v)
  | unary {op : UnaryOp} {dst a : Register} (v : UInt32) : Effect x (.unary op dst a) (x.set dst v)
  | binary {op : BinaryOp} {dst a b : Register} {v : UInt32} :
    op.Yields (x.registers a) (x.registers b) v → Effect x (.binary op dst a b) (x.set dst v)
  | load {dst addr : Register} {type : Scalar} :
    Effect x (.load dst addr type) (x.transfer (.load dst addr type))
  | store {src addr : Register} {type : Scalar} :
    Effect x (.store src addr type) (x.transfer (.store src addr type))

/-- What an operation leaves in the log if it is performed. -/
def record (x : Machine) : MicroOp → List (Option Nat)
  | load _ addr _ | store _ addr _ => [some (x.registers addr).toNat]
  | _ => []

/-- What operations leave in the log if they are skipped. -/
def omitted (ops : List MicroOp) : List (Option Nat) := List.replicate (ops.countP isMemory) none

/-- Runs of operations, with any outcomes of the conditions. A guard is skipped only where `leaps`
allows it, given the number of its operations and all that are behind it. A `cont` ends the run
where `stops` allows it, given what is behind it and the machine; that a run goes on past it is
allowed everywhere, so that what holds of all runs holds whether or not it is an end. -/
inductive Runs (leaps : Nat → List MicroOp → Prop) (stops : List MicroOp → Machine → Prop) :
    List MicroOp → Machine → List (Option Nat) → Machine → Prop
  | done {x : Machine} : Runs leaps stops [] x [] x
  | next {op : MicroOp} {rest : List MicroOp} {x y z : Machine} {log : List (Option Nat)} :
    op.Effect x y → Runs leaps stops rest y log z →
    Runs leaps stops (op :: rest) x (op.record x ++ log) z
  /-- The condition fails. -/
  | skip {cond : Register} {n : Nat} {rest : List MicroOp} {x y : Machine}
    {log : List (Option Nat)} : leaps n rest → Runs leaps stops (rest.drop n) x log y →
    Runs leaps stops (.guarded cond n :: rest) x (omitted (rest.take n) ++ log) y
  /-- The instruction ends here. -/
  | stop {rest : List MicroOp} {x : Machine} : stops rest x →
    Runs leaps stops (.cont :: rest) x (omitted rest) x

/-- Runs with any outcomes at all. -/
abbrev FreeRuns : List MicroOp → Machine → List (Option Nat) → Machine → Prop :=
  Runs (fun _ _ => True) fun _ _ => True

/-- The guards among the first `n` operations do not reach behind these. -/
def Within : Nat → List MicroOp → Prop
  | n + 1, guarded _ skip :: rest => skip ≤ n ∧ Within n rest
  | n + 1, _ :: rest => Within n rest
  | _, _ => True

/-- The operations of a guard go on to the end, or hold the guards among them whole. -/
def Tracked (n : Nat) (rest : List MicroOp) : Prop := rest.length ≤ n ∨ Within n rest

/-- The operations can be run to their end without a lasting effect. -/
def Idle (ops : List MicroOp) (x : Machine) : Prop :=
  ∃ log y, Runs Tracked (fun _ _ => False) ops x log y ∧ y.Agrees x

/-- All guards are tracked, and behind each end there is nothing that has to happen. -/
def WellNested : List MicroOp → Prop
  | [] => True
  | guarded _ n :: rest => Tracked n rest ∧ WellNested rest
  | cont :: rest => (∀ x, Idle rest x) ∧ WellNested rest
  | _ :: rest => WellNested rest

section
variable {leaps leaps' : Nat → List MicroOp → Prop} {stops stops' : List MicroOp → Machine → Prop}
  {op : MicroOp} {ops : List MicroOp} {n : Nat} {x y : Machine} {log : List (Option Nat)}

theorem length_record : (op.record x).length = if op.isMemory then 1 else 0 := by
  cases op <;> rfl

theorem length_omitted : (omitted ops).length = ops.countP isMemory := List.length_replicate

/-- The log has an entry for every load and store. -/
theorem Runs.length_eq (h : Runs leaps stops ops x log y) : log.length = ops.countP isMemory := by
  induction h with
  | done => rfl
  | next _ _ ih => rw [List.length_append, length_record, ih, List.countP_cons, Nat.add_comm]
  | @skip cond n rest _ _ _ _ _ ih =>
    rw [List.length_append, length_omitted, ih, ← List.countP_append, List.take_append_drop]
    exact (List.countP_cons_of_neg Bool.false_ne_true).symm
  | stop => exact length_omitted.trans (List.countP_cons_of_neg Bool.false_ne_true).symm

theorem Within.cons (h : Within (n + 1) (op :: ops)) :
    (∀ cond skip, op = .guarded cond skip → skip ≤ n) ∧ Within n ops := by
  cases op with
  | guarded cond skip =>
    refine ⟨?_, h.2⟩
    rintro cond skip ⟨⟩
    exact h.1
  | _ => exact ⟨fun cond skip heq => (by cases heq), h⟩

theorem WellNested.tail (h : WellNested (op :: ops)) : WellNested ops := by
  cases op with
  | guarded | cont => exact h.2
  | _ => exact h

theorem WellNested.drop (h : WellNested ops) : WellNested (ops.drop n) := by
  induction n generalizing ops with
  | zero => exact h
  | succ n ih =>
    cases ops with
    | nil => exact h
    | cons op ops => exact ih h.tail

theorem Runs.tracked (h : Runs leaps stops ops x log y) (hnested : WellNested ops) :
    Runs Tracked Idle ops x log y := by
  induction h with
  | done => exact .done
  | next heff _ ih => exact .next heff (ih hnested.tail)
  | skip _ _ ih => exact .skip hnested.1 (ih hnested.2.drop)
  | stop => exact .stop (hnested.1 _)

theorem exists_effect (op : MicroOp) (x : Machine) : ∃ y, op.Effect x y := by
  cases op with
  | nop => exact ⟨x, .nop⟩
  | trap => exact ⟨x, .trap⟩
  | cont => exact ⟨x, .cont⟩
  | branch => exact ⟨x, .branch⟩
  | guarded => exact ⟨x, .guarded⟩
  | scratch => exact ⟨_, .scratch 0⟩
  | move => exact ⟨_, .move⟩
  | literal => exact ⟨_, .literal⟩
  | unary => exact ⟨_, .unary 0⟩
  | binary op _ a b =>
    obtain ⟨v, hv⟩ := op.exists_yields (x.registers a) (x.registers b)
    exact ⟨_, .binary hv⟩
  | load => exact ⟨_, .load⟩
  | store => exact ⟨_, .store⟩

end

end MicroOp

/-- Runs of instructions, one after the other. What temporaries hold in between is left open. -/
inductive Instruction.Runs : List Instruction → Machine → List (Option Nat) → Machine → Prop
  | done {x : Machine} : Runs [] x [] x
  | next {i : Instruction} {rest : List Instruction} {x y y' z : Machine}
    {log later : List (Option Nat)} : MicroOp.FreeRuns i.ops x log y → y.Agrees y' →
    Runs rest y' later z → Runs (i :: rest) x (log ++ later) z

theorem Instruction.Runs.single {i : Instruction} {x y : Machine} {log : List (Option Nat)}
    (h : MicroOp.FreeRuns i.ops x log y) : Instruction.Runs [i] x log y :=
  List.append_nil log ▸ .next h (.refl y) .done

end MissBound
