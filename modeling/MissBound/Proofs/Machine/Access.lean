import Mathlib
import MissBound.Machine.Access
import MissBound.Proofs.Failure

/-!
The table of accesses holds one access for each memory operation of a block that is reached, in the
order of the operations.
-/

namespace MissBound

/-- The number of memory operations of some code. -/
def Block.memoryOps (b : Block) : Nat :=
  (b.instructions.map fun i => i.ops.countP MicroOp.isMemory).sum

namespace Interpreter

variable {I : Interpreter} {i : Instruction} {s : State}

theorem length_advance {x : Execution} {op : MicroOp × Nat} : (I.advance i x op).events.length =
    x.events.length + if op.1.isMemory then 1 else 0 := by
  obtain ⟨op, k⟩ := op
  cases op <;> simp [advance, step, MicroOp.isMemory]

theorem length_execute : (I.execute s i).2.length = i.ops.countP MicroOp.isMemory := by
  have hfold : ∀ (ops : List (MicroOp × Nat)) (x : Execution),
      (ops.foldl (I.advance i) x).events.length =
        x.events.length + (ops.map (·.1)).countP MicroOp.isMemory := by
    intro ops
    induction ops with
    | nil => exact fun _ => rfl
    | cons op ops ih =>
      intro x
      rw [List.foldl_cons, ih, length_advance, List.map_cons, List.countP_cons]
      omega
  have h := hfold i.ops.zipIdx ⟨s, [], []⟩
  rw [List.zipIdx_map_fst, List.length_nil, Nat.zero_add] at h
  exact h

/-- The instructions of a block, one after the other. -/
theorem executeBlock_cons {a : Nat} {is : List Instruction} : I.executeBlock s ⟨a, i :: is⟩ =
    ((I.executeBlock (I.execute s i).1 ⟨a, is⟩).1,
      (I.execute s i).2 ++ (I.executeBlock (I.execute s i).1 ⟨a, is⟩).2) := by
  have hfold : ∀ (is : List Instruction) (s : State) (es fs : List MemoryEvent),
      is.foldl (fun acc i => ((I.execute acc.1 i).1, acc.2 ++ (I.execute acc.1 i).2))
        (s, es ++ fs) =
      Prod.map id (es ++ ·) (is.foldl
        (fun acc i => ((I.execute acc.1 i).1, acc.2 ++ (I.execute acc.1 i).2)) (s, fs)) := by
    intro is
    induction is with
    | nil => exact fun _ _ _ => rfl
    | cons i is ih =>
      intro s es fs
      rw [List.foldl_cons, List.append_assoc, ih]
      rfl
  have h := hfold is (I.execute s i).1 (I.execute s i).2 []
  rw [List.append_nil] at h
  exact h

theorem length_executeBlock {b : Block} : (I.executeBlock s b).2.length = b.memoryOps := by
  obtain ⟨a, is⟩ := b
  induction is generalizing s with
  | nil => rfl
  | cons i is ih =>
    rw [executeBlock_cons, List.length_append, length_execute, ih]
    rfl

end Interpreter

namespace AccessTable

variable {G : FlowGraph} {boot : Boot} {limits : Limits} {memory : MemoryMap}
  {inputs : List (Option State)} {table : AccessTable} {L : LoopForest} {b : Nat} {a : Access}

theorem accessOf_ok {e : MemoryEvent} (h : accessOf L memory b e = .ok a) :
    a.block = b ∧ a.reference = e.address ∧ a.kind = e.kind ∧ a.type = e.type := by
  unfold accessOf at h
  split at h
  · cases h
    exact ⟨rfl, rfl, rfl, rfl⟩
  · split at h
    · cases h
      exact ⟨rfl, rfl, rfl, rfl⟩
    · cases h

section
variable (h : build G boot limits memory inputs = .ok table)
include h

theorem blocks_of_build : (G.block? b).map (fun code =>
      blockAccesses ⟨G.loops, boot, limits.cap⟩ memory b code (inputs[b]?.join)) =
    table.blocks[b]?.map .ok := by
  unfold build at h
  obtain ⟨blocks, hblocks, h⟩ := bind_ok.mp h
  cases h
  rw [← getElem?_of_mapM hblocks, List.getElem?_zipIdx, Nat.zero_add, Option.map_map]
  rfl

/-- The accesses of a block stem from the operations of its code. -/
theorem blockAccesses_of_build {code : Block} (hcode : G.block? b = some code) :
    blockAccesses ⟨G.loops, boot, limits.cap⟩ memory b code (inputs[b]?.join) =
      .ok (table.block b) := by
  have H := blocks_of_build (b := b) h
  rw [hcode] at H
  obtain ⟨as, has, heq⟩ := Option.map_eq_some_iff.mp H.symm
  rw [block, has]
  exact heq.symm

theorem block_eq_nil_of_build (hcode : G.block? b = none) : table.block b = [] := by
  have H := blocks_of_build (b := b) h
  rw [hcode] at H
  rw [block, Option.map_eq_none_iff.mp H.symm]
  rfl

/-- Every access stems from a use of memory by the code of its block. -/
theorem exists_event_of_build (ha : a ∈ table.block b) : ∃ code s e, G.block? b = some code ∧
    inputs[b]?.join = some s ∧
    e ∈ ((⟨G.loops, boot, limits.cap⟩ : Interpreter).executeBlock s code).2 ∧
    accessOf G.loops memory b e = .ok a := by
  cases hcode : G.block? b with
  | none =>
    rw [block_eq_nil_of_build h hcode] at ha
    cases ha
  | some code =>
    have H := blockAccesses_of_build h hcode
    unfold blockAccesses at H
    split at H
    · rw [← Except.ok.inj H] at ha
      cases ha
    · rename_i s hs
      obtain ⟨i, hi⟩ := List.getElem?_of_mem ha
      have hget := getElem?_of_mapM (i := i) H
      rw [hi] at hget
      obtain ⟨e, hmem, he⟩ := Option.map_eq_some_iff.mp hget
      exact ⟨code, s, e, rfl, hs, List.mem_of_getElem? hmem, he⟩

theorem block_eq_of_build (ha : a ∈ table.block b) : a.block = b := by
  obtain ⟨code, s, e, -, -, -, he⟩ := exists_event_of_build h ha
  exact (accessOf_ok he).1

/-- A block that is reached has an access for each of its memory operations. -/
theorem length_block_of_build {code : Block} {s : State} (hcode : G.block? b = some code)
    (hs : inputs[b]?.join = some s) : (table.block b).length = code.memoryOps := by
  have H := blockAccesses_of_build h hcode
  rw [hs] at H
  rw [length_of_mapM H, Interpreter.length_executeBlock]

end

end AccessTable

end MissBound
