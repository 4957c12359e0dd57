import MissBound.Proofs.Machine.Simulation

/-!
Instructions with conditional operations against concrete registers. From registers that are
constants or unknown, the machine registers are described after every run whose guards and ends are
tracked. The path that skips a guard which ends inside a later one is lost, and so is one that ends
where other operations follow.
-/

namespace MissBound

namespace Symbolic

variable {L : LoopForest} {a b : Symbolic} {x y z : UInt32}

/-- The value is unknown, or the constant given. -/
inductive Admits : Symbolic → UInt32 → Prop
  | top {x : UInt32} : Admits .top x
  | const {x : UInt32} : Admits (.const x) x

theorem Admits.plain (h : a.Admits x) : a.Plain := by
  cases h with
  | top => exact .inr rfl
  | const => exact .inl rfl

theorem Admits.eq_of_const {c : UInt32} (h : a.Admits x) (ha : a = .const c) : x = c := by
  subst ha
  cases h with
  | const => rfl

theorem Plain.exists_admits (h : a.Plain) : ∃ x, a.Admits x := by
  rcases h.cases with rfl | ⟨x, rfl⟩
  · exact ⟨0, .top⟩
  · exact ⟨x, .const⟩

/-- Of constants and unknown values, different ones join to the unknown one. -/
theorem join_plain (ha : a.Plain) (hb : b.Plain) : a.join L b = if a = b then a else .top := by
  rcases eq_or_ne a b with rfl | hne
  · rw [join, if_pos rfl, if_pos rfl]
  · rw [join, if_neg hne, if_neg hne]
    rcases ha.cases with rfl | ⟨x, rfl⟩
    · rcases hb.cases with rfl | ⟨y, rfl⟩ <;> rfl
    · rcases hb.cases with rfl | ⟨y, rfl⟩
      · rfl
      · exact if_neg fun heq => hne (congrArg const heq)

/-- A join of constants that is known is that of equal ones. -/
theorem eq_of_join_plain {v : Symbolic} (ha : a.Plain) (hb : b.Plain) (h : a.join L b = v)
    (hne : v ≠ .top) : a = v ∧ b = v := by
  rw [join_plain ha hb] at h
  split at h
  · rename_i heq
    exact ⟨h, heq ▸ h⟩
  · exact absurd h.symm hne

theorem Admits.join_left (ha : a.Admits x) (hb : b.Plain) : (a.join L b).Admits x := by
  rw [join_plain ha.plain hb]
  split
  · exact ha
  · exact .top

theorem Admits.join_right (ha : a.Plain) (hb : b.Admits x) : (a.join L b).Admits x := by
  rw [join_plain ha hb.plain]
  split
  · rename_i heq
    exact heq ▸ hb
  · exact .top

theorem Admits.lift {op : Affine → Affine → Symbolic} (ha : a.Admits x) (hb : b.Admits y)
    (h : (op ⟨[], x⟩ ⟨[], y⟩).Admits z) : (lift op a b).Admits z := by
  cases ha with
  | top => cases hb <;> exact .top
  | const =>
    cases hb with
    | top => exact .top
    | const => exact h

end Symbolic

namespace State

variable {L : LoopForest} {s t : State} {r r' : Register} {v : Symbolic}
  {f : RegisterFile} {x : UInt32}

/-- The registers hold constants or are unknown. -/
structure Plain (s : State) : Prop where
  sorted : s.registers.Sorted
  plain : ∀ r, (s.register r).Plain

/-- The registers hold what is known of them. -/
def Describes (s : State) (f : RegisterFile) : Prop := ∀ r, (s.register r).Admits (f r)

theorem register_setRegister :
    (s.setRegister r v).register r' = if r' = r then v else s.register r' := by
  simp only [register, setRegister, Facts.get_set, Std.LawfulEqCmp.compare_eq_iff_eq]

theorem register_join (hs : s.registers.Sorted) :
    (s.join L t).register r = (s.register r).join L (t.register r) :=
  Facts.get_join hs

theorem register_clearTemporaries (h : r.isTemporary = false) :
    s.clearTemporaries.register r = s.register r := by
  unfold register clearTemporaries Facts.get Facts.find?
  simp only [List.find?_filter]
  congr 3
  funext e
  rw [Bool.eq_iff_iff, decide_eq_true_eq, beq_iff_eq, Std.LawfulEqCmp.compare_eq_iff_eq]
  refine and_iff_right_of_imp ?_
  rintro rfl
  rw [h]
  rfl

theorem Plain.setRegister (hs : s.Plain) (hv : v.Plain) : (s.setRegister r v).Plain := by
  refine ⟨hs.sorted.set, fun r' => ?_⟩
  rw [register_setRegister]
  split
  · exact hv
  · exact hs.plain r'

theorem Plain.join (hs : s.Plain) (ht : t.Plain) : (s.join L t).Plain := by
  refine ⟨hs.sorted.join, fun r => ?_⟩
  rw [register_join hs.sorted, Symbolic.join_plain (hs.plain r) (ht.plain r)]
  split
  · exact hs.plain r
  · exact .inr rfl

theorem describes_blank : blank.Describes f := fun _ => .top

theorem Describes.setRegister (h : s.Describes f) (hv : v.Admits x) :
    (s.setRegister r v).Describes (Function.update f r x) := by
  intro r'
  rw [register_setRegister, Function.update_apply]
  split
  · exact hv
  · exact h r'

theorem Describes.join_left (hs : s.Plain) (ht : t.Plain) (h : s.Describes f) :
    (s.join L t).Describes f := by
  intro r
  rw [register_join hs.sorted]
  exact (h r).join_left (ht.plain r)

theorem Describes.join_right (hs : s.Plain) (h : t.Describes f) : (s.join L t).Describes f := by
  intro r
  rw [register_join hs.sorted]
  exact .join_right (hs.plain r) (h r)

end State

namespace Interpreter

variable {I : Interpreter} {i : Instruction} {s t : State} {a b : Symbolic} {x y z : UInt32}
  {op : MicroOp} {m m' : Machine}

theorem admits_binary {op : BinaryOp} (ha : a.Admits x) (hb : b.Admits y) (h : op.Yields x y z) :
    (I.binary op a b).Admits z := by
  cases op with
  | add | sub | mul | or =>
    cases h
    exact ha.lift hb .const
  | shl =>
    apply ha.lift hb
    split
    · rename_i hcond
      rw [Bool.and_eq_true, decide_eq_true_eq] at hcond
      have hlt : y.toNat < 31 := hcond.2
      rw [h (by omega)]
      exact .const
    · exact .top
  | _ => exact .top

theorem plain_binary {op : BinaryOp} (ha : a.Plain) (hb : b.Plain) : (I.binary op a b).Plain := by
  obtain ⟨x, hx⟩ := ha.exists_admits
  obtain ⟨y, hy⟩ := hb.exists_admits
  obtain ⟨z, hz⟩ := op.exists_yields x y
  exact (admits_binary hx hy hz).plain

section
variable (hop : op.isMemory = false)
include hop

theorem plain_step (hs : s.Plain) : (I.step i s op).1.Plain := by
  cases op with
  | nop | trap | cont | branch | guarded => exact hs
  | scratch | unary => exact hs.setRegister (.inr rfl)
  | move dst src => exact hs.setRegister (hs.plain src)
  | literal => exact hs.setRegister (.inl rfl)
  | binary op dst a b => exact hs.setRegister (plain_binary (hs.plain a) (hs.plain b))
  | load | store => cases hop

theorem describes_step (hs : s.Describes m.registers) (heff : op.Effect m m') :
    (I.step i s op).1.Describes m'.registers := by
  cases heff with
  | nop | trap | cont | branch | guarded => exact hs
  | scratch | unary => exact hs.setRegister .top
  | move => exact hs.setRegister (hs _)
  | literal => exact hs.setRegister .const
  | binary h => exact hs.setRegister (admits_binary (hs _) (hs _) h)
  | load | store => cases hop

end

/-- Registers that are described stay so without loads and stores. -/
theorem simulates_registers (hi : i.accessesMemory = false) :
    I.Simulates i State.Plain (fun _ => True) fun s m => s.Describes m.registers := by
  have hops : ∀ op ∈ i.ops, op.isMemory = false := by
    intro op hop
    exact Bool.not_eq_true _ ▸ List.any_eq_false.mp hi op hop
  constructor
  · exact fun s op hop hs => plain_step (hops op hop) hs
  · exact fun s t hs ht => hs.join ht
  · exact fun s m m' op hop _ hm heff _ => describes_step (hops op hop) hm heff
  · intro s m op hop _ _
    cases op with
    | load | store => cases hops _ hop
    | _ => exact .nil
  · exact fun s t m hs ht h => h.join_left hs ht
  · exact fun s t m hs _ h => h.join_right hs

theorem execute_describes (hi : i.accessesMemory = false) (hends : MicroOp.Fits 0 i.ops)
    (hsorted : s.registers.Sorted) (hm : s.Describes m.registers) {log : List (Option Nat)}
    (hrun : MicroOp.Runs MicroOp.Tracked MicroOp.Idle i.ops m log m') (n : Nat) :
    ((I.execute s i).1.register (.machine n)).Admits (m'.registers (.machine n)) := by
  have hs : s.Plain := ⟨hsorted, fun r => (hm r).plain⟩
  obtain ⟨⟨y, t, hy, ht, heq⟩, -⟩ :=
    (simulates_registers hi).execute hs hm hends (fun _ _ => trivial) hrun
  rw [heq, State.register_clearTemporaries rfl, ← hy.registers]
  exact ht _

/-- An instruction without memory accesses, from registers that are constants or unknown: the
machine registers are described after every run in which each guard that fails goes on to the end or
holds the guards among its operations whole, and which ends before the last operation only where the
rest can be passed without an effect; and after every run at all if all guards and ends are so. -/
theorem execute_describes_runs (hi : i.accessesMemory = false) (hends : MicroOp.Fits 0 i.ops)
    (hsorted : s.registers.Sorted) (hm : s.Describes m.registers) :
    (∀ log m', MicroOp.Runs MicroOp.Tracked MicroOp.Idle i.ops m log m' →
      ∀ n, ((I.execute s i).1.register (.machine n)).Admits (m'.registers (.machine n))) ∧
    (MicroOp.WellNested i.ops → ∀ log m', MicroOp.FreeRuns i.ops m log m' →
      ∀ n, ((I.execute s i).1.register (.machine n)).Admits (m'.registers (.machine n))) := by
  refine ⟨fun log m' hrun => ?_, fun hnested log m' hrun => ?_⟩
  · exact execute_describes hi hends hsorted hm hrun
  · exact execute_describes hi hends hsorted hm (hrun.tracked hnested)

/-- No loops and no initial data. -/
def bare : Interpreter := ⟨⟨[], []⟩, .default, 64⟩

/-- The first two registers are known. -/
def pairState (x y : UInt32) : State :=
  (State.blank.setRegister (.machine 0) (.const x)).setRegister (.machine 1) (.const y)

/-- The registers of `pairState`, the others being zero. -/
def pairMachine (x y : UInt32) : Machine where
  registers := Function.update (Function.update (fun _ => 0) (.machine 0) x) (.machine 1) y
  bytes := fun _ => 0
  width := fun _ => 4

theorem sorted_pairState (x y : UInt32) : (pairState x y).registers.Sorted :=
  Facts.sorted_empty.set.set

theorem describes_pairState (x y : UInt32) :
    (pairState x y).Describes (pairMachine x y).registers :=
  (State.describes_blank.setRegister .const).setRegister .const

/-- A guard in a guard with the same end, one that reaches behind the instruction, and an end behind
which only an unknown value is set. -/
def nested : Instruction :=
  ⟨0, [.guarded (.machine 5) 4, .literal (.machine 1) 8, .guarded (.machine 6) 2,
    .binary .add (.temporary 0) (.machine 0) (.machine 1), .move (.machine 0) (.temporary 0),
    .guarded (.machine 7) 9, .literal (.machine 2) 1, .cont, .scratch (.machine 3)], none⟩

theorem idle_scratch {r : Register} (x : Machine) : MicroOp.Idle [.scratch r] x := by
  refine ⟨[], _, .next (.scratch (x.registers r)) .done, fun n => ?_, rfl⟩
  rw [Machine.set, Function.update_eq_self]

theorem execute_describes_runs_nested :
    nested.accessesMemory = false ∧ MicroOp.Fits 0 nested.ops ∧
    (pairState 4 7).registers.Sorted ∧ (pairState 4 7).Describes (pairMachine 4 7).registers ∧
    MicroOp.WellNested nested.ops ∧
    MicroOp.FreeRuns nested.ops (pairMachine 4 7) [] ((pairMachine 4 8).set (.machine 2) 1) ∧
    ∀ log m', MicroOp.FreeRuns nested.ops (pairMachine 4 7) log m' →
      ∀ n, ((bare.execute (pairState 4 7) nested).1.register (.machine n)).Admits
        (m'.registers (.machine n)) := by
  have hends : MicroOp.Fits 0 nested.ops := by decide
  have hnested : MicroOp.WellNested nested.ops := by
    simp [nested, MicroOp.WellNested, MicroOp.Tracked, MicroOp.Within, idle_scratch]
  refine ⟨rfl, hends, sorted_pairState 4 7, describes_pairState 4 7, hnested, ?_, ?_⟩
  · -- The second condition fails, and the run ends at the mark.
    have hlit : MicroOp.Effect (pairMachine 4 7) (.literal (.machine 1) 8) (pairMachine 4 8) := by
      have hset : (pairMachine 4 7).set (.machine 1) 8 = pairMachine 4 8 :=
        congrArg (Machine.mk · _ _) (Function.update_idem ..)
      exact hset ▸ .literal
    exact .next .guarded (.next hlit (.skip trivial (.next .guarded (.next .literal
      (.stop trivial)))))
  · exact (execute_describes_runs rfl hends (sorted_pairState 4 7) (describes_pairState 4 7)).2
      hnested

/-- The first guard ends inside the second. -/
def overlapping : Instruction :=
  ⟨0, [.guarded (.machine 5) 2, .literal (.machine 1) 0, .guarded (.machine 6) 1,
    .move (.machine 0) (.machine 1)], none⟩

/-- If the condition holds, the instruction ends before its last operation. -/
def endedEarly : Instruction :=
  ⟨0, [.guarded (.machine 5) 2, .literal (.machine 0) 1, .cont, .literal (.machine 0) 2], none⟩

/-- From `pairState 0 7` a run of the instruction leaves a value that it is not said to leave. -/
structure LosesPath (i : Instruction) : Prop where
  quiet : i.accessesMemory = false
  ends : MicroOp.Fits 0 i.ops
  lost : ∃ log m', MicroOp.FreeRuns i.ops (pairMachine 0 7) log m' ∧
    ¬((bare.execute (pairState 0 7) i).1.register (.machine 0)).Admits (m'.registers (.machine 0))

/-- The path that skips the first of two overlapping guards moves the old value of a register. An
operation behind the end of a path overwrites the value that the path leaves. -/
theorem execute_loses_paths :
    (pairState 0 7).registers.Sorted ∧ (pairState 0 7).Describes (pairMachine 0 7).registers ∧
    LosesPath overlapping ∧ LosesPath endedEarly := by
  refine ⟨sorted_pairState 0 7, describes_pairState 0 7, ⟨rfl, by decide, _, _,
    .skip trivial (.next .move .done), ?_⟩, ⟨rfl, by decide, _, _,
    .next .guarded (.next .literal (.stop trivial)), ?_⟩⟩
  · exact fun h => absurd (h.eq_of_const (c := 0) (by decide +kernel)) (by decide)
  · exact fun h => absurd (h.eq_of_const (c := 2) (by decide +kernel)) (by decide)

end Interpreter

end MissBound
