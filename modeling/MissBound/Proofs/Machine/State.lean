import MissBound.Machine.Interpreter
import MissBound.Proofs.Symbolic.Facts

/-!
States whose values are proper. Running instructions keeps them so, over the loops of the values at
the start, and the addresses that are accessed on the way are proper as well.
-/

namespace MissBound

namespace Register

instance : Std.TransOrd Register where
  eq_swap {a b} :=
    match a, b with
    | machine m, machine n | temporary m, temporary n => Std.OrientedOrd.eq_swap (a := m) (b := n)
    | machine _, temporary _ | temporary _, machine _ => rfl
  isLE_trans {a b c} h₁ h₂ :=
    match a, b, c with
    | machine k, machine m, machine n | temporary k, temporary m, temporary n =>
      Std.TransOrd.isLE_trans (a := k) (b := m) (c := n) h₁ h₂
    | machine _, _, temporary _ => rfl
    | machine _, temporary _, machine _ => by cases h₂
    | temporary _, machine _, _ => by cases h₁
    | temporary _, temporary _, machine _ => by cases h₂

instance : Std.LawfulEqOrd Register where
  compare_self {a} :=
    match a with
    | machine n | temporary n => Std.ReflOrd.compare_self (a := n)
  eq_of_compare {a b} h :=
    match a, b with
    | machine m, machine n => congrArg machine (Std.LawfulEqOrd.eq_of_compare (a := m) (b := n) h)
    | temporary m, temporary n =>
      congrArg temporary (Std.LawfulEqOrd.eq_of_compare (a := m) (b := n) h)
    | machine _, temporary _ => by cases h
    | temporary _, machine _ => by cases h

end Register

variable {L : LoopForest} {P Q : Nat → Prop}

theorem Symbolic.Proper.join_bottom {v : Symbolic} (hv : v.Proper L P) :
    Symbolic.bottom.join L v = v := by
  cases hv <;> rfl

namespace Memory

variable {m : Memory} {v : Symbolic}

def Proper (L : LoopForest) (P : Nat → Prop) (m : Memory) : Prop := m.cells.Proper L P

theorem proper_empty : empty.Proper L P := Facts.proper_empty

theorem proper_storeAnywhere : m.storeAnywhere.Proper L P := proper_empty

theorem Proper.store {address : Nat} (hm : m.Proper L P) (hv : v.Proper L P) :
    (m.store address v).Proper L P :=
  Facts.Proper.set (Facts.Proper.filter hm) hv

/-- What a store to a range leaves of a cell: nothing, the cell, or its join with the value. -/
theorem storeRange_cases {base top step : Nat} {e e' : Nat × Symbolic}
    (h : e' ∈ if overlaps e.1 base top then
        if step != 0 && base ≤ e.1 && e.1 ≤ top && (e.1 - base) % step == 0 then
          Facts.entry? e.1 (e.2.join L v)
        else none
      else some e) :
    e' = e ∨ e.2.join L v ≠ .top ∧ e' = (e.1, e.2.join L v) := by
  split at h
  · split at h
    · exact .inr (Facts.entry?_eq_some.mp h)
    · cases h
  · cases h
    exact .inl rfl

theorem Proper.storeRange {base top step : Nat} (hm : m.Proper L P) (hv : v.Proper L P) :
    (m.storeRange L base top step v).Proper L P := by
  unfold Memory.storeRange
  split
  · exact proper_storeAnywhere
  · refine ⟨Facts.Sorted.filterMap hm.sorted fun e e' he' => ?_,
      Facts.All.filterMap hm.known fun e he e' he' => ?_,
      Facts.All.filterMap hm.values fun e he e' he' => ?_⟩
    · rcases storeRange_cases he' with rfl | ⟨-, rfl⟩ <;> rfl
    · rcases storeRange_cases he' with rfl | ⟨hne, rfl⟩
      · exact he
      · exact hne
    · rcases storeRange_cases he' with rfl | ⟨-, rfl⟩
      · exact he
      · exact Symbolic.proper_join he hv

theorem Proper.loadWords (hm : m.Proper L P) {step : Nat} :
    ∀ {count address : Nat} {acc : Symbolic}, acc = .bottom ∧ count ≠ 0 ∨ acc.Proper L P →
      (m.loadWords L step count address acc).Proper L P
  | 0, _, _, h => h.resolve_left fun h => h.2 rfl
  | count + 1, address, acc, h => by
    unfold Memory.loadWords
    split
    · exact .top
    · rename_i v hv
      have hv : v.Proper L P := Facts.All.find? hm.values hv
      have hjoin : (acc.join L v).Proper L P := by
        rcases h with ⟨rfl, -⟩ | h
        · exact hv.join_bottom.symm ▸ hv
        · exact Symbolic.proper_join h hv
      simp only
      split
      · exact .top
      · exact Proper.loadWords hm (.inr hjoin)

theorem Proper.loadRange {base top step cap : Nat} (hm : m.Proper L P) :
    (m.loadRange L base top step cap).Proper L P := by
  unfold Memory.loadRange
  split
  · exact .top
  · rename_i count hcount
    refine hm.loadWords (.inl ⟨rfl, ?_⟩)
    unfold loadCount? at hcount
    split at hcount
    · cases hcount
    · cases (Option.ite_none_left_eq_some.mp hcount).2
      exact Nat.succ_ne_zero _

theorem Proper.join {m' : Memory} (h : m.Proper L P) (h' : m'.Proper L P) :
    (m.join L m').Proper L P := by
  unfold Memory.join
  split
  · exact h
  · exact Facts.Proper.join h h'

end Memory

namespace State

variable {s t : State} {r : Register} {v : Symbolic}

structure Proper (L : LoopForest) (P : Nat → Prop) (s : State) : Prop where
  registers : s.registers.Proper L P
  memory : s.memory.Proper L P

theorem Proper.register (h : s.Proper L P) : (s.register r).Proper L P := h.registers.get

theorem Proper.setRegister (h : s.Proper L P) (hv : v.Proper L P) :
    (s.setRegister r v).Proper L P :=
  ⟨h.registers.set hv, h.memory⟩

theorem Proper.clearTemporaries (h : s.Proper L P) : s.clearTemporaries.Proper L P :=
  ⟨h.registers.filter, h.memory⟩

theorem Proper.join (h : s.Proper L P) (h' : t.Proper L P) : (s.join L t).Proper L P :=
  ⟨h.registers.join h'.registers, h.memory.join h'.memory⟩

theorem Proper.combine {f : Symbolic → Symbolic → Symbolic} (h : s.Proper L P) (h' : t.Proper L P)
    (hf : ∀ a b : Symbolic, a.Proper L P → b.Proper L P → (f a b).Proper L P) :
    (s.combine f t).Proper L P :=
  ⟨h.registers.combine h'.registers hf, Facts.Proper.combine h.memory h'.memory hf⟩

theorem Proper.map {f : Symbolic → Symbolic} (h : s.Proper L P)
    (hf : ∀ v : Symbolic, v.Proper L P → (f v).Proper L Q) : (s.map f).Proper L Q :=
  ⟨h.registers.map hf, Facts.Proper.map h.memory hf⟩

theorem Proper.mono (h : s.Proper L P) (hPQ : ∀ n, P n → Q n) : s.Proper L Q :=
  ⟨h.registers.mono hPQ, Facts.Proper.mono h.memory hPQ⟩

theorem proper_ofBoot {boot : Boot} {stackBase : UInt32} : (ofBoot boot stackBase).Proper L P := by
  refine List.foldlRecOn (motive := Proper L P) _ _ ?_ fun s h e _ =>
    ⟨h.registers, h.memory.store Symbolic.proper_const⟩
  refine List.foldlRecOn (motive := Proper L P) _ _ ?_ fun s h e _ =>
    h.setRegister Symbolic.proper_const
  have hblank : blank.Proper L P := ⟨Facts.proper_empty, Memory.proper_empty⟩
  exact hblank.setRegister Symbolic.proper_const

end State

namespace Interpreter

variable {I : Interpreter} {s : State} {i : Instruction} {a b v : Symbolic}

theorem proper_load {type : Scalar} (h : s.Proper I.loops P) :
    (I.load s a type).Proper I.loops P := by
  unfold load
  split
  · exact .top
  · split
    · exact h.memory.loadRange
    · split
      · rename_i hv
        exact Facts.All.find? h.memory.values hv
      · split
        · split
          · exact Symbolic.proper_const
          · exact .top
        · exact .top

theorem proper_store {range : Option DeclaredRange} {m : Memory} (hm : m.Proper I.loops P)
    (hv : v.Proper I.loops P) : (I.store range m a v).Proper I.loops P := by
  unfold store
  split
  · exact hm
  · split
    · exact hm.storeRange hv
    · exact Memory.proper_storeAnywhere
  · split
    · exact Memory.proper_storeAnywhere
    · split
      · exact hm.store hv
      · exact hm.storeRange hv

theorem proper_binary {op : BinaryOp} (ha : a.Proper I.loops P) (hb : b.Proper I.loops P) :
    (I.binary op a b).Proper I.loops P := by
  cases op with
  | add => exact Symbolic.proper_add ha hb
  | sub => exact Symbolic.proper_sub ha hb
  | shl => exact Symbolic.proper_shl ha hb
  | mul => exact Symbolic.proper_mul ha hb
  | or => exact Symbolic.proper_or ha hb
  | _ => exact .top

/-- What instructions keep true of states, together with what is true of the accesses they make. -/
structure Keeps (I : Interpreter) (i : Instruction) (S : State → Prop) (E : MemoryEvent → Prop) :
    Prop where
  step : ∀ s op, S s → S (I.step i s op).1 ∧ ∀ e ∈ (I.step i s op).2, E e
  join : ∀ s t, S s → S t → S (s.join I.loops t)
  clear : ∀ s, S s → S s.clearTemporaries

theorem keeps_proper : I.Keeps i (State.Proper I.loops P) fun e => e.address.Proper I.loops P where
  step s op h := by
    have hnone : ∀ e ∈ (none : Option MemoryEvent), e.address.Proper I.loops P :=
      fun e he => (by cases he)
    cases op with
    | nop | trap | cont | branch | guarded => exact ⟨h, hnone⟩
    | scratch | unary => exact ⟨h.setRegister .top, hnone⟩
    | move dst src => exact ⟨h.setRegister h.register, hnone⟩
    | literal dst v => exact ⟨h.setRegister Symbolic.proper_const, hnone⟩
    | binary op dst a b => exact ⟨h.setRegister (proper_binary h.register h.register), hnone⟩
    | load dst addr type =>
      refine ⟨h.setRegister (proper_load h), fun e he => ?_⟩
      cases he
      exact h.register
    | store src addr type =>
      refine ⟨⟨h.registers, proper_store h.memory h.register⟩, fun e he => ?_⟩
      cases he
      exact h.register
  join _ _ h h' := h.join h'
  clear _ h := h.clearTemporaries

end Interpreter

/-- A property of the states and the accesses wherever an instruction has come to. -/
structure Execution.Satisfies (S : State → Prop) (E : MemoryEvent → Prop)
    (x : Execution) : Prop where
  state : S x.state
  pending : ∀ p ∈ x.pending, S p.2
  events : ∀ e ∈ x.events, E e

namespace Interpreter

variable {I : Interpreter} {i : Instruction} {s : State} {S : State → Prop} {E : MemoryEvent → Prop}

section
variable (hjoin : ∀ s t, S s → S t → S (s.join I.loops t))
include hjoin

theorem satisfies_rejoin (limit : Nat) {pending : List (Nat × State)} (h : S s)
    (hp : ∀ p ∈ pending, S p.2) :
    (∀ p ∈ (I.rejoin limit pending s).1, S p.2) ∧ S (I.rejoin limit pending s).2 := by
  induction pending generalizing s with
  | nil => exact ⟨hp, h⟩
  | cons p pending ih =>
    unfold Interpreter.rejoin
    split
    · refine ih (hjoin _ _ h (hp p List.mem_cons_self)) fun q hq => ?_
      exact hp q (List.mem_cons_of_mem _ hq)
    · exact ⟨hp, h⟩

theorem satisfies_advance {x : Execution} {op : MicroOp} {position : Nat} (h : x.Satisfies S E)
    (hstep : S (I.step i x.state op).1 ∧ ∀ e ∈ (I.step i x.state op).2, E e) :
    (I.advance i x (op, position)).Satisfies S E := by
  unfold Interpreter.advance
  simp only
  split
  · rename_i skip
    have hopen : ∀ p ∈ (guardEnd position skip, x.state) :: x.pending, S p.2 :=
      List.forall_mem_cons.mpr ⟨h.state, h.pending⟩
    obtain ⟨hpending, hstate⟩ := satisfies_rejoin hjoin (position + 1) h.state hopen
    exact ⟨hstate, hpending, h.events⟩
  · obtain ⟨hs, he⟩ := hstep
    obtain ⟨hpending, hstate⟩ := satisfies_rejoin hjoin (position + 1) hs h.pending
    refine ⟨hstate, hpending, fun e hmem => ?_⟩
    rcases List.mem_append.mp hmem with hmem | hmem
    · exact h.events e hmem
    · exact he e (Option.mem_toList.mp hmem)

end

section
variable (K : I.Keeps i S E)
include K

theorem Keeps.execute (h : S s) : S (I.execute s i).1 ∧ ∀ e ∈ (I.execute s i).2, E e := by
  have hx : (i.ops.zipIdx.foldl (I.advance i) ⟨s, [], []⟩).Satisfies S E :=
    List.foldlRecOn (motive := Execution.Satisfies S E) _ _
      ⟨h, fun p hp => (by cases hp), fun e he => (by cases he)⟩ fun _ h op _ =>
        satisfies_advance K.join h (K.step _ op.1 h.state)
  refine ⟨K.clear _ ?_, hx.events⟩
  exact List.foldlRecOn (motive := S) _ _ hx.state fun _ h p hp => K.join _ _ h (hx.pending p hp)

end

theorem Keeps.executeBlock {b : Block} (K : ∀ i ∈ b.instructions, I.Keeps i S E) (h : S s) :
    S (I.executeBlock s b).1 ∧ ∀ e ∈ (I.executeBlock s b).2, E e := by
  refine List.foldlRecOn
    (motive := fun acc : State × List MemoryEvent => S acc.1 ∧ ∀ e ∈ acc.2, E e) _ _
    ⟨h, fun e he => (by cases he)⟩ fun acc hacc i hi => ?_
  obtain ⟨hs, he⟩ := (K i hi).execute hacc.1
  refine ⟨hs, fun e hmem => ?_⟩
  rcases List.mem_append.mp hmem with hmem | hmem
  · exact hacc.2 e hmem
  · exact he e hmem

theorem proper_executeBlock (h : s.Proper I.loops P) (b : Block) :
    (I.executeBlock s b).1.Proper I.loops P ∧
      ∀ e ∈ (I.executeBlock s b).2, e.address.Proper I.loops P :=
  Keeps.executeBlock (fun _ _ => keeps_proper) h

end Interpreter

end MissBound
