import MissBound.Proofs.Machine.Runs
import MissBound.Proofs.Machine.State

/-!
The interpreter beside running instructions. A guard keeps the state that skips its operations and
joins it when they are over, the innermost guard first. A relation between states and machines that
single operations and joins keep is therefore kept by every run in which each guard that fails comes
to its end before those around it, or at the end of the instruction, and in which nothing has to
happen behind the place where the run ends. A guard that ends inside the operations of a later one
is joined only with that one, and what its skipping path does in between is lost.
-/

namespace MissBound

/-- The access is skipped, or it goes where the interpreter takes it to go. -/
def MemoryEvent.At (e : MemoryEvent) (o : Option Nat) : Prop :=
  ∀ a ∈ o, ∃ c, e.address = .const c ∧ c.toNat = a

namespace MicroOp

/-- The number of operations of a guard. -/
def skip? : MicroOp → Option Nat
  | guarded _ n => some n
  | _ => none

/-- The ends of all guards are 64-bit numbers, if the first operation stands at position `p`. -/
def Fits : Nat → List MicroOp → Prop
  | _, [] => True
  | p, op :: ops => (∀ n ∈ op.skip?, p + 1 + n < 2 ^ 64) ∧ Fits (p + 1) ops

instance decidableFits : ∀ (p : Nat) (ops : List MicroOp), Decidable (Fits p ops)
  | _, [] => instDecidableTrue
  | p, op :: ops =>
    have := decidableFits (p + 1) ops
    inferInstanceAs (Decidable ((∀ n ∈ op.skip?, p + 1 + n < 2 ^ 64) ∧ Fits (p + 1) ops))

variable {p k n : Nat} {cond : Register} {op : MicroOp} {ops : List MicroOp}

theorem Fits.head (h : Fits p (.guarded cond n :: ops)) : p + 1 + n < 2 ^ 64 := h.1 n rfl

theorem Fits.drop (h : Fits p ops) (hk : k ≤ ops.length) : Fits (p + k) (ops.drop k) := by
  induction k generalizing p ops with
  | zero => exact h
  | succ k ih =>
    cases ops with
    | nil => cases hk
    | cons op ops =>
      rw [← Nat.add_assoc, Nat.add_right_comm]
      exact ih h.2 (Nat.le_of_succ_le_succ hk)

end MicroOp

/-- The interpreter follows all runs of the instruction. -/
structure Instruction.Orderly (i : Instruction) : Prop where
  nested : MicroOp.WellNested i.ops
  fits : MicroOp.Fits 0 i.ops

namespace Interpreter

variable {I : Interpreter} {i : Instruction} {s : State} {x : Execution} {op : MicroOp}
  {ops : List MicroOp} {p n : Nat}

/-- Where an instruction comes to with some of its operations, the first of them at position `p`. -/
def proceed (I : Interpreter) (i : Instruction) (p : Nat) (ops : List MicroOp) (x : Execution) :
    Execution :=
  (ops.zipIdx p).foldl (I.advance i) x

theorem proceed_cons :
    I.proceed i p (op :: ops) x = I.proceed i (p + 1) ops (I.advance i x (op, p)) := by
  rw [proceed, List.zipIdx_cons, List.foldl_cons]
  rfl

theorem proceed_append (ops ops' : List MicroOp) :
    I.proceed i p (ops ++ ops') x = I.proceed i (p + ops.length) ops' (I.proceed i p ops x) := by
  rw [proceed, List.zipIdx_append, List.foldl_append]
  rfl

/-- The operations of a guard, and those behind them. -/
theorem proceed_guarded {cond : Register} (h : n ≤ ops.length) :
    I.proceed i p (.guarded cond n :: ops) x = I.proceed i (p + 1 + n) (ops.drop n)
      (I.proceed i p (.guarded cond n :: ops.take n) x) := by
  have happend := proceed_append (I := I) (i := i) (p := p) (x := x)
    (.guarded cond n :: ops.take n) (ops.drop n)
  rwa [List.cons_append, List.take_append_drop, List.length_cons, List.length_take_of_le h,
    Nat.add_comm n, ← Nat.add_assoc] at happend

theorem guardEnd_eq (h : p + 1 + n < 2 ^ 64) : guardEnd p n = p + 1 + n := Nat.mod_eq_of_lt h

theorem guardEnd_le : guardEnd p n ≤ p + 1 + n := Nat.mod_le _ _

theorem events_advance :
    (I.advance i x (op, p)).events = x.events ++ (I.step i x.state op).2.toList := by
  cases op with
  | guarded => exact (List.append_nil _).symm
  | _ => rfl

theorem length_step : (I.step i s op).2.toList.length = if op.isMemory then 1 else 0 := by
  cases op <;> rfl

/-- The operations report their accesses behind those before. -/
theorem exists_events (p : Nat) (ops : List MicroOp) (x : Execution) :
    ∃ new, (I.proceed i p ops x).events = x.events ++ new ∧
      new.length = ops.countP MicroOp.isMemory := by
  induction ops generalizing x p with
  | nil => exact ⟨[], (List.append_nil _).symm, rfl⟩
  | cons op ops ih =>
    obtain ⟨new, hnew, hlen⟩ := ih (p + 1) (I.advance i x (op, p))
    refine ⟨(I.step i x.state op).2.toList ++ new, ?_, ?_⟩
    · rw [proceed_cons, hnew, events_advance, List.append_assoc]
    · rw [List.length_append, length_step, hlen, List.countP_cons, Nat.add_comm]

theorem rejoin_eq (limit : Nat) (pending : List (Nat × State)) (s : State) :
    I.rejoin limit pending s = (pending.dropWhile fun q => q.1 ≤ limit,
      (pending.takeWhile fun q => q.1 ≤ limit).foldl (fun s q => s.join I.loops q.2) s) := by
  induction pending generalizing s with
  | nil => rfl
  | cons q pending ih =>
    rw [rejoin, List.dropWhile_cons, List.takeWhile_cons]
    split
    · rename_i hle
      rw [ih, if_pos (decide_eq_true hle), if_pos (decide_eq_true hle), List.foldl_cons]
    · rename_i hle
      rw [if_neg (by simpa using hle), if_neg (by simpa using hle)]
      rfl

/-- One operation opens at most the guard that it is. -/
theorem exists_opened (x : Execution) (op : MicroOp) (p : Nat) : ∃ opened : List (Nat × State),
    (∀ q ∈ opened, ∃ cond n, op = .guarded cond n ∧ q = (guardEnd p n, x.state)) ∧
    (I.advance i x (op, p)).pending =
      (I.rejoin (p + 1) (opened ++ x.pending) (I.step i x.state op).1).1 ∧
    (I.advance i x (op, p)).state =
      (I.rejoin (p + 1) (opened ++ x.pending) (I.step i x.state op).1).2 := by
  cases op with
  | guarded cond n =>
    exact ⟨[(guardEnd p n, x.state)], fun q hq => ⟨cond, n, rfl, List.mem_singleton.mp hq⟩, rfl,
      rfl⟩
  | _ => exact ⟨[], fun q hq => (by cases hq), rfl, rfl⟩

theorem advance_guarded {cond : Register} (h : n ≠ 0) (hend : p + 1 + n < 2 ^ 64) :
    I.advance i x (.guarded cond n, p) =
      ⟨x.state, (p + 1 + n, x.state) :: x.pending, x.events⟩ := by
  have hopen : ¬ p + 1 + n ≤ p + 1 := by omega
  unfold advance
  simp only [guardEnd_eq hend, rejoin, if_neg hopen]

/-- A relation between states and machines that the operations of an instruction keep, as long as
their accesses have `E`, and that a join keeps on either side. The states have `S`. -/
structure Simulates (I : Interpreter) (i : Instruction) (S : State → Prop) (E : MemoryEvent → Prop)
    (R : State → Machine → Prop) : Prop where
  keeps : ∀ s, ∀ op ∈ i.ops, S s → S (I.step i s op).1
  join : ∀ s t, S s → S t → S (s.join I.loops t)
  step : ∀ s x y, ∀ op ∈ i.ops, S s → R s x → op.Effect x y → (∀ e ∈ (I.step i s op).2, E e) →
    R (I.step i s op).1 y
  logs : ∀ s x, ∀ op ∈ i.ops, R s x → (∀ e ∈ (I.step i s op).2, E e) →
    List.Forall₂ MemoryEvent.At (I.step i s op).2.toList (op.record x)
  left : ∀ s t x, S s → S t → R s x → R (s.join I.loops t) x
  right : ∀ s t x, S s → S t → R t x → R (s.join I.loops t) x

end Interpreter

namespace Execution

/-- The state stands for the machine, or one does that waits to be joined with it. -/
def Covers (R : State → Machine → Prop) (x : Execution) (m : Machine) : Prop :=
  R x.state m ∨ ∃ q ∈ x.pending, R q.2 m

/-- A state for the machine waits for the position `finish`, and no guard opened since then ends
later. -/
def Awaits (R : State → Machine → Prop) (x : Execution) (finish : Nat) (m : Machine) : Prop :=
  ∃ above s below, x.pending = above ++ (finish, s) :: below ∧ (∀ q ∈ above, q.1 ≤ finish) ∧ R s m

/-- An instruction has come to some of its operations, the first of them at position `p`, with a
state for the machine. -/
structure Stands (I : Interpreter) (i : Instruction) (S : State → Prop) (E : MemoryEvent → Prop)
    (R : State → Machine → Prop) (p : Nat) (ops : List MicroOp) (x : Execution) (m : Machine) :
    Prop where
  mem : ∀ op ∈ ops, op ∈ i.ops
  fits : MicroOp.Fits p ops
  satisfies : x.Satisfies S fun _ => True
  events : ∀ e ∈ (I.proceed i p ops x).events, E e
  state : R x.state m

end Execution

namespace Interpreter.Simulates

variable {I : Interpreter} {i : Instruction} {S : State → Prop} {E : MemoryEvent → Prop}
  {R : State → Machine → Prop} {x : Execution} {op : MicroOp} {ops : List MicroOp}
  {p n finish : Nat} {q : Nat × State} {s : State} {m m' : Machine} (H : I.Simulates i S E R)
include H

theorem satisfies_advance (hx : x.Satisfies S fun _ => True) (hop : op ∈ i.ops) :
    (I.advance i x (op, p)).Satisfies S fun _ => True :=
  Interpreter.satisfies_advance H.join hx ⟨H.keeps _ op hop hx.state, fun _ _ => trivial⟩

theorem satisfies_proceed (hx : x.Satisfies S fun _ => True) (hops : ∀ op ∈ ops, op ∈ i.ops) :
    (I.proceed i p ops x).Satisfies S fun _ => True := by
  refine List.foldlRecOn (motive := Execution.Satisfies S fun _ => True) _ _ hx
    fun x hx op hop => ?_
  exact H.satisfies_advance hx (hops _ (List.fst_mem_of_mem_zipIdx hop))

theorem joins {pending : List (Nat × State)} (hs : S s) (hpending : ∀ q ∈ pending, S q.2)
    (h : R s m ∨ ∃ q ∈ pending, R q.2 m) :
    R (pending.foldl (fun s q => s.join I.loops q.2) s) m := by
  induction pending generalizing s with
  | nil =>
    rcases h with h | ⟨q, hq, -⟩
    · exact h
    · cases hq
  | cons q pending ih =>
    obtain ⟨hq, hpending⟩ := List.forall_mem_cons.mp hpending
    apply ih (H.join _ _ hs hq) hpending
    rcases h with h | ⟨q', hmem, h⟩
    · exact .inl (H.left _ _ _ hs hq h)
    · rcases List.mem_cons.mp hmem with rfl | hmem
      · exact .inl (H.right _ _ _ hs hq h)
      · exact .inr ⟨q', hmem, h⟩

/-- Guards are closed from the innermost on, and what is closed is in the state behind the
operation. -/
theorem advance_split (hx : x.Satisfies S fun _ => True) (hop : op ∈ i.ops) :
    ∃ opened : List (Nat × State),
    (∀ q ∈ opened, ∃ cond n, op = .guarded cond n ∧ q = (guardEnd p n, x.state)) ∧
    (I.advance i x (op, p)).pending = (opened ++ x.pending).dropWhile (fun q => q.1 ≤ p + 1) ∧
    ∀ m, (R (I.step i x.state op).1 m ∨
        ∃ q ∈ (opened ++ x.pending).takeWhile (fun q => q.1 ≤ p + 1), R q.2 m) →
      R (I.advance i x (op, p)).state m := by
  obtain ⟨opened, hopened, hpending, hstate⟩ := exists_opened (I := I) (i := i) x op p
  rw [rejoin_eq] at hpending hstate
  refine ⟨opened, hopened, hpending, fun m h => ?_⟩
  rw [hstate]
  refine H.joins (H.keeps _ op hop hx.state) (fun q hq => ?_) h
  rcases List.mem_append.mp (List.takeWhile_subset _ hq) with hq | hq
  · obtain ⟨cond, n, -, rfl⟩ := hopened q hq
    exact hx.state
  · exact hx.pending q hq

section
variable (hx : x.Satisfies S fun _ => True) (hop : op ∈ i.ops)
include hx hop

theorem state_advance (h : R (I.step i x.state op).1 m) : R (I.advance i x (op, p)).state m := by
  obtain ⟨opened, -, -, hstate⟩ := H.advance_split hx hop
  exact hstate m (.inl h)

theorem mem_pending_advance (hq : q ∈ x.pending) (h : R q.2 m) :
    q ∈ (I.advance i x (op, p)).pending ∨ q.1 ≤ p + 1 ∧ R (I.advance i x (op, p)).state m := by
  obtain ⟨opened, -, hpending, hstate⟩ := H.advance_split (p := p) hx hop
  have hmem := List.mem_append_right opened hq
  rw [← List.takeWhile_append_dropWhile (p := fun q => q.1 ≤ p + 1) (l := opened ++ x.pending)]
    at hmem
  rcases List.mem_append.mp hmem with hclosed | hopen
  · refine .inr ⟨of_decide_eq_true (List.mem_takeWhile_imp hclosed :), ?_⟩
    exact hstate m (.inr ⟨q, hclosed, h⟩)
  · exact .inl (hpending ▸ hopen)

theorem awaits_advance (h : x.Awaits R finish m)
    (hguard : ∀ cond skip, op = .guarded cond skip → guardEnd p skip ≤ finish) :
    (p + 1 < finish → (I.advance i x (op, p)).Awaits R finish m) ∧
      (finish ≤ p + 1 → R (I.advance i x (op, p)).state m) := by
  obtain ⟨opened, hopened, hpending, hstate⟩ := H.advance_split (p := p) hx hop
  obtain ⟨above, s, below, heq, habove, hs⟩ := h
  -- Nothing above the path outlasts it, so that closing from the top reaches it as soon as it may.
  have hle : ∀ q ∈ opened ++ above, q.1 ≤ finish := by
    intro q hq
    rcases List.mem_append.mp hq with hq | hq
    · obtain ⟨cond, skip, hop, rfl⟩ := hopened q hq
      exact hguard cond skip hop
    · exact habove q hq
  rw [heq, ← List.append_assoc] at hpending hstate
  refine ⟨fun hlt => ?_, fun hclosed => ?_⟩
  · have hkept : (I.advance i x (op, p)).pending =
        (opened ++ above).dropWhile (fun q => q.1 ≤ p + 1) ++ (finish, s) :: below := by
      rw [hpending, List.dropWhile_append, List.dropWhile_cons_of_neg (by simpa using hlt)]
      split
      · rename_i hnil
        rw [List.isEmpty_iff.mp hnil, List.nil_append]
      · rfl
    exact ⟨_, s, below, hkept, fun q hq => hle q ((List.dropWhile_suffix _).subset hq), hs⟩
  · refine hstate m (.inr ⟨(finish, s), ?_, hs⟩)
    rw [List.takeWhile_append_of_pos fun q hq => decide_eq_true ((hle q hq).trans hclosed),
      List.takeWhile_cons_of_pos (by simpa using hclosed)]
    exact List.mem_append_right _ List.mem_cons_self

end

section
variable (hx : x.Satisfies S fun _ => True) (hops : ∀ op ∈ ops, op ∈ i.ops)
include hx hops

/-- A guard that goes on to the end is met there, or joined in with the last operation. -/
theorem covers_proceed (hq : q ∈ x.pending) (h : R q.2 m) (hend : p + ops.length ≤ q.1) :
    (I.proceed i p ops x).Covers R m := by
  induction ops generalizing x p with
  | nil => exact .inr ⟨q, hq, h⟩
  | cons op ops ih =>
    obtain ⟨hop, hops⟩ := List.forall_mem_cons.mp hops
    rw [proceed_cons]
    rw [List.length_cons] at hend
    rcases H.mem_pending_advance (p := p) hx hop hq h with hq | ⟨hle, hstate⟩
    · exact ih (H.satisfies_advance hx hop) hops hq (by omega)
    · have hnil : ops = [] := List.length_eq_zero_iff.mp (by omega)
      rw [hnil]
      exact .inl hstate

/-- A guard that holds those in its operations whole is joined in where these end. -/
theorem state_of_awaits (h : x.Awaits R finish m) (hw : MicroOp.Within (n + 1) ops)
    (hlen : n < ops.length) (hfinish : finish = p + n + 1) :
    R (I.proceed i p (ops.take (n + 1)) x).state m := by
  induction n generalizing ops p x with
  | zero =>
    obtain ⟨op, ops, rfl⟩ := List.exists_cons_of_length_pos hlen
    obtain ⟨hop, -⟩ := List.forall_mem_cons.mp hops
    refine (H.awaits_advance hx hop h fun cond skip heq => ?_).2 hfinish.le
    have hskip := hw.cons.1 cond skip heq
    exact guardEnd_le.trans (by omega)
  | succ n ih =>
    obtain ⟨op, ops, rfl⟩ := List.exists_cons_of_length_pos (Nat.zero_lt_of_lt hlen)
    obtain ⟨hop, hops⟩ := List.forall_mem_cons.mp hops
    obtain ⟨hskip, hw⟩ := hw.cons
    rw [List.take_succ_cons, proceed_cons]
    refine ih (H.satisfies_advance hx hop) hops ?_ hw (Nat.lt_of_succ_lt_succ hlen) (by omega)
    refine (H.awaits_advance hx hop h fun cond skip heq => ?_).1 (by omega)
    have hle := hskip cond skip heq
    exact guardEnd_le.trans (by omega)

end

/-- One operation. -/
theorem stands_next (h : x.Stands I i S E R p (op :: ops) m) (heff : op.Effect m m') :
    (I.advance i x (op, p)).Stands I i S E R (p + 1) ops m' ∧
      List.Forall₂ MemoryEvent.At (I.step i x.state op).2.toList (op.record m) := by
  obtain ⟨hop, hmem⟩ := List.forall_mem_cons.mp h.mem
  have hevents := h.events
  rw [proceed_cons] at hevents
  have hstep : ∀ e ∈ (I.step i x.state op).2, E e := by
    obtain ⟨new, hnew, -⟩ := exists_events (I := I) (i := i) (p + 1) ops (I.advance i x (op, p))
    intro e he
    apply hevents
    rw [hnew, events_advance]
    exact List.mem_append_left _ (List.mem_append_right _ (Option.mem_toList.mpr he))
  refine ⟨⟨hmem, h.fits.2, H.satisfies_advance h.satisfies hop, hevents, ?_⟩,
    H.logs _ _ op hop h.state hstep⟩
  exact H.state_advance h.satisfies hop
    (H.step _ _ _ op hop h.satisfies.state h.state heff hstep)

/-- A guard that fails and holds those in its operations whole. -/
theorem stands_skip {cond : Register} (h : x.Stands I i S E R p (.guarded cond n :: ops) m)
    (hw : MicroOp.Within n ops) (hlen : n ≤ ops.length) :
    (I.proceed i p (.guarded cond n :: ops.take n) x).Stands I i S E R
      (p + 1 + n) (ops.drop n) m := by
  obtain ⟨hop, hmem⟩ := List.forall_mem_cons.mp h.mem
  have htake : ∀ op ∈ .guarded cond n :: ops.take n, op ∈ i.ops :=
    List.forall_mem_cons.mpr ⟨hop, fun op hop => hmem op (List.mem_of_mem_take hop)⟩
  refine ⟨fun op hop => hmem op (List.mem_of_mem_drop hop), h.fits.2.drop hlen,
    H.satisfies_proceed h.satisfies htake, proceed_guarded hlen ▸ h.events, ?_⟩
  rw [proceed_cons]
  cases n with
  | zero => exact H.state_advance h.satisfies hop h.state
  | succ n =>
    apply H.state_of_awaits (H.satisfies_advance h.satisfies hop) hmem _ hw hlen rfl
    rw [advance_guarded n.succ_ne_zero h.fits.head]
    exact ⟨[], x.state, x.pending, rfl, fun q hq => (by cases hq), h.state⟩

/-- A guard that fails and goes on to the end. -/
theorem covers_skip {cond : Register} (h : x.Stands I i S E R p (.guarded cond n :: ops) m)
    (hlen : ops.length ≤ n) : (I.proceed i p (.guarded cond n :: ops) x).Covers R m := by
  obtain ⟨hop, hmem⟩ := List.forall_mem_cons.mp h.mem
  rw [proceed_cons]
  cases n with
  | zero =>
    rw [List.eq_nil_of_length_eq_zero (Nat.le_zero.mp hlen)]
    exact .inl (H.state_advance h.satisfies hop h.state)
  | succ n =>
    apply H.covers_proceed (q := (p + 1 + (n + 1), x.state)) (H.satisfies_advance h.satisfies hop)
      hmem _ h.state (Nat.add_le_add_left hlen _)
    rw [advance_guarded n.succ_ne_zero h.fits.head]
    exact List.mem_cons_self

omit H in
theorem at_omitted {new : List MemoryEvent} (h : new.length = ops.countP MicroOp.isMemory) :
    List.Forall₂ MemoryEvent.At new (MicroOp.omitted ops) := by
  rw [MicroOp.omitted, ← h]
  clear h
  induction new with
  | nil => exact .nil
  | cons e new ih => exact .cons (fun a ha => (by cases ha)) ih

/-- What a run leaves is covered, but for temporaries, if it is wherever the run may end. -/
theorem covers_of_stops {stops : List MicroOp → Machine → Prop} {log : List (Option Nat)}
    (hstops : ∀ p ops x m, x.Stands I i S E R p ops m → stops ops m →
      ∃ y, y.Agrees m ∧ (I.proceed i p ops x).Covers R y)
    (hrun : MicroOp.Runs MicroOp.Tracked stops ops m log m') (h : x.Stands I i S E R p ops m) :
    (∃ y, y.Agrees m' ∧ (I.proceed i p ops x).Covers R y) ∧
      ∃ new, (I.proceed i p ops x).events = x.events ++ new ∧
        List.Forall₂ MemoryEvent.At new log := by
  induction hrun generalizing x p with
  | done => exact ⟨⟨_, .refl _, .inl h.state⟩, [], (List.append_nil _).symm, .nil⟩
  | next heff _ ih =>
    obtain ⟨hnext, hlog⟩ := H.stands_next h heff
    obtain ⟨hcovers, new, hnew, hat⟩ := ih hnext
    rw [proceed_cons]
    refine ⟨hcovers, _, ?_, List.rel_append hlog hat⟩
    rw [hnew, events_advance, List.append_assoc]
  | @skip cond n rest m m' log hleap hrun ih =>
    -- Either the run goes on where the guard ends, or the path waits until the instruction is over.
    rcases Nat.lt_or_ge n rest.length with hlt | hge
    · have hskip := H.stands_skip h (hleap.resolve_left hlt.not_ge) hlt.le
      obtain ⟨hcovers, new, hnew, hat⟩ := ih hskip
      obtain ⟨old, hold, hlen⟩ :=
        exists_events (I := I) (i := i) p (.guarded cond n :: rest.take n) x
      rw [proceed_guarded hlt.le]
      refine ⟨hcovers, old ++ new, ?_, List.rel_append (at_omitted hlen) hat⟩
      rw [hnew, hold, List.append_assoc]
    · rw [List.drop_eq_nil_of_le hge] at hrun
      cases hrun
      obtain ⟨new, hnew, hlen⟩ := exists_events (I := I) (i := i) p (.guarded cond n :: rest) x
      refine ⟨⟨_, .refl _, H.covers_skip h hge⟩, new, hnew, ?_⟩
      rw [List.take_of_length_le hge, List.append_nil]
      exact at_omitted hlen
  | @stop rest m hstop =>
    obtain ⟨hnext, -⟩ := H.stands_next h .cont
    obtain ⟨new, hnew, hlen⟩ := exists_events (I := I) (i := i) p (.cont :: rest) x
    refine ⟨?_, new, hnew, at_omitted hlen⟩
    rw [proceed_cons]
    exact hstops _ _ _ _ hnext hstop

theorem covers_of_runs {log : List (Option Nat)}
    (hrun : MicroOp.Runs MicroOp.Tracked MicroOp.Idle ops m log m')
    (h : x.Stands I i S E R p ops m) :
    (∃ y, y.Agrees m' ∧ (I.proceed i p ops x).Covers R y) ∧
      ∃ new, (I.proceed i p ops x).events = x.events ++ new ∧
        List.Forall₂ MemoryEvent.At new log := by
  refine H.covers_of_stops (fun p ops x m hx hidle => ?_) hrun h
  -- The interpreter goes on past the end, and one of the ways to go on changes nothing.
  obtain ⟨log, y, hidle, hagrees⟩ := hidle
  obtain ⟨⟨z, hz, hcovers⟩, -⟩ := H.covers_of_stops (fun _ _ _ _ _ h => h.elim) hidle hx
  exact ⟨z, hz.trans hagrees, hcovers⟩

/-- A whole instruction: its final state stands for a machine that agrees with the one it is run on,
and the accesses that are performed go where the interpreter takes them to go. -/
theorem execute {log : List (Option Nat)} (hs : S s) (hm : R s m) (hfits : MicroOp.Fits 0 i.ops)
    (hE : ∀ e ∈ (I.execute s i).2, E e)
    (hrun : MicroOp.Runs MicroOp.Tracked MicroOp.Idle i.ops m log m') :
    (∃ y t, y.Agrees m' ∧ R t y ∧ (I.execute s i).1 = t.clearTemporaries) ∧
      List.Forall₂ MemoryEvent.At (I.execute s i).2 log := by
  have hx : (⟨s, [], []⟩ : Execution).Satisfies S fun _ => True :=
    ⟨hs, fun q hq => (by cases hq), fun e he => (by cases he)⟩
  have hfinal := H.satisfies_proceed (p := 0) hx fun _ hop => hop
  obtain ⟨⟨y, hy, hcovers⟩, new, hnew, hat⟩ :=
    H.covers_of_runs hrun ⟨fun _ hop => hop, hfits, hx, hE, hm⟩
  refine ⟨⟨y, _, hy, H.joins hfinal.state hfinal.pending hcovers, rfl⟩, ?_⟩
  rw [List.nil_append] at hnew
  rw [← hnew] at hat
  exact hat

end Interpreter.Simulates

end MissBound
