import MissBound.Proofs.Machine.Bytes
import MissBound.Proofs.Machine.Cells
import MissBound.Proofs.Machine.Coverage
import MissBound.Proofs.Machine.History

/-!
Typed loads and stores through constant addresses, against registers and bytes. A store writes as
many bytes as its type has, and a load reads as many and extends them. Known words do not tell how
wide they were stored. So a load of initial data is always right, while one that finds a known word
is right just if its type can hold that word and memory has the bytes of it that the store did not
write.
-/

namespace MissBound

/-- A machine at the start of a program. Words count where they overlap segments. -/
structure Boot.Starts (boot : Boot) (base : UInt32) (x : Machine) : Prop where
  registers : (State.ofBoot boot base).Describes x.registers
  words : ∀ w ∈ boot.words, x.bytes.Holds w.1 4 w.2
  image : ∀ s ∈ boot.image, ∀ k y, s.bytes[k]? = some y →
    (∀ w ∈ boot.words, s.base + k < w.1 ∨ w.1 + 4 ≤ s.base + k) → x.bytes (s.base + k) = y
  width : x.width = fun _ => 4

/-- The operation is a load or a store through a constant address and does not cross the end of the
address space. -/
def State.Addresses (s : State) : MicroOp → Prop
  | .load _ addr type | .store _ addr type => ∃ a, s.register addr = .const a ∧
    a.toNat + type.size ≤ 2 ^ 32
  | _ => False

/-- The interpreter beside the machine. -/
structure Tandem where
  state : State
  machine : Machine

namespace Tandem

def step (I : Interpreter) (i : Instruction) (t : Tandem) (op : MicroOp) : Tandem :=
  ⟨(I.step i t.state op).1, t.machine.transfer op⟩

/-- Runs an instruction without guards. -/
def execute (I : Interpreter) (t : Tandem) (i : Instruction) : Tandem :=
  ⟨(I.execute t.state i).1, i.ops.foldl Machine.transfer t.machine⟩

/-- A property of every operation of an instruction and of what there is before it. -/
def Through (I : Interpreter) (i : Instruction) (P : Tandem → MicroOp → Prop) :
    Tandem → List MicroOp → Prop
  | _, [] => True
  | t, op :: ops => P t op ∧ Through I i P (t.step I i op) ops

/-- A property of every operation of a straight line of instructions. -/
def Along (I : Interpreter) (P : Tandem → MicroOp → Prop) : Tandem → List Instruction → Prop
  | _, [] => True
  | t, i :: is => Through I i P t i.ops ∧ Along I P (t.execute I i) is

/-- If the interpreter takes a load for a constant, it is what the machine loads. -/
def Loads (I : Interpreter) (t : Tandem) : MicroOp → Prop
  | .load _ addr type => ∀ a v, t.state.register addr = .const a →
    I.load t.state (.const a) type = .const v → t.machine.bytes.load a.toNat type = v
  | _ => True

/-- If a load finds a known word, its type can hold the word, and the bytes that are loaded but not
written by the latest store at the address are those of the word. -/
def Suits (t : Tandem) : MicroOp → Prop
  | .load _ addr type => ∀ a v, t.state.register addr = .const a →
    t.state.memory.get? a.toNat = some (.const v) →
    type.Represents v ∧ ∀ k, t.machine.width a.toNat ≤ k → k < type.size →
      t.machine.bytes (a.toNat + k) = byteOf v k
  | _ => True

/-- What holds while all loads are right. -/
structure Consistent (image : List Segment) (t : Tandem) : Prop where
  registers : t.state.Describes t.machine.registers
  cells : ∀ a v, t.state.memory.get? a = some v →
    ∃ x, v = .const x ∧ t.machine.bytes.Holds a (t.machine.width a) x
  width_le : ∀ a, t.machine.width a ≤ 4
  image : ∀ s ∈ image, ∀ k y, s.bytes[k]? = some y → s.base + k ≤ lastAddress →
    ¬t.state.memory.Written (s.base + k) → t.machine.bytes (s.base + k) = y

end Tandem

section Start

variable {boot : Boot} {base : UInt32} {x : Machine} {b : Nat}

theorem State.get?_foldl_store {a : Nat} {v : Symbolic} (ws : List (Nat × UInt32)) (s : State)
    (h : (ws.foldl (fun s e => { s with memory := s.memory.store e.1 (.const e.2) })
      s).memory.get? a = some v) :
    s.memory.get? a = some v ∨ ∃ w ∈ ws, w.1 = a ∧ v = .const w.2 := by
  induction ws generalizing s with
  | nil => exact .inl h
  | cons w ws ih =>
    rcases ih _ h with hstore | ⟨w', hw', heq⟩
    · rw [Memory.get?_store] at hstore
      split at hstore
      · rename_i heq
        cases hstore
        exact .inr ⟨w, List.mem_cons_self, heq.symm, rfl⟩
      · split at hstore
        · cases hstore
        · exact .inl hstore
    · exact .inr ⟨w', List.mem_cons_of_mem w hw', heq⟩

/-- The known words at the start are those of the boot. -/
theorem State.exists_word_of_get? {a : Nat} {v : Symbolic}
    (h : (ofBoot boot base).memory.get? a = some v) :
    ∃ w ∈ boot.words, w.1 = a ∧ v = .const w.2 := by
  rcases get?_foldl_store boot.words _ h with hregisters | hword
  · have hmemory : (boot.registers.foldl (fun s e => s.setRegister e.1 (.const e.2))
        (blank.setRegister boot.stackPointer (.const base))).memory = .empty :=
      List.foldlRecOn (motive := fun s : State => s.memory = .empty) _ _ rfl fun _ hs _ _ => hs
    rw [hmemory] at hregisters
    cases hregisters
  · exact hword

theorem State.written_foldl_store (ws : List (Nat × UInt32)) (s : State)
    (h : s.memory.Written b ∨ ∃ w ∈ ws, w.1 ≤ b ∧ b ≤ w.1 + 3 ∧ b ≤ lastAddress) :
    (ws.foldl (fun s e => { s with memory := s.memory.store e.1 (.const e.2) })
      s).memory.Written b := by
  induction ws generalizing s with
  | nil =>
    rcases h with h | ⟨w, hw, -⟩
    · exact h
    · cases hw
  | cons w ws ih =>
    apply ih
    rcases h with h | ⟨w', hw', hb⟩
    · exact .inl (Memory.written_store.mpr (.inl h))
    · rcases List.mem_cons.mp hw' with rfl | hw'
      · exact .inl (Memory.written_store.mpr (.inr hb))
      · exact .inr ⟨w', hw', hb⟩

theorem Boot.Starts.consistent (h : boot.Starts base x) :
    Tandem.Consistent boot.image ⟨.ofBoot boot base, x⟩ where
  registers := h.registers
  cells a v hv := by
    obtain ⟨w, hw, rfl, rfl⟩ := State.exists_word_of_get? hv
    refine ⟨w.2, rfl, ?_⟩
    rw [h.width]
    exact h.words w hw
  width_le a := by
    rw [h.width]
  image s hs k y hy hlast hwritten := by
    -- The bytes of the words count as written, so that what is not written comes from a segment.
    apply h.image s hs k y hy
    intro w hw
    by_contra hin
    apply hwritten
    exact State.written_foldl_store _ _ (.inr ⟨w, hw, by omega, by omega, hlast⟩)

end Start

theorem Affine.span?_const (L : LoopForest) (a : UInt32) :
    (⟨[], a⟩ : Affine).span? L = some ⟨a.toNat, a.toNat, 0⟩ := by
  have hlt := a.toNat_lt
  simp only [span?, reach?, Option.map_some, Option.some.injEq, Span.mk.injEq]
  refine ⟨?_, ?_, rfl⟩ <;> omega

namespace Interpreter

variable {I : Interpreter} {i : Instruction} {s : State} {a : UInt32} {type : Scalar}

theorem store_const (range : Option DeclaredRange) (m : Memory) (v : Symbolic) :
    I.store range m (.const a) v = m.store a.toNat v := by
  simp only [store, Symbolic.const, Affine.span?_const, if_true]

theorem load_const_of_some {v : Symbolic} (h : s.memory.get? a.toNat = some v) :
    I.load s (.const a) type = v := by
  simp [load, Symbolic.span?, Symbolic.affine?, Symbolic.const, Affine.span?_const, h]

/-- Without a known word only the initial data can give a constant. -/
theorem load_const_of_none (h : s.memory.get? a.toNat = none) : I.load s (.const a) type = .top ∨
    s.memory.isPristine a.toNat type.size = true ∧
      ∃ v, I.boot.read? a.toNat type = some v ∧ I.load s (.const a) type = .const v := by
  simp only [load, Symbolic.span?, Symbolic.affine?, Symbolic.const, Option.bind_some,
    Affine.span?_const, h, ne_eq, not_true_eq_false, if_false]
  split
  · rename_i hpristine
    cases I.boot.read? a.toNat type with
    | none => exact .inl rfl
    | some v => exact .inr ⟨hpristine, v, rfl, rfl⟩
  · exact .inl rfl

/-- Without guards the operations are just steps, one after the other. -/
theorem foldl_advance_of_unguarded {ops : List MicroOp} {x : Execution} {p : Nat}
    (hx : x.pending = []) (hops : ∀ op ∈ ops, ∀ cond n, op ≠ .guarded cond n) :
    ((ops.zipIdx p).foldl (I.advance i) x).pending = [] ∧
    ((ops.zipIdx p).foldl (I.advance i) x).state =
    ops.foldl (fun s op => (I.step i s op).1) x.state := by
  induction ops generalizing x p with
  | nil => exact ⟨hx, rfl⟩
  | cons op ops ih =>
    obtain ⟨hop, hops⟩ := List.forall_mem_cons.mp hops
    obtain ⟨opened, hopened, hpending, hstate⟩ := I.exists_opened (i := i) x op p
    obtain rfl : opened = [] := by
      refine List.eq_nil_iff_forall_not_mem.mpr fun q hq => ?_
      obtain ⟨cond, n, rfl, -⟩ := hopened q hq
      exact hop cond n rfl
    rw [hx] at hpending hstate
    rw [List.zipIdx_cons, List.foldl_cons, List.foldl_cons,
      ← show _ = (I.step i x.state op).1 from hstate]
    exact ih hpending hops

theorem execute_of_unguarded (hops : ∀ op ∈ i.ops, ∀ cond n, op ≠ .guarded cond n) :
    (I.execute s i).1 = (i.ops.foldl (fun s op => (I.step i s op).1) s).clearTemporaries := by
  obtain ⟨hpending, hstate⟩ :=
    foldl_advance_of_unguarded (I := I) (i := i) (x := ⟨s, [], []⟩) (p := 0) rfl hops
  simp only [execute, hpending, List.foldl_nil, hstate]

end Interpreter

theorem State.Describes.clearTemporaries {s : State} {f : RegisterFile} (h : s.Describes f) :
    s.clearTemporaries.Describes f := by
  intro r
  cases hr : r.isTemporary with
  | false =>
    rw [State.register_clearTemporaries hr]
    exact h r
  | true =>
    have hfind : s.clearTemporaries.registers.find? r =
        if !r.isTemporary then s.registers.find? r else none :=
      Facts.find?_filter fun r : Register => !r.isTemporary
    rw [State.register, Facts.get, hfind, hr]
    exact .top

theorem Scalar.represents_of_size {type : Scalar} {v : UInt32} (h : type.size = 4) :
    type.Represents v := by
  have hpow : 256 ^ type.size = 2 ^ 32 := by
    rw [h]
    norm_num
  have hext : (type.extend v.toNat).toNat % 256 ^ type.size = v.toNat :=
    toNat_extend_mod (hpow ▸ v.toNat_lt)
  rw [hpow, Nat.mod_eq_of_lt (UInt32.toNat_lt _)] at hext
  rw [Represents, hpow, Nat.mod_eq_of_lt v.toNat_lt]
  exact UInt32.toNat_inj.mp hext

namespace ByteMemory

theorem read_eq_of_getElem? {c : ByteMemory} {a j n : Nat} {bytes : List UInt8}
    (h : ∀ k < n, bytes[j + k]? = some (c (a + k))) : c.read a n = (bytes.drop j).take n := by
  apply List.ext_getElem?
  intro k
  rw [read, List.getElem?_map, List.getElem?_take]
  split
  · rename_i hk
    rw [List.getElem?_range hk, List.getElem?_drop, h k hk]
    rfl
  · rename_i hk
    rw [List.getElem?_eq_none (by simpa using hk)]
    rfl

end ByteMemory

namespace Tandem

variable {I : Interpreter} {i : Instruction} {t : Tandem} {op : MicroOp}
  {addr : Register} {a : UInt32} {type : Scalar}

theorem Consistent.machine_register {image : List Segment} (h : t.Consistent image)
    (haddr : t.state.register addr = .const a) : t.machine.registers addr = a :=
  (h.registers addr).eq_of_const haddr

/-- Initial bytes that nobody has written are still there. -/
theorem Consistent.load_image {boot : Boot} {a : Nat} {v : UInt32} (h : t.Consistent boot.image)
    (hend : a + type.size ≤ 2 ^ 32) (hpristine : t.state.memory.isPristine a type.size = true)
    (hread : boot.read? a type = some v) : t.machine.bytes.load a type = v := by
  obtain ⟨s, hs, rfl⟩ := Option.map_eq_some_iff.mp hread
  have hmem := List.mem_of_find?_eq_some hs
  have hcovers := List.find?_some hs
  simp only [Segment.covers, Bool.and_eq_true, decide_eq_true_eq] at hcovers
  obtain ⟨hlo, hhi⟩ := hcovers
  rw [ByteMemory.load, ByteMemory.read_eq_of_getElem? fun k hk => ?_]
  have hlt : a - s.base + k < s.bytes.length := by omega
  have hindex : s.base + (a - s.base + k) = a + k := by omega
  have hbyte := h.image s hmem _ _ (List.getElem?_eq_getElem hlt)
  rw [hindex] at hbyte
  rw [hbyte (by rw [lastAddress]; omega)
    (Memory.not_written_of_isPristine hpristine (by omega) (by omega)),
    List.getElem?_eq_getElem hlt]

/-- A load through a constant address is unknown, or it is a known word or initial data. -/
theorem Consistent.load_cases (h : t.Consistent I.boot.image) (type : Scalar)
    (hend : a.toNat + type.size ≤ 2 ^ 32) :
    I.load t.state (.const a) type = .top ∨
    (∃ x, t.state.memory.get? a.toNat = some (.const x) ∧
      I.load t.state (.const a) type = .const x ∧
      t.machine.bytes.Holds a.toNat (t.machine.width a.toNat) x) ∨
    t.state.memory.get? a.toNat = none ∧
      I.load t.state (.const a) type = .const (t.machine.bytes.load a.toNat type) := by
  cases hcell : t.state.memory.get? a.toNat with
  | some w =>
    obtain ⟨x, rfl, hholds⟩ := h.cells _ _ hcell
    exact .inr (.inl ⟨x, rfl, Interpreter.load_const_of_some hcell, hholds⟩)
  | none =>
    rcases Interpreter.load_const_of_none (I := I) hcell with htop | ⟨hpristine, w, hread, hconst⟩
    · exact .inl htop
    · rw [h.load_image hend hpristine hread]
      exact .inr (.inr ⟨rfl, hconst⟩)

theorem Consistent.loads_iff_suits (h : t.Consistent I.boot.image) (haddr : t.state.Addresses op) :
    t.Loads I op ↔ t.Suits op := by
  cases op with
  | load dst addr type =>
    obtain ⟨a, ha, hend⟩ := haddr
    constructor
    · intro hloads a' v ha' hcell
      obtain ⟨hfits, hholds⟩ :=
        ByteMemory.load_eq_iff.mp (hloads a' v ha' (Interpreter.load_const_of_some hcell))
      exact ⟨hfits, fun k _ hk => hholds k hk⟩
    · intro hsuits a' v ha' hload
      obtain rfl : a = a' := by
        cases ha.symm.trans ha'
        rfl
      rcases h.load_cases type hend with htop | ⟨x, hcell, hconst, hholds⟩ | ⟨-, hconst⟩
      · cases htop.symm.trans hload
      · cases hconst.symm.trans hload
        obtain ⟨hfits, hrest⟩ := hsuits a v ha hcell
        refine ByteMemory.load_eq_iff.mpr ⟨hfits, fun k hk => ?_⟩
        rcases Nat.lt_or_ge k (t.machine.width a.toNat) with hlt | hge
        · exact hholds k hlt
        · exact hrest k hge hk
      · cases hconst.symm.trans hload
        rfl
  | _ => exact Iff.rfl

/-- What a load puts into its register is what the machine loads, unless it is unknown. -/
theorem Consistent.admits_load (h : t.Consistent I.boot.image) {dst : Register}
    (ha : t.state.register addr = .const a) (hend : a.toNat + type.size ≤ 2 ^ 32)
    (hloads : t.Loads I (.load dst addr type)) :
    (I.load t.state (.const a) type).Admits (t.machine.bytes.load a.toNat type) := by
  rcases h.load_cases type hend with htop | ⟨x, -, hconst, -⟩ | ⟨-, hconst⟩
  · rw [htop]
    exact .top
  · rw [hconst, hloads a x ha hconst]
    exact .const
  · rw [hconst]
    exact .const

theorem Consistent.store {image : List Segment} (h : t.Consistent image) (src : Register)
    (ha : t.state.register addr = .const a) :
    (t.step I i (.store src addr type)).Consistent image := by
  have hsize := type.size_le
  have hmem : (t.step I i (.store src addr type)).state.memory =
      t.state.memory.store a.toNat (t.state.register src) := by
    simp only [step, Interpreter.step, ha, Interpreter.store_const]
  have hreg := h.machine_register ha
  constructor
  · exact h.registers
  · intro b v hv
    simp only [step, Machine.transfer, hreg]
    rw [hmem, Memory.get?_store] at hv
    split at hv
    · rename_i heq
      subst heq
      have hsrc := h.registers src
      generalize t.state.register src = w at hv hsrc
      cases hsrc with
      | top => cases hv
      | const =>
        cases hv
        refine ⟨_, rfl, ?_⟩
        rw [Function.update_self]
        exact ByteMemory.holds_write
    · rename_i hne
      split at hv
      · cases hv
      · -- A word that survives is four bytes away, and neither it nor the store has more of them.
        obtain ⟨x, rfl, hholds⟩ := h.cells b v hv
        have hwidth := h.width_le b
        refine ⟨x, rfl, ?_⟩
        rw [Function.update_of_ne hne]
        exact hholds.write_of_disjoint (by omega)
  · intro b
    simp only [step, Machine.transfer, Function.update_apply]
    split
    · exact hsize
    · exact h.width_le b
  · intro s hs k y hy hlast hwritten
    rw [hmem, Memory.written_store] at hwritten
    simp only [step, Machine.transfer, hreg]
    rw [ByteMemory.write_of_outside (by omega)]
    exact h.image s hs k y hy hlast (fun hold => hwritten (.inl hold))

/-- One operation. -/
theorem Consistent.step (h : t.Consistent I.boot.image) (haddr : t.state.Addresses op)
    (hloads : t.Loads I op) :
    (t.step I i op).Consistent I.boot.image := by
  cases op with
  | load dst addr type =>
    obtain ⟨a, ha, hend⟩ := haddr
    have hadmits := h.admits_load ha hend hloads
    refine ⟨?_, h.cells, h.width_le, h.image⟩
    simp only [Tandem.step, Interpreter.step, Machine.transfer, ha, h.machine_register ha]
    exact h.registers.setRegister hadmits
  | store src addr type =>
    obtain ⟨a, ha, -⟩ := haddr
    exact h.store src ha
  | _ => cases haddr

theorem Consistent.clearTemporaries {image : List Segment} (h : t.Consistent image) :
    Consistent image { t with state := t.state.clearTemporaries } :=
  ⟨h.registers.clearTemporaries, h.cells, h.width_le, h.image⟩

theorem foldl_step (ops : List MicroOp) : ops.foldl (Tandem.step I i) t =
    ⟨ops.foldl (fun s op => (I.step i s op).1) t.state, ops.foldl Machine.transfer t.machine⟩ := by
  induction ops generalizing t with
  | nil => rfl
  | cons op ops ih => exact ih

theorem Through.unguarded {ops : List MicroOp}
    (h : Through I i (fun t => t.state.Addresses) t ops) :
    ∀ op ∈ ops, ∀ cond n, op ≠ .guarded cond n := by
  induction ops generalizing t with
  | nil =>
    intro op hop
    cases hop
  | cons op ops ih =>
    refine List.forall_mem_cons.mpr ⟨?_, ih h.2⟩
    rintro cond n rfl
    exact h.1

theorem execute_eq (h : Through I i (fun t => t.state.Addresses) t i.ops) :
    t.execute I i = { i.ops.foldl (Tandem.step I i) t with
      state := (i.ops.foldl (Tandem.step I i) t).state.clearTemporaries } := by
  rw [execute, Interpreter.execute_of_unguarded h.unguarded, foldl_step]

/-- All operations of an instruction. -/
theorem Consistent.through {ops : List MicroOp} (h : t.Consistent I.boot.image)
    (haddr : Through I i (fun t => t.state.Addresses) t ops) :
    (Through I i (Loads I) t ops ↔ Through I i Suits t ops) ∧
    (Through I i (Loads I) t ops → (ops.foldl (Tandem.step I i) t).Consistent I.boot.image) := by
  -- After a wrong load the two run apart, so that the equivalence needs the operations before to be
  -- right.
  induction ops generalizing t with
  | nil => exact ⟨Iff.rfl, fun _ => h⟩
  | cons op ops ih =>
    obtain ⟨hop, haddr⟩ := haddr
    have hiff := h.loads_iff_suits hop
    refine ⟨⟨fun hl => ?_, fun hs => ?_⟩, fun hl => (ih (h.step hop hl.1) haddr).2 hl.2⟩
    · exact ⟨hiff.mp hl.1, (ih (h.step hop hl.1) haddr).1.mp hl.2⟩
    · have hl := hiff.mpr hs.1
      exact ⟨hl, (ih (h.step hop hl) haddr).1.mpr hs.2⟩

theorem Consistent.execute (h : t.Consistent I.boot.image)
    (haddr : Through I i (fun t => t.state.Addresses) t i.ops)
    (hloads : Through I i (Loads I) t i.ops) : (t.execute I i).Consistent I.boot.image := by
  rw [execute_eq haddr]
  exact ((h.through haddr).2 hloads).clearTemporaries

/-- All instructions. -/
theorem Consistent.along_iff {is : List Instruction} (h : t.Consistent I.boot.image)
    (haddr : Along I (fun t => t.state.Addresses) t is) :
    Along I (Loads I) t is ↔ Along I Suits t is := by
  induction is generalizing t with
  | nil => exact Iff.rfl
  | cons i is ih =>
    obtain ⟨hi, haddr⟩ := haddr
    have hiff := (h.through hi).1
    constructor
    · rintro ⟨hl, hrest⟩
      exact ⟨hiff.mp hl, (ih (h.execute hi hl) haddr).mp hrest⟩
    · rintro ⟨hs, hrest⟩
      have hl := hiff.mpr hs
      exact ⟨hl, (ih (h.execute hi hl) haddr).mpr hrest⟩

end Tandem

section Words

/-- The operation does not move less than a word. -/
def MicroOp.MovesWords : MicroOp → Prop
  | .load _ _ type | .store _ _ type => type.size = 4
  | _ => True

variable {I : Interpreter} {i : Instruction} {x : Machine} {t : Tandem} {op : MicroOp}

theorem Machine.width_transfer (h : x.width = fun _ => 4) (hop : op.MovesWords) :
    (x.transfer op).width = fun _ => 4 := by
  cases op with
  | store src addr type =>
    simp only [transfer, h, show type.size = 4 from hop]
    exact Function.update_eq_self ..
  | _ => exact h

theorem Machine.width_foldl {ops : List MicroOp} (h : x.width = fun _ => 4)
    (hops : ∀ op ∈ ops, op.MovesWords) : (ops.foldl transfer x).width = fun _ => 4 :=
  List.foldlRecOn (motive := fun x : Machine => x.width = fun _ => 4) _ _ h
    fun _ h op hop => width_transfer h (hops op hop)

namespace Tandem

/-- A load suits a known word of its type if the latest store there was not narrower. -/
theorem suits_load {dst addr : Register} {type : Scalar}
    (h : ∀ a v, t.state.register addr = .const a → t.state.memory.get? a.toNat = some (.const v) →
      type.Represents v ∧ type.size ≤ t.machine.width a.toNat) : t.Suits (.load dst addr type) := by
  intro a v ha hcell
  obtain ⟨hfits, hwidth⟩ := h a v ha hcell
  exact ⟨hfits, fun k hk hlt => absurd (hwidth.trans hk) (Nat.not_le.mpr hlt)⟩

theorem suits_of_movesWords (h : t.machine.width = fun _ => 4)
    (hop : op.MovesWords) : t.Suits op := by
  cases op with
  | load dst addr type =>
    apply suits_load
    intro a v _ _
    rw [h]
    exact ⟨Scalar.represents_of_size hop, type.size_le⟩
  | _ => trivial

theorem through_suits {ops : List MicroOp} (h : t.machine.width = fun _ => 4)
    (hops : ∀ op ∈ ops, op.MovesWords) : Through I i Suits t ops := by
  induction ops generalizing t with
  | nil => trivial
  | cons op ops ih =>
    obtain ⟨hop, hops⟩ := List.forall_mem_cons.mp hops
    exact ⟨suits_of_movesWords h hop, ih (Machine.width_transfer h hop) hops⟩

theorem along_suits {is : List Instruction} (h : t.machine.width = fun _ => 4)
    (his : ∀ i ∈ is, ∀ op ∈ i.ops, op.MovesWords) : Along I Suits t is := by
  induction is generalizing t with
  | nil => trivial
  | cons i is ih =>
    obtain ⟨hi, his⟩ := List.forall_mem_cons.mp his
    exact ⟨through_suits h hi, ih (Machine.width_foldl h hi) his⟩

end Tandem

end Words

namespace Tandem

variable {I : Interpreter} {base : UInt32} {x : Machine} {is : List Instruction}

/-- Along a straight line of transfers through constant addresses, all constants that are loaded are
right just if each load of a known word suits it. They are right if only words are moved. -/
theorem constant_loads_exact (hx : I.boot.Starts base x)
    (haddr : Along I (fun t => t.state.Addresses) ⟨.ofBoot I.boot base, x⟩ is) :
    (Along I (Loads I) ⟨.ofBoot I.boot base, x⟩ is ↔ Along I Suits ⟨.ofBoot I.boot base, x⟩ is) ∧
    ((∀ i ∈ is, ∀ op ∈ i.ops, op.MovesWords) → Along I (Loads I) ⟨.ofBoot I.boot base, x⟩ is) := by
  have hiff := hx.consistent.along_iff haddr
  exact ⟨hiff, fun his => hiff.mpr (along_suits hx.width his)⟩

/-- Three registers, a word and a byte are known. -/
def mixedBoot : Boot where
  stackPointer := .machine 13
  registers := [(.machine 0, 0x2000), (.machine 1, 0x1ff), (.machine 4, 0x3000)]
  words := [(0x2000, 0x11223344)]
  image := [⟨0x3000, [0xff]⟩]

def mixedInterpreter : Interpreter := ⟨⟨[], []⟩, mixedBoot, 64⟩

def mixedMachine : Machine where
  registers := Function.update (Function.update (Function.update (Function.update (fun _ => 0)
    (.machine 13) 0x80000000) (.machine 0) 0x2000) (.machine 1) 0x1ff) (.machine 4) 0x3000
  bytes := ByteMemory.write (fun _ => 0xff) 0x2000 4 0x11223344
  width := fun _ => 4

def mixedStart : Tandem := ⟨.ofBoot mixedBoot 0x80000000, mixedMachine⟩

theorem starts_mixedMachine : mixedBoot.Starts 0x80000000 mixedMachine where
  registers :=
    (((State.describes_blank.setRegister .const).setRegister .const).setRegister .const).setRegister
      .const
  words := List.forall_mem_singleton.mpr ByteMemory.holds_write
  image := by
    refine List.forall_mem_singleton.mpr fun k y hy _ => ?_
    obtain ⟨hk, rfl⟩ := List.getElem?_eq_some_iff.mp hy
    obtain rfl : k = 0 := Nat.lt_one_iff.mp hk
    rfl
  width := rfl

/-- The word is loaded, a half of it is overwritten and loaded again, and the byte is loaded as a
signed one. -/
def mixedLine : List Instruction :=
  [⟨0, [.load (.machine 2) (.machine 0) .int32, .store (.machine 1) (.machine 0) .int16], none⟩,
    ⟨4, [.load (.machine 2) (.machine 0) .uint16, .load (.machine 3) (.machine 4) .int8], none⟩]

theorem constant_loads_exact_mixed :
    mixedBoot.Starts 0x80000000 mixedMachine ∧
    Along mixedInterpreter (fun t => t.state.Addresses) mixedStart mixedLine ∧
    Along mixedInterpreter (Loads mixedInterpreter) mixedStart mixedLine ∧
    (mixedLine.foldl (execute mixedInterpreter) mixedStart).state.register (.machine 2) =
      .const 0x1ff ∧
    (mixedLine.foldl (execute mixedInterpreter) mixedStart).state.register (.machine 3) =
      .const 0xffffffff := by
  have haddr : Along mixedInterpreter (fun t => t.state.Addresses) mixedStart mixedLine :=
    ⟨⟨⟨0x2000, rfl, by decide⟩, ⟨0x2000, rfl, by decide⟩, trivial⟩,
      ⟨⟨0x2000, rfl, by decide⟩, ⟨0x3000, rfl, by decide⟩, trivial⟩, trivial⟩
  have hsuits : Along mixedInterpreter Suits mixedStart mixedLine := by
    refine ⟨⟨suits_load ?_, trivial, trivial⟩, ⟨suits_load ?_, suits_load ?_, trivial⟩, trivial⟩
    · intro a v ha hcell
      cases ha
      cases hcell
      decide
    · intro a v ha hcell
      cases ha
      cases hcell
      decide
    · intro a v ha hcell
      cases ha
      cases hcell
  have hloads := (constant_loads_exact starts_mixedMachine haddr).1.mpr hsuits
  exact ⟨starts_mixedMachine, haddr, hloads, rfl, by decide +kernel⟩

/-- A byte of a register that holds more is stored, and then loaded. -/
def narrowLine : List Instruction :=
  [⟨0, [.store (.machine 1) (.machine 0) .int8], none⟩,
    ⟨4, [.load (.machine 2) (.machine 0) .uint8], none⟩]

/-- The whole register is taken for the byte, and also for the word of which only a byte was
overwritten. -/
theorem narrow_store_wrong :
    let t := mixedStart.execute mixedInterpreter ⟨0, [.store (.machine 1) (.machine 0) .int8], none⟩
    mixedBoot.Starts 0x80000000 mixedMachine ∧
    Along mixedInterpreter (fun t => t.state.Addresses) mixedStart narrowLine ∧
    ¬Along mixedInterpreter (Loads mixedInterpreter) mixedStart narrowLine ∧
    mixedInterpreter.load t.state (.const 0x2000) .uint8 = .const 0x1ff ∧
    t.machine.bytes.load 0x2000 .uint8 = 0xff ∧
    mixedInterpreter.load t.state (.const 0x2000) .int32 = .const 0x1ff ∧
    t.machine.bytes.load 0x2000 .int32 = 0x112233ff := by
  intro t
  have haddr : Along mixedInterpreter (fun t => t.state.Addresses) mixedStart narrowLine :=
    ⟨⟨⟨0x2000, rfl, by decide⟩, trivial⟩, ⟨⟨0x2000, rfl, by decide⟩, trivial⟩, trivial⟩
  have hbyte : t.machine.bytes.load 0x2000 .uint8 = 0xff := by decide
  have hload : mixedInterpreter.load t.state (.const 0x2000) .uint8 = .const 0x1ff := rfl
  refine ⟨starts_mixedMachine, haddr, fun h => ?_, hload, hbyte, rfl, by decide⟩
  have hwrong := h.2.1.1 0x2000 0x1ff rfl hload
  exact absurd (hbyte.symm.trans hwrong) (by decide)

end Tandem

end MissBound
