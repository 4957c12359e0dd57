import MissBound.Proofs.Machine.Access
import MissBound.Proofs.Machine.Transfer

/-!
Code that accesses constant addresses, run beside the interpreter. A layout says where words may
become known and how many of their bytes are sure to be in memory. As long as all accesses agree
with it, whatever guards fail, the interpreter describes the registers and the known words of the
machine, and every access that is performed goes where the interpreter takes it to go.
-/

namespace MissBound

theorem Symbolic.Proper.plain {L : LoopForest} {v : Symbolic} (h : v.Proper L fun _ => False) :
    v.Plain := by
  cases h with
  | top => exact .inr rfl
  | @affine e h =>
    obtain ⟨terms, c⟩ := e
    obtain rfl : terms = [] :=
      List.eq_nil_iff_forall_not_mem.mpr fun t ht => (h.terms t ht).scope
    exact .inl rfl

theorem State.Proper.toPlain {L : LoopForest} {s : State} (h : s.Proper L fun _ => False) :
    s.Plain :=
  ⟨h.registers.sorted, fun _ => h.register.plain⟩

theorem Memory.get?_join {L : LoopForest} {m m' : Memory} {a : Nat} {v : Symbolic}
    (h : m.Proper L fun _ => False) (h' : m'.Proper L fun _ => False)
    (hv : (m.join L m').get? a = some v) : m.get? a = some v ∧ m'.get? a = some v := by
  unfold join at hv
  split at hv
  · rename_i heq
    exact ⟨hv, heq ▸ hv⟩
  · obtain ⟨hget, hne⟩ := (Facts.find?_eq_some_iff (Facts.Proper.join h h').known).mp hv
    rw [Facts.get_join h.sorted] at hget
    obtain ⟨hl, hr⟩ :=
      Symbolic.eq_of_join_plain (Facts.Proper.get h).plain (Facts.Proper.get h').plain hget hne
    exact ⟨(Facts.find?_eq_some_iff h.known).mpr ⟨hl, hne⟩,
      (Facts.find?_eq_some_iff h'.known).mpr ⟨hr, hne⟩⟩

namespace Tandem

variable {t : Tandem} {image : List Segment}

/-- Less may be sure than was written. -/
theorem Consistent.narrow (h : t.Consistent image) {width : Nat → Nat}
    (hw : ∀ a, width a ≤ t.machine.width a) :
    Consistent image ⟨t.state, { t.machine with width }⟩ where
  registers := h.registers
  cells a v hv := by
    obtain ⟨x, rfl, hholds⟩ := h.cells a v hv
    exact ⟨x, rfl, fun k hk => hholds k (Nat.lt_of_lt_of_le hk (hw a))⟩
  width_le a := (hw a).trans (h.width_le a)
  image := h.image

section
variable {L : LoopForest} {s s' : State} {x : Machine} (hs : s.Proper L fun _ => False)
  (hs' : s'.Proper L fun _ => False)
include hs hs'

theorem Consistent.join_left (h : Consistent image ⟨s, x⟩) :
    Consistent image ⟨s.join L s', x⟩ where
  registers := h.registers.join_left hs.toPlain hs'.toPlain
  cells a v hv := h.cells a v (Memory.get?_join hs.memory hs'.memory hv).1
  width_le := h.width_le
  image g hg k y hy hlast hwritten := h.image g hg k y hy hlast fun hold =>
    hwritten (Memory.written_join.mpr (.inl hold))

theorem Consistent.join_right (h : Consistent image ⟨s', x⟩) :
    Consistent image ⟨s.join L s', x⟩ where
  registers := h.registers.join_right hs.toPlain
  cells a v hv := h.cells a v (Memory.get?_join hs.memory hs'.memory hv).2
  width_le := h.width_le
  image g hg k y hy hlast hwritten := h.image g hg k y hy hlast fun hold =>
    hwritten (Memory.written_join.mpr (.inr hold))

end

end Tandem

/-- Where words may be known, and how many of their bytes are sure. -/
structure Layout where
  known : Nat → Prop
  width : Nat → Nat
  width_le : ∀ a, width a ≤ 4

namespace Layout

/-- An access of a constant address that agrees with the layout. Where a word may be known, only
whole words are loaded, and all of their bytes are sure. -/
def Allows (K : Layout) (e : MemoryEvent) : Prop :=
  ∃ c, e.address = .const c ∧
    match e.kind with
    | .load => c.toNat + e.type.size ≤ 2 ^ 32 ∧
      (K.known c.toNat → e.type.size = 4 ∧ K.width c.toNat = 4)
    | .store => K.known c.toNat ∧ K.width c.toNat ≤ e.type.size

/-- The state describes the registers of a machine, and of its known words the bytes that are
sure. -/
structure Models (K : Layout) (image : List Segment) (s : State) (x : Machine) : Prop where
  consistent : Tandem.Consistent image ⟨s, { x with width := K.width }⟩
  known : ∀ a v, s.memory.get? a = some v → K.known a

variable {K : Layout} {I : Interpreter} {i : Instruction} {s t : State} {op : MicroOp}
  {x y : Machine} {image : List Segment}

theorem models_ofBoot {boot : Boot} {base : UInt32} (h : boot.Starts base x)
    (hwords : ∀ w ∈ boot.words, K.known w.1) : K.Models boot.image (.ofBoot boot base) x where
  consistent := by
    apply h.consistent.narrow
    intro a
    rw [h.width]
    exact K.width_le a
  known a v hv := by
    obtain ⟨w, hw, rfl, -⟩ := State.exists_word_of_get? hv
    exact hwords w hw

/-- Temporaries do not matter any more once they are dropped. -/
theorem Models.clearTemporaries (h : K.Models image s x) (hxy : x.Agrees y) :
    K.Models image s.clearTemporaries y := by
  obtain ⟨⟨hregisters, hcells, hwidth, himage⟩, hknown⟩ := h
  rw [hxy.bytes] at hcells himage
  refine ⟨⟨fun r => ?_, hcells, hwidth, himage⟩, hknown⟩
  have hclear := hregisters.clearTemporaries r
  cases r with
  | machine n => exact hxy.registers n ▸ hclear
  | temporary n =>
    have htop : s.clearTemporaries.register (.temporary n) = .top := by
      refine Facts.get_of_forall_ne fun e he heq => ?_
      have hkept := (List.mem_filter.mp he).2
      rw [← Std.LawfulEqCmp.eq_of_compare heq] at hkept
      cases hkept
    rw [htop]
    exact .top

section
variable (h : K.Models I.boot.image s x)
include h

/-- An operation that accesses no memory. -/
theorem Models.step_other (hop : op.isMemory = false) (heff : op.Effect x y) :
    K.Models I.boot.image (I.step i s op).1 y := by
  have hmemory : (I.step i s op).1.memory = s.memory := by
    cases op with
    | load | store => cases hop
    | _ => rfl
  have hbytes : y.bytes = x.bytes := by
    cases heff with
    | load | store => cases hop
    | _ => rfl
  obtain ⟨⟨hregisters, hcells, hwidth, himage⟩, hknown⟩ := h
  rw [← hmemory] at hcells himage hknown
  rw [← hbytes] at hcells himage
  have hdescribes : (I.step i s op).1.Describes y.registers :=
    Interpreter.describes_step (m := x) hop hregisters heff
  exact ⟨⟨hdescribes, hcells, hwidth, himage⟩, hknown⟩

theorem Models.step_load {dst addr : Register} {type : Scalar}
    (hallows : ∀ e ∈ (I.step i s (.load dst addr type)).2, K.Allows e) :
    K.Models I.boot.image (I.step i s (.load dst addr type)).1
      (x.transfer (.load dst addr type)) := by
  obtain ⟨c, hc, hend, hwhole⟩ := hallows _ rfl
  have haddr : State.Addresses s (.load dst addr type) := ⟨c, hc, hend⟩
  have hsuits : Tandem.Suits ⟨s, { x with width := K.width }⟩ (.load dst addr type) := by
    apply Tandem.suits_load
    intro a v ha hcell
    cases hc.symm.trans ha
    obtain ⟨hsize, hwidth⟩ := hwhole (h.known _ _ hcell)
    exact ⟨Scalar.represents_of_size hsize, hsize.trans_le hwidth.ge⟩
  exact ⟨h.consistent.step haddr ((h.consistent.loads_iff_suits haddr).mpr hsuits), h.known⟩

theorem Models.step_store {src addr : Register} {type : Scalar}
    (hallows : ∀ e ∈ (I.step i s (.store src addr type)).2, K.Allows e) :
    K.Models I.boot.image (I.step i s (.store src addr type)).1
      (x.transfer (.store src addr type)) := by
  obtain ⟨c, hc, hknown, hwidth⟩ := hallows _ rfl
  replace hc : s.register addr = .const c := hc
  have hreg : x.registers addr = c := h.consistent.machine_register hc
  constructor
  · refine (h.consistent.store src hc).narrow fun a => ?_
    simp only [Tandem.step, Machine.transfer, hreg, Function.update_apply]
    split
    · rename_i heq
      exact heq ▸ hwidth
    · exact Nat.le_refl _
  · intro a v hv
    simp only [Interpreter.step, hc, Interpreter.store_const, Memory.get?_store] at hv
    split at hv
    · rename_i heq
      exact heq ▸ hknown
    · split at hv
      · cases hv
      · exact h.known a v hv

theorem Models.at_record (hallows : ∀ e ∈ (I.step i s op).2, K.Allows e) :
    List.Forall₂ MemoryEvent.At (I.step i s op).2.toList (op.record x) := by
  cases op with
  | load _ addr _ | store _ addr _ =>
    obtain ⟨c, hc, -⟩ := hallows _ rfl
    replace hc : s.register addr = .const c := hc
    have hreg : x.registers addr = c := h.consistent.machine_register hc
    refine .cons (fun a ha => ⟨c, hc, ?_⟩) .nil
    cases ha
    rw [hreg]
  | _ => exact .nil

end

section
variable {L : LoopForest} (hs : s.Proper L fun _ => False) (ht : t.Proper L fun _ => False)
include hs ht

theorem Models.join_left (h : K.Models image s x) : K.Models image (s.join L t) x where
  consistent := h.consistent.join_left hs ht
  known a v hv := h.known a v (Memory.get?_join hs.memory ht.memory hv).1

theorem Models.join_right (h : K.Models image t x) : K.Models image (s.join L t) x where
  consistent := h.consistent.join_right hs ht
  known a v hv := h.known a v (Memory.get?_join hs.memory ht.memory hv).2

end

theorem simulates (K : Layout) : I.Simulates i (State.Proper I.loops fun _ => False) K.Allows
    (K.Models I.boot.image) where
  keeps s op _ hs := (Interpreter.keeps_proper.step s op hs).1
  join s t hs ht := hs.join ht
  step s x y op _ _ h heff hallows := by
    cases hop : op.isMemory with
    | false => exact h.step_other hop heff
    | true =>
      cases heff with
      | load => exact h.step_load hallows
      | store => exact h.step_store hallows
      | _ => cases hop
  logs s x op _ h hallows := h.at_record hallows
  left s t x hs ht h := h.join_left hs ht
  right s t x hs ht h := h.join_right hs ht

theorem Models.execute (hs : s.Proper I.loops fun _ => False) (h : K.Models I.boot.image s x)
    (hi : i.Orderly) (hallows : ∀ e ∈ (I.execute s i).2, K.Allows e) {log : List (Option Nat)}
    (hrun : MicroOp.FreeRuns i.ops x log y) {y' : Machine} (hy : y.Agrees y') :
    K.Models I.boot.image (I.execute s i).1 y' ∧
      List.Forall₂ MemoryEvent.At (I.execute s i).2 log := by
  obtain ⟨⟨z, t, hz, hmodels, heq⟩, hat⟩ :=
    K.simulates.execute hs h hi.fits hallows (hrun.tracked hi.nested)
  rw [heq]
  exact ⟨hmodels.clearTemporaries (hz.trans hy), hat⟩

/-- A run of a block, beside the interpreter. -/
theorem Models.executeBlock {code : Block} (hs : s.Proper I.loops fun _ => False)
    (h : K.Models I.boot.image s x) (hcode : ∀ i ∈ code.instructions, i.Orderly)
    (hallows : ∀ e ∈ (I.executeBlock s code).2, K.Allows e) {log : List (Option Nat)}
    (hrun : Instruction.Runs code.instructions x log y) :
    K.Models I.boot.image (I.executeBlock s code).1 y ∧
      List.Forall₂ MemoryEvent.At (I.executeBlock s code).2 log := by
  obtain ⟨address, is⟩ := code
  replace hrun : Instruction.Runs is x log y := hrun
  induction hrun generalizing s with
  | done => exact ⟨h, .nil⟩
  | @next i rest x x' y z log later hi hxy _ ih =>
    rw [Interpreter.executeBlock_cons] at hallows ⊢
    obtain ⟨horderly, hrest⟩ := List.forall_mem_cons.mp hcode
    obtain ⟨hnow, hlater⟩ := List.forall_mem_append.mp hallows
    obtain ⟨hmodels, hat⟩ := h.execute hs horderly hnow hi hxy
    have hproper := (Interpreter.keeps_proper (i := i)).execute hs |>.1
    obtain ⟨hend, hat'⟩ := ih hproper hmodels hrest hlater
    exact ⟨hend, List.rel_append hat hat'⟩

end Layout

end MissBound
