import MissBound.Proofs.Machine.Bytes
import MissBound.Proofs.Machine.Cells
import MissBound.Proofs.Machine.Coverage
import MissBound.Proofs.Machine.History

/-!
Known words against the bytes of a running program, while constants are stored at single addresses
and at some addresses of a grid. A known word on the grid is kept if it has the value that is
stored. Where the grid is finer than a word, a store at the next grid address shares bytes with it,
and the word stays true only if the bytes of the value repeat.
-/

namespace MissBound

/-- The addresses `base`, `base + step`, … up to `top`. -/
def OnGrid (base top step a : Nat) : Prop := ∃ k, a = base + k * step ∧ a ≤ top

/-- The bytes of a word repeat after `step` bytes. -/
def Repeats (step : Nat) (v : UInt32) : Prop := ∀ k, k + step < 4 → byteOf v (k + step) = byteOf v k

theorem repeats_mul {step : Nat} {v : UInt32} (h : Repeats step v) (n : Nat) :
    Repeats (n * step) v := by
  induction n with
  | zero =>
    intro k _
    rw [Nat.zero_mul, Nat.add_zero]
  | succ n ih =>
    intro k hk
    rw [Nat.succ_mul, ← Nat.add_assoc] at hk ⊢
    rw [h _ hk, ih _ (by omega)]

namespace ByteMemory

variable {c : ByteMemory} {a b d : Nat} {v w : UInt32} {as : List Nat}

/-- Writes a word at each of some addresses, one after the other. -/
def writeAll (c : ByteMemory) (as : List Nat) (v : UInt32) : ByteMemory :=
  as.foldl (fun c a => c.write a 4 v) c

theorem Holds.writeAll (h : c.Holds a 4 w)
    (hwrite : ∀ b ∈ as, ∀ c : ByteMemory, c.Holds a 4 w → (c.write b 4 v).Holds a 4 w) :
    (c.writeAll as v).Holds a 4 w :=
  List.foldlRecOn (motive := fun c : ByteMemory => c.Holds a 4 w) _ _ h fun c hc b hb =>
    hwrite b hb c hc

/-- A word whose bytes repeat is not changed by writing it some bytes away. -/
theorem Holds.write_of_repeats (h : c.Holds a 4 v) (hd : b = a + d ∨ a = b + d) (hr : Repeats d v) :
    (c.write b 4 v).Holds a 4 v := by
  intro k hk
  rcases Nat.lt_or_ge (a + k) b with hlt | hge
  · rw [write_of_outside (.inl hlt)]
    exact h k hk
  · rcases Nat.lt_or_ge (a + k) (b + 4) with hlt | hge'
    · obtain ⟨j, hj⟩ := Nat.exists_eq_add_of_le hge
      rw [hj, write_of_lt (by omega)]
      rcases hd with rfl | rfl
      · obtain rfl : k = j + d := by omega
        exact (hr j hk).symm
      · obtain rfl : j = k + d := by omega
        exact hr k (by omega)
    · rw [write_of_outside (.inr hge')]
      exact h k hk

end ByteMemory

namespace Memory

variable {m : Memory} {c : ByteMemory} {a base top step : Nat} {v : Symbolic}
  {x : UInt32} {as : List Nat} {L : LoopForest}

/-- Every known word is a constant whose bytes are in memory. -/
def TrueIn (m : Memory) (c : ByteMemory) : Prop :=
  ∀ a v, m.get? a = some v → ∃ x, v = .const x ∧ c.Holds a 4 x

/-- Storing `x` at addresses of the grid makes no known word false: the grid is a single address,
the bytes of `x` repeat, or no known word on the grid has the value `x`. -/
def Harmless (m : Memory) (base top step : Nat) (x : UInt32) : Prop :=
  top < base + step ∨ Repeats step x ∨ ∀ a, OnGrid base top step a → m.get? a ≠ some (.const x)

theorem onGrid_iff : (step != 0 && base ≤ a && a ≤ top && (a - base) % step == 0) = true ↔
    step ≠ 0 ∧ OnGrid base top step a := by
  simp only [Bool.and_eq_true, bne_iff_ne, decide_eq_true_eq, beq_iff_eq, and_assoc]
  refine and_congr_right fun hstep => ?_
  constructor
  · rintro ⟨hbase, htop, hmod⟩
    refine ⟨(a - base) / step, ?_, htop⟩
    rw [Nat.div_mul_cancel (Nat.dvd_of_mod_eq_zero hmod)]
    omega
  · rintro ⟨k, rfl, htop⟩
    refine ⟨Nat.le_add_right .., htop, ?_⟩
    rw [Nat.add_sub_cancel_left, Nat.mul_mod_left]

theorem get_storeRange (h : m.Spaced) (hle : base ≤ top) :
    (m.storeRange L base top step v).cells.get a =
      if overlaps a base top then
        if step != 0 && base ≤ a && a ≤ top && (a - base) % step == 0 then (m.cells.get a).join L v
        else .top
      else m.cells.get a := by
  rw [storeRange, if_neg hle.not_gt]
  refine Eq.trans (congrArg (fun es => Facts.get ⟨es⟩ a) (List.filterMap_congr fun e he => ?_))
    (Facts.get_filterMap (g := fun b w => if overlaps b base top then
        if step != 0 && base ≤ b && b ≤ top && (b - base) % step == 0 then w.join L v else .top
      else w) (fun b => ?_) h.sorted)
  · split
    · split <;> rfl
    · exact (Facts.entry?_eq_some.mpr ⟨h.known e he, rfl⟩).symm
  · simp

theorem TrueIn.plain (h : m.TrueIn c) : (m.cells.get a).Plain := by
  cases hv : m.cells.find? a with
  | none => exact .inr (Facts.get_of_find?_eq_none hv)
  | some v =>
    obtain ⟨x, rfl, -⟩ := h a v hv
    rw [Facts.get, hv]
    exact .inl rfl

/-- A known word that a store to a range leaves was known before and is out of reach, or lies on the
grid and has the value that is stored. -/
theorem get?_storeRange_cases (h : m.Spaced) (htrue : m.TrueIn c) (hle : base ≤ top)
    (hv : (m.storeRange L base top step (.const x)).get? a = some v) :
    m.get? a = some v ∧ (a + 4 ≤ base ∨ top + 4 ≤ a ∨ OnGrid base top step a ∧ v = .const x) := by
  obtain ⟨hget, hne⟩ := (Facts.find?_eq_some_iff h.storeRange.known).mp hv
  rw [get_storeRange h hle] at hget
  split at hget
  · split at hget
    · rename_i hgrid
      obtain ⟨hold, hx⟩ := Symbolic.eq_of_join_plain htrue.plain (.inl rfl) hget hne
      exact ⟨(Facts.find?_eq_some_iff h.known).mpr ⟨hold, hne⟩,
        .inr (.inr ⟨(onGrid_iff.mp hgrid).2, hx.symm⟩)⟩
    · exact absurd hget.symm hne
  · rename_i houtside
    rw [overlaps_iff] at houtside
    exact ⟨(Facts.find?_eq_some_iff h.known).mpr ⟨hget, hne⟩, by omega⟩

/-- On a grid with a step, a known word is kept if it has the value that is stored. -/
theorem get?_storeRange_of_onGrid (h : m.Spaced) (hstep : step ≠ 0) (ha : OnGrid base top step a)
    (hv : m.get? a = some (.const x)) :
    (m.storeRange L base top step (.const x)).get? a = some (.const x) := by
  obtain ⟨hget, hne⟩ := (Facts.find?_eq_some_iff h.known).mp hv
  have hbase : base ≤ a := by
    obtain ⟨k, rfl, -⟩ := ha
    exact Nat.le_add_right ..
  have htop : a ≤ top := ha.choose_spec.2
  refine (Facts.find?_eq_some_iff h.storeRange.known).mpr ⟨?_, hne⟩
  rw [get_storeRange h (hbase.trans htop), if_pos (overlaps_iff.mpr ⟨by omega, by omega⟩),
    if_pos (onGrid_iff.mpr ⟨hstep, ha⟩), hget, Symbolic.join, if_pos rfl]

theorem TrueIn.store (h : m.TrueIn c) : (m.store a (.const x)).TrueIn (c.write a 4 x) := by
  intro b v hv
  rw [get?_store] at hv
  split at hv
  · rename_i hba
    cases hv
    exact ⟨x, rfl, hba ▸ ByteMemory.holds_write⟩
  · split at hv
    · cases hv
    · obtain ⟨y, rfl, hy⟩ := h b v hv
      exact ⟨y, rfl, hy.write_of_disjoint (by omega)⟩

/-- Two addresses of a grid are as far apart as the bytes of a harmless value repeat. -/
theorem Harmless.write (hh : m.Harmless base top step x) (ha : OnGrid base top step a)
    (hv : m.get? a = some (.const x)) {b : Nat} (hb : OnGrid base top step b) (hc : c.Holds a 4 x) :
    (c.write b 4 x).Holds a 4 x := by
  -- A grid with a single address has no distance but zero, after which all bytes repeat.
  have hmul : ∀ n, top < base + step ∨ Repeats step x → n * step ≤ top - base →
      Repeats (n * step) x := by
    rintro n (hsingle | hr) hn
    · have hzero : n * step = 0 := by
        rcases Nat.eq_zero_or_pos n with rfl | hpos
        · exact Nat.zero_mul step
        · have := Nat.le_mul_of_pos_left step hpos
          omega
      rw [hzero]
      exact fun _ _ => rfl
    · exact repeats_mul hr n
  have hrepeats : top < base + step ∨ Repeats step x := by
    rcases hh with hh | hh | hh
    · exact .inl hh
    · exact .inr hh
    · exact absurd hv (hh a ha)
  obtain ⟨i, rfl, hi⟩ := ha
  obtain ⟨j, rfl, hj⟩ := hb
  rcases Nat.le_total i j with hij | hij
  · obtain ⟨n, rfl⟩ := Nat.exists_eq_add_of_le hij
    rw [Nat.add_mul] at hj
    exact hc.write_of_repeats (.inl (by rw [Nat.add_mul, Nat.add_assoc]))
      (hmul n hrepeats (by omega))
  · obtain ⟨n, rfl⟩ := Nat.exists_eq_add_of_le hij
    rw [Nat.add_mul] at hi
    exact hc.write_of_repeats (.inr (by rw [Nat.add_mul, Nat.add_assoc]))
      (hmul n hrepeats (by omega))

theorem TrueIn.storeRange (h : m.Spaced) (htrue : m.TrueIn c) (hh : m.Harmless base top step x)
    (has : ∀ a ∈ as, OnGrid base top step a) :
    (m.storeRange L base top step (.const x)).TrueIn (c.writeAll as x) := by
  intro a v hv
  rcases Nat.lt_or_ge top base with hlt | hle
  · rw [Memory.storeRange, if_pos hlt] at hv
    cases hv
  · obtain ⟨hold, hcases⟩ := get?_storeRange_cases h htrue hle hv
    obtain ⟨y, rfl, hy⟩ := htrue a v hold
    refine ⟨y, rfl, hy.writeAll fun b hb c' hc' => ?_⟩
    obtain ⟨k, rfl, hb'⟩ := has b hb
    rcases hcases with houtside | houtside | ⟨ha, heq⟩
    · exact hc'.write_of_disjoint (.inr (by omega))
    · exact hc'.write_of_disjoint (.inl (by omega))
    · cases heq
      exact hh.write ha hold (has _ hb) hc'

/-- A word that is known after a join has the same constant on both sides. -/
theorem get?_of_join {m' : Memory} {c' : ByteMemory} (h : m.Spaced) (h' : m'.Spaced)
    (htrue : m.TrueIn c) (htrue' : m'.TrueIn c') (hv : (m.join L m').get? a = some v) :
    m.get? a = some v ∧ m'.get? a = some v := by
  obtain ⟨hget, hne⟩ := (Facts.find?_eq_some_iff h.join.known).mp hv
  unfold Memory.join at hget
  split at hget
  · rename_i heq
    have hold := (Facts.find?_eq_some_iff h.known).mpr ⟨hget, hne⟩
    exact ⟨hold, heq ▸ hold⟩
  · rw [Facts.get_join h.sorted] at hget
    obtain ⟨hold, hold'⟩ := Symbolic.eq_of_join_plain htrue.plain htrue'.plain hget hne
    exact ⟨(Facts.find?_eq_some_iff h.known).mpr ⟨hold, hne⟩,
      (Facts.find?_eq_some_iff h'.known).mpr ⟨hold', hne⟩⟩

/-- Without the condition one store at the next address of the grid makes a known word false. -/
theorem exists_not_trueIn (h : m.Spaced) (hh : ¬m.Harmless base top step x) :
    ∃ b, OnGrid base top step b ∧
      ¬(m.storeRange L base top step (.const x)).TrueIn (c.writeAll [b] x) := by
  simp only [Harmless, not_or, not_lt, Repeats, not_forall, not_not] at hh
  obtain ⟨hlong, ⟨k, hk, hne⟩, a, ha, hv⟩ := hh
  have hstep : step ≠ 0 := by
    rintro rfl
    exact hne rfl
  have hkept := get?_storeRange_of_onGrid (L := L) h hstep ha hv
  obtain ⟨i, rfl, hi⟩ := ha
  rcases Nat.lt_or_ge top (base + i * step + step) with hlast | hnext
  · -- There is no address behind the word, so that there is one before it.
    obtain ⟨j, rfl⟩ : ∃ j, i = j + 1 := by
      apply Nat.exists_eq_succ_of_ne_zero
      rintro rfl
      omega
    rw [Nat.succ_mul, ← Nat.add_assoc] at hkept hi
    refine ⟨base + j * step, ⟨j, rfl, by omega⟩, fun htrue => ?_⟩
    obtain ⟨y, hy, hholds⟩ := htrue _ _ hkept
    cases hy
    have hbyte := hholds k (by omega)
    rw [ByteMemory.writeAll, List.foldl_cons, List.foldl_nil, Nat.add_assoc, Nat.add_comm step,
      ByteMemory.write_of_lt hk] at hbyte
    exact hne hbyte
  · refine ⟨base + i * step + step, ⟨i + 1, by rw [Nat.succ_mul, Nat.add_assoc], hnext⟩,
      fun htrue => ?_⟩
    obtain ⟨y, hy, hholds⟩ := htrue _ _ hkept
    cases hy
    have hbyte := hholds (k + step) hk
    rw [ByteMemory.writeAll, List.foldl_cons, List.foldl_nil, Nat.add_comm k, ← Nat.add_assoc,
      ByteMemory.write_of_lt (by omega), Nat.add_comm step] at hbyte
    exact hne hbyte.symm

namespace History

/-- Bytes that evolve with a history of constants, whose stores to ranges are among those allowed: a
store writes a word, a store to a range writes it at some addresses of the grid in any order, a
store to an unknown address may write anything, and after a join the bytes are those of one side. -/
inductive Evolves (L : LoopForest) (allows : Memory → Nat → Nat → Nat → UInt32 → Prop) :
    History → ByteMemory → Prop
  | start {c : ByteMemory} : Evolves L allows .empty c
  | store {past : History} {c : ByteMemory} (address : Nat) (x : UInt32) : Evolves L allows past c →
    Evolves L allows (.store past address (.const x)) (c.write address 4 x)
  | storeRange {past : History} {c : ByteMemory} {base top step : Nat} {x : UInt32}
      {as : List Nat} :
    Evolves L allows past c → allows (past.memory L) base top step x →
    (∀ a ∈ as, OnGrid base top step a) →
    Evolves L allows (.storeRange past base top step (.const x)) (c.writeAll as x)
  | storeAnywhere {past : History} {c : ByteMemory} (c' : ByteMemory) : Evolves L allows past c →
    Evolves L allows (.storeAnywhere past) c'
  | joinLeft {left right : History} {c c' : ByteMemory} : Evolves L allows left c →
    Evolves L allows right c' → Evolves L allows (.join left right) c
  | joinRight {left right : History} {c c' : ByteMemory} : Evolves L allows left c →
    Evolves L allows right c' → Evolves L allows (.join left right) c'

variable {H : History} {allows : Memory → Nat → Nat → Nat → UInt32 → Prop}

theorem Evolves.spaced (h : H.Evolves L allows c) : (H.memory L).Spaced := by
  induction h with
  | start => exact spaced_empty
  | store address x _ ih => exact ih.store
  | storeRange _ _ _ ih => exact ih.storeRange
  | storeAnywhere => exact spaced_storeAnywhere
  | joinLeft _ _ ih _ | joinRight _ _ ih _ => exact ih.join

theorem Evolves.trueIn (h : H.Evolves L Harmless c) : (H.memory L).TrueIn c := by
  induction h with
  | start | storeAnywhere =>
    intro a v hv
    cases hv
  | store address x _ ih => exact ih.store
  | storeRange hpast hh has ih => exact ih.storeRange hpast.spaced hh has
  | joinLeft hl hr ihl ihr =>
    intro a v hv
    exact ihl a v (get?_of_join hl.spaced hr.spaced ihl ihr hv).1
  | joinRight hl hr ihl ihr =>
    intro a v hv
    exact ihr a v (get?_of_join hl.spaced hr.spaced ihl ihr hv).2

/-- While all stores to ranges are harmless, every known word is the one in memory. A further store
to a range makes no known word false, at whatever addresses of its grid it writes, just if it is
harmless as well. -/
theorem known_words_true (h : H.Evolves L Harmless c) :
    (H.memory L).TrueIn c ∧
    ∀ base top step x, (∀ as, (∀ a ∈ as, OnGrid base top step a) →
        ((H.memory L).storeRange L base top step (.const x)).TrueIn (c.writeAll as x)) ↔
      (H.memory L).Harmless base top step x := by
  refine ⟨h.trueIn, fun base top step x => ⟨fun hall => ?_, fun hh as has => ?_⟩⟩
  · by_contra hh
    obtain ⟨b, hb, hfalse⟩ := exists_not_trueIn (L := L) (c := c) h.spaced hh
    exact hfalse (hall [b] (List.forall_mem_singleton.mpr hb))
  · exact h.trueIn.storeRange h.spaced hh has

/-- A word with two equal halves is stored at one address, and perhaps at others two bytes apart. -/
def halvesHistory : History :=
  .join (.storeRange (.store .empty 0x100 (.const 0x12341234)) 0x100 0x108 2 (.const 0x12341234))
    (.store .empty 0x100 (.const 0x12341234))

/-- The store to the range writes behind the known word first and then at the word itself. -/
def halvesBytes : ByteMemory :=
  (ByteMemory.write (fun _ => 0) 0x100 4 0x12341234).writeAll [0x102, 0x100] 0x12341234

theorem known_words_true_halves :
    halvesHistory.Evolves ⟨[], []⟩ Harmless halvesBytes ∧
    (halvesHistory.memory ⟨[], []⟩).get? 0x100 = some (.const 0x12341234) ∧
    halvesBytes.Holds 0x100 4 0x12341234 := by
  have hrepeats : Repeats 2 0x12341234 := by
    intro k hk
    obtain rfl | rfl : k = 0 ∨ k = 1 := by omega
    all_goals rfl
  have hgrid : ∀ a ∈ [0x102, 0x100], OnGrid 0x100 0x108 2 a := by
    intro a ha
    rcases List.mem_pair.mp ha with rfl | rfl
    · exact ⟨1, rfl, by omega⟩
    · exact ⟨0, rfl, by omega⟩
  have hrun : halvesHistory.Evolves ⟨[], []⟩ Harmless halvesBytes :=
    .joinLeft (.storeRange (.store _ _ .start) (.inr (.inl hrepeats)) hgrid)
      (.store _ _ (.start (c := fun _ => 0)))
  have hknown : (halvesHistory.memory ⟨[], []⟩).get? 0x100 = some (.const 0x12341234) := rfl
  obtain ⟨x, hx, hholds⟩ := (known_words_true hrun).1 0x100 _ hknown
  cases hx
  exact ⟨hrun, hknown, hholds⟩

/-- A word is stored at one address, and perhaps at the next one as well. -/
def adjacentHistory : History :=
  .storeRange (.store .empty 0x100 (.const 0x01020304)) 0x100 0x101 1 (.const 0x01020304)

/-- A store to the next address overwrites bytes of a word that is still said to be known. -/
theorem known_word_overwritten :
    ∃ c, adjacentHistory.Evolves ⟨[], []⟩
        (fun _ _ top step _ => 1 ≤ step ∧ top + 3 ≤ lastAddress) c ∧
      (adjacentHistory.memory ⟨[], []⟩).get? 0x100 = some (.const 0x01020304) ∧
      ¬c.Holds 0x100 4 0x01020304 := by
  have hgrid : ∀ a ∈ [0x101], OnGrid 0x100 0x101 1 a :=
    List.forall_mem_singleton.mpr ⟨1, rfl, le_rfl⟩
  refine ⟨_, .storeRange (.store _ _ (.start (c := fun _ => 0))) ⟨le_rfl, ?_⟩ hgrid,
    rfl, fun h => ?_⟩
  · norm_num [lastAddress]
  · have hbyte : byteOf 0x01020304 0 = byteOf 0x01020304 1 := h 1 (by omega)
    exact absurd hbyte (by decide)

end History

end Memory

end MissBound
