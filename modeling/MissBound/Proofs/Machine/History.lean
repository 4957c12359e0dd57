import MissBound.Proofs.Machine.Written

/-!
Histories of a memory: how it has come about by stores, joins and combinations. The bytes that its
intervals mark are those that some run through the history may have written, so that a byte counts
as pristine just if no such run has written it.
-/

namespace MissBound

namespace Memory

variable {m m' : Memory} {ws us : List (Nat × Nat)} {w : Nat × Nat}
  {lo hi b a base top step len : Nat} {v : Symbolic} {L : LoopForest}

/-- One of the intervals holds the byte. -/
def Marks (ws : List (Nat × Nat)) (b : Nat) : Prop := ∃ w ∈ ws, w.1 ≤ b ∧ b ≤ w.2

theorem marks_cons : Marks (w :: ws) b ↔ w.1 ≤ b ∧ b ≤ w.2 ∨ Marks ws b := by
  simp only [Marks, List.mem_cons, exists_eq_or_imp]

/-- Whether or not an interval replaces another, it adds just its bytes. -/
theorem marks_insertWritten :
    Marks (insertWritten lo hi ws) b ↔ lo ≤ b ∧ b ≤ hi ∨ Marks ws b := by
  induction ws with
  | nil => exact marks_cons
  | cons w ws ih =>
    unfold insertWritten
    split
    · exact marks_cons
    · split
      · rename_i heq
        rw [marks_cons, marks_cons, heq, le_max_iff]
        tauto
      · rw [marks_cons, marks_cons, ih]
        tauto

theorem marks_foldl : Marks (us.foldl (fun acc u => insertWritten u.1 u.2 acc) ws) b ↔
    Marks ws b ∨ Marks us b := by
  induction us generalizing ws with
  | nil =>
    refine (or_iff_left ?_).symm
    rintro ⟨w, hw, -⟩
    cases hw
  | cons u us ih =>
    rw [List.foldl_cons, ih, marks_insertWritten, marks_cons]
    tauto

/-- The byte may have been written. -/
def Written (m : Memory) (b : Nat) : Prop := m.havoc = true ∨ Marks m.written b

theorem written_markWritten :
    (m.markWritten lo hi).Written b ↔ m.Written b ∨ lo ≤ b ∧ b ≤ hi + 3 ∧ b ≤ lastAddress := by
  simp only [Written, markWritten, marks_insertWritten, le_min_iff]
  tauto

theorem written_store :
    (m.store a v).Written b ↔ m.Written b ∨ a ≤ b ∧ b ≤ a + 3 ∧ b ≤ lastAddress :=
  written_markWritten

theorem written_storeAnywhere : m.storeAnywhere.Written b := .inl rfl

theorem written_storeRange_of_lt (h : top < base) : (m.storeRange L base top step v).Written b := by
  rw [storeRange, if_pos h]
  exact written_storeAnywhere

theorem written_storeRange (h : base ≤ top) : (m.storeRange L base top step v).Written b ↔
    m.Written b ∨ base ≤ b ∧ b ≤ top + 3 ∧ b ≤ lastAddress := by
  rw [storeRange, if_neg h.not_gt]
  exact written_markWritten

theorem written_merged {cells : Facts Nat} :
    Written ⟨cells, m.mergeWritten m', m.havoc || m'.havoc⟩ b ↔ m.Written b ∨ m'.Written b := by
  simp only [Written, mergeWritten, Bool.or_eq_true]
  split
  · rename_i h
    exact iff_of_true (.inl h) (h.imp .inl .inl)
  · rw [marks_foldl]
    tauto

theorem written_join : (m.join L m').Written b ↔ m.Written b ∨ m'.Written b := by
  unfold join
  split
  · rename_i h
    rw [h, or_self]
  · exact written_merged

theorem written_combine {f : Symbolic → Symbolic → Symbolic} :
    (m.combine f m').Written b ↔ m.Written b ∨ m'.Written b :=
  written_merged

/-- Every interval has a byte. -/
def Filled (ws : List (Nat × Nat)) : Prop := ∀ w ∈ ws, w.1 ≤ w.2

theorem filled_nil : Filled [] := fun w hw => (by cases hw)

theorem Filled.insert (h : Filled ws) (hle : lo ≤ hi) : Filled (insertWritten lo hi ws) := by
  intro w hw
  rcases mem_insertWritten hw with hw | ⟨rfl, heq | ⟨w', -, heq⟩⟩
  · exact h w hw
  · exact heq ▸ hle
  · exact heq ▸ le_max_of_le_right hle

theorem Filled.mark (h : Filled m.written) (hle : lo ≤ hi) (hlo : lo ≤ lastAddress) :
    Filled (m.markWritten lo hi).written :=
  h.insert (le_min (by omega) hlo)

theorem Filled.merge (h : Filled m.written) (h' : Filled m'.written) :
    Filled (m.mergeWritten m') := by
  unfold mergeWritten
  split
  · exact filled_nil
  · exact List.foldlRecOn (motive := Filled) _ _ h fun _ hacc w hw => hacc.insert (h' w hw)

theorem Filled.storeRange (h : Filled m.written) (hbase : base ≤ lastAddress) :
    Filled (m.storeRange L base top step v).written := by
  unfold Memory.storeRange
  split
  · exact filled_nil
  · rename_i hle
    exact Filled.mark (m := ⟨_, _, _⟩) h (Nat.le_of_not_lt hle) hbase

theorem Filled.join (h : Filled m.written) (h' : Filled m'.written) :
    Filled (m.join L m').written := by
  unfold Memory.join
  split
  · exact h
  · exact h.merge h'

theorem isPristine_eq_true : m.isPristine a len = true ↔
    m.havoc = false ∧ ∀ w ∈ m.written, ¬(w.1 ≤ a + (len - 1) ∧ a ≤ w.2) := by
  rw [isPristine, Bool.and_eq_true, Bool.not_eq_true', Bool.not_eq_true', List.any_eq_false]
  simp only [Bool.and_eq_true, decide_eq_true_eq]

theorem not_written_of_isPristine (h : m.isPristine a len = true) (hlo : a ≤ b)
    (hhi : b < a + len) : ¬m.Written b := by
  obtain ⟨hhavoc, hnone⟩ := isPristine_eq_true.mp h
  rintro (htrue | ⟨w, hw, hfirst, hlast⟩)
  · exact Bool.false_ne_true (hhavoc.symm.trans htrue)
  · exact hnone w hw ⟨by omega, by omega⟩

theorem isPristine_iff (h : Filled m.written) (hlen : 1 ≤ len) :
    m.isPristine a len = true ↔ ∀ b, a ≤ b → b < a + len → ¬m.Written b := by
  refine ⟨fun hp b => not_written_of_isPristine hp, fun hnone => isPristine_eq_true.mpr ⟨?_, ?_⟩⟩
  · rw [← Bool.not_eq_true]
    exact fun htrue => hnone a le_rfl (by omega) (.inl htrue)
  · -- The interval and the range share the later of their first bytes.
    intro w hw hmeets
    have hle := h w hw
    exact hnone (max w.1 a) (le_max_right ..) (by omega) (.inr ⟨w, hw, le_max_left .., by omega⟩)

/-- How a memory has come about. -/
inductive History where
  | empty
  | store (past : History) (address : Nat) (value : Symbolic)
  | storeRange (past : History) (base top step : Nat) (value : Symbolic)
  | storeAnywhere (past : History)
  | join (left right : History)
  | combine (f : Symbolic → Symbolic → Symbolic) (left right : History)
  | map (f : Symbolic → Symbolic) (past : History)

namespace History

variable {H : History} {W : Set Nat}

def memory (L : LoopForest) : History → Memory
  | empty => .empty
  | store past address value => (past.memory L).store address value
  | storeRange past base top step value => (past.memory L).storeRange L base top step value
  | storeAnywhere past => (past.memory L).storeAnywhere
  | join left right => (left.memory L).join L (right.memory L)
  | combine f left right => (left.memory L).combine f (right.memory L)
  | map f past => (past.memory L).map f

/-- No store crosses the end of the address space, and no range begins behind it. -/
def Fits : History → Prop
  | empty => True
  | store past address _ => address + 3 ≤ lastAddress ∧ past.Fits
  | storeRange past base _ _ _ => base ≤ lastAddress ∧ past.Fits
  | storeAnywhere past | map _ past => past.Fits
  | join left right | combine _ left right => left.Fits ∧ right.Fits

/-- The sets of bytes that runs through a history may have written. -/
inductive Writes : History → Set Nat → Prop
  | empty : Writes .empty ∅
  | store {past : History} {W : Set Nat} {address : Nat} {value : Symbolic} :
    Writes past W → Writes (.store past address value) (W ∪ Set.Icc address (address + 3))
  | storeRange {past : History} {W T : Set Nat} {base top step : Nat} {value : Symbolic} :
    Writes past W → base ≤ top → T ⊆ Set.Icc base (top + 3) → (∀ b ∈ T, b ≤ lastAddress) →
    Writes (.storeRange past base top step value) (W ∪ T)
  /-- A range that ends before it begins may be anywhere. -/
  | storeWrapped {past : History} {W T : Set Nat} {base top step : Nat} {value : Symbolic} :
    Writes past W → top < base → Writes (.storeRange past base top step value) (W ∪ T)
  | storeAnywhere {past : History} {W T : Set Nat} :
    Writes past W → Writes (.storeAnywhere past) (W ∪ T)
  | join {left right : History} {V W T : Set Nat} : Writes left V → Writes right W → T ⊆ V ∪ W →
    Writes (.join left right) T
  | combine {f : Symbolic → Symbolic → Symbolic} {left right : History} {V W T : Set Nat} :
    Writes left V → Writes right W → T ⊆ V ∪ W → Writes (.combine f left right) T
  | map {f : Symbolic → Symbolic} {past : History} {W : Set Nat} :
    Writes past W → Writes (.map f past) W

theorem filled_written (hH : H.Fits) : Filled (H.memory L).written := by
  induction H with
  | empty | storeAnywhere => exact filled_nil
  | store past address value ih =>
    exact Filled.mark (m := ⟨_, _, _⟩) (ih hH.2) le_rfl (by have := hH.1; omega)
  | storeRange past base top step value ih => exact (ih hH.2).storeRange hH.1
  | join left right ihl ihr => exact (ihl hH.1).join (ihr hH.2)
  | combine f left right ihl ihr => exact (ihl hH.1).merge (ihr hH.2)
  | map f past ih => exact ih hH

theorem Writes.written (h : H.Writes W) (hH : H.Fits) (hb : b ∈ W) : (H.memory L).Written b := by
  induction h with
  | empty => cases hb
  | @store past W address value _ ih =>
    have hlast := hH.1
    apply written_store.mpr
    rcases hb with hb | ⟨hlo, hhi⟩
    · exact .inl (ih hH.2 hb)
    · exact .inr ⟨hlo, hhi, by omega⟩
  | storeRange _ hle hT hlast ih =>
    apply (written_storeRange hle).mpr
    rcases hb with hb | hb
    · exact .inl (ih hH.2 hb)
    · exact .inr ⟨(hT hb).1, (hT hb).2, hlast b hb⟩
  | storeWrapped _ hlt => exact written_storeRange_of_lt hlt
  | storeAnywhere => exact written_storeAnywhere
  | join _ _ hT ihl ihr => exact written_join.mpr ((hT hb).imp (ihl hH.1) (ihr hH.2))
  | combine _ _ hT ihl ihr => exact written_combine.mpr ((hT hb).imp (ihl hH.1) (ihr hH.2))
  | map _ ih => exact ih hH hb

/-- One run writes all the bytes that are marked. -/
theorem exists_writes (L : LoopForest) (H : History) :
    ∃ W, H.Writes W ∧ ∀ b, (H.memory L).Written b → b ∈ W := by
  induction H with
  | empty =>
    refine ⟨∅, .empty, ?_⟩
    rintro b (hfalse | ⟨w, hw, -⟩)
    · exact Bool.false_ne_true hfalse
    · cases hw
  | store past address value ih =>
    obtain ⟨W, hW, hall⟩ := ih
    refine ⟨_, hW.store, fun b hb => ?_⟩
    rcases written_store.mp hb with hb | ⟨hlo, hhi, -⟩
    · exact .inl (hall b hb)
    · exact .inr ⟨hlo, hhi⟩
  | storeRange past base top step value ih =>
    obtain ⟨W, hW, hall⟩ := ih
    rcases Nat.lt_or_ge top base with hlt | hle
    · exact ⟨_, hW.storeWrapped (T := Set.univ) hlt, fun b _ => .inr trivial⟩
    · refine ⟨_, hW.storeRange (T := {b | (base ≤ b ∧ b ≤ top + 3) ∧ b ≤ lastAddress}) hle
        (fun b hb => hb.1) (fun b hb => hb.2), fun b hb => ?_⟩
      rcases (written_storeRange hle).mp hb with hb | ⟨hlo, hhi, hlast⟩
      · exact .inl (hall b hb)
      · exact .inr ⟨⟨hlo, hhi⟩, hlast⟩
  | storeAnywhere past ih =>
    obtain ⟨W, hW, -⟩ := ih
    exact ⟨_, hW.storeAnywhere (T := Set.univ), fun b _ => .inr trivial⟩
  | join left right ihl ihr =>
    obtain ⟨V, hV, hleft⟩ := ihl
    obtain ⟨W, hW, hright⟩ := ihr
    refine ⟨_, hV.join hW subset_rfl, fun b hb => ?_⟩
    exact (written_join.mp hb).imp (hleft b) (hright b)
  | combine f left right ihl ihr =>
    obtain ⟨V, hV, hleft⟩ := ihl
    obtain ⟨W, hW, hright⟩ := ihr
    refine ⟨_, hV.combine hW subset_rfl, fun b hb => ?_⟩
    exact (written_combine.mp hb).imp (hleft b) (hright b)
  | map f past ih =>
    obtain ⟨W, hW, hall⟩ := ih
    exact ⟨W, hW.map, hall⟩

/-- Some bytes of a memory count as pristine just if no run through its history has written any of
them. -/
theorem pristine_iff_unwritten (hH : H.Fits) {address len : Nat} (hlen : 1 ≤ len) :
    (H.memory L).isPristine address len = true ↔
      ∀ W, H.Writes W → ∀ b, address ≤ b → b < address + len → b ∉ W := by
  rw [isPristine_iff (filled_written hH) hlen]
  constructor
  · intro hnone W hW b hlo hhi hb
    exact hnone b hlo hhi (hW.written hH hb)
  · intro hnone b hlo hhi hb
    obtain ⟨W, hW, hall⟩ := exists_writes L H
    exact hnone W hW b hlo hhi (hall b hb)

/-- Two paths, of which one stores a range and then its first word again. -/
def collidingHistory : History :=
  .join (.store (.store .empty 0x100 (.const 1)) 0x102 (.const 2))
    (.store (.storeRange .empty 0x200 0x210 8 (.const 0)) 0x200 (.const 3))

/-- The bytes between the stores of the two paths are pristine, and the last byte of the range is
not. -/
theorem pristine_iff_unwritten_colliding :
    collidingHistory.Fits ∧
    (collidingHistory.memory ⟨[], []⟩).isPristine 0x106 0xfa = true ∧
    (∀ W, collidingHistory.Writes W → ∀ b, 0x106 ≤ b → b < 0x200 → b ∉ W) ∧
    ∃ W, collidingHistory.Writes W ∧ 0x213 ∈ W := by
  have hfits : collidingHistory.Fits := by simp [collidingHistory, Fits, lastAddress]
  have hbetween : (collidingHistory.memory ⟨[], []⟩).isPristine 0x106 0xfa = true := rfl
  have hlast : ¬(collidingHistory.memory ⟨[], []⟩).isPristine 0x213 1 = true := Bool.false_ne_true
  refine ⟨hfits, hbetween, (pristine_iff_unwritten hfits (by omega)).mp hbetween, ?_⟩
  by_contra hnone
  apply hlast
  apply (pristine_iff_unwritten hfits le_rfl).mpr
  intro W hW b hlo hhi hb
  obtain rfl : b = 0x213 := by omega
  exact hnone ⟨W, hW, hb⟩

end History

end Memory

end MissBound
