import Mathlib
import MissBound.Platform.Bank

/-!
Memory maps hold their banks in order and apart. Bisection then finds where a bank belongs and which
bank an address falls into: every bank before the last one that starts at or below an address ends
before that one starts.
-/

namespace MissBound

section Bisection

variable {α : Type} {p : α → Bool} {before after : List α}

theorem bisect_append (hbefore : ∀ x ∈ before, p x = true) (hafter : ∀ x ∈ after, p x = false)
    (steps : Nat) : ∀ lo hi, lo ≤ before.length → before.length ≤ hi →
      hi ≤ (before ++ after).length → hi - lo ≤ steps →
      bisect p (before ++ after) steps lo hi = before.length := by
  induction steps with
  | zero =>
    intro lo hi hlo hhi _ hsteps
    rw [bisect]
    omega
  | succ steps ih =>
    intro lo hi hlo hhi hlen hsteps
    rw [bisect]
    split
    · rename_i hlt
      have hmid : lo + (hi - lo) / 2 < hi := by omega
      -- the middle element tells on which side of it the point lies
      by_cases hin : lo + (hi - lo) / 2 < before.length
      · have hpass : (before ++ after)[lo + (hi - lo) / 2]?.any p = true := by
          rw [List.getElem?_append_left hin, List.getElem?_eq_getElem hin]
          exact hbefore _ (List.getElem_mem hin)
        simp only [hpass, if_true]
        exact ih _ _ hin hhi hlen (by omega)
      · have hle : before.length ≤ lo + (hi - lo) / 2 := Nat.le_of_not_lt hin
        have hfail : (before ++ after)[lo + (hi - lo) / 2]?.any p = false := by
          rw [List.getElem?_append_right hle]
          cases hget : after[lo + (hi - lo) / 2 - before.length]? with
          | none => rfl
          | some x => exact hafter x (List.mem_of_getElem? hget)
        simp only [hfail, Bool.false_eq_true, if_false]
        exact ih _ _ hlo hle (by omega) (by omega)
    · omega

/-- Where all that `p` accepts stands first, bisection finds its end. -/
theorem partitionPoint_append (hbefore : ∀ x ∈ before, p x = true)
    (hafter : ∀ x ∈ after, p x = false) : partitionPoint p (before ++ after) = before.length := by
  apply bisect_append hbefore hafter
  · exact Nat.zero_le _
  · rw [List.length_append]
    exact Nat.le_add_right ..
  · exact Nat.le_refl _
  · omega

theorem insertIdx_length_append {x : α} :
    (before ++ after).insertIdx before.length x = before ++ x :: after := by
  induction before with
  | nil => rfl
  | cons y before ih => simp [ih]

end Bisection

namespace Bank

variable {a b : Bank} {x : Nat}

theorem contains_iff : b.contains x = true ↔ b.base ≤ x ∧ x < b.limit := by
  simp [contains]

/-- Two banks share an address, unless one ends before the other starts. -/
theorem exists_shared_iff (ha : 0 < a.size) (hb : 0 < b.size) :
    (∃ x, a.contains x = true ∧ b.contains x = true) ↔ a.base < b.limit ∧ b.base < a.limit := by
  simp only [contains_iff]
  constructor
  · rintro ⟨x, ⟨ha₁, ha₂⟩, hb₁, hb₂⟩
    exact ⟨Nat.lt_of_le_of_lt ha₁ hb₂, Nat.lt_of_le_of_lt hb₁ ha₂⟩
  · rintro ⟨h₁, h₂⟩
    refine ⟨max a.base b.base, ?_⟩
    simp only [limit] at h₁ h₂ ⊢
    omega

end Bank

namespace MemoryMap

variable {m m' : MemoryMap} {b : Bank} {address : Nat}

/-- Every bank has addresses, all within the address space, and ends before the next one starts. -/
structure Tidy (m : MemoryMap) : Prop where
  sized : ∀ b ∈ m.banks, 0 < b.size
  within : ∀ b ∈ m.banks, b.limit ≤ 2 ^ 32
  apart : m.banks.Pairwise fun a b => a.limit ≤ b.base

theorem tidy_empty : empty.Tidy := ⟨by simp [empty], by simp [empty], .nil⟩

theorem tidy_flat {latency : Nat} : (flat latency).Tidy where
  sized := by simp [flat]
  within := by simp [flat, Bank.limit]
  apart := List.pairwise_singleton ..

namespace Tidy

variable (h : m.Tidy)
include h

theorem sorted : m.banks.Pairwise fun a b => a.base < b.base := by
  refine h.apart.imp_of_mem fun {a b} ha _ hab => ?_
  have := h.sized a ha
  unfold Bank.limit at hab
  omega

theorem disjoint : m.banks.Pairwise fun a b =>
    ∀ x, ¬(a.contains x = true ∧ b.contains x = true) := by
  refine h.apart.imp fun {a b} hab x hx => ?_
  obtain ⟨ha, hb⟩ := hx.imp Bank.contains_iff.mp Bank.contains_iff.mp
  omega

/-- The banks that start below a bound, or at it as well, come first. -/
theorem exists_split {p : Bank → Bool}
    (hp : ∀ a b : Bank, a.base < b.base → p b = true → p a = true) :
    ∃ before after, m.banks = before ++ after ∧ (∀ x ∈ before, p x = true) ∧
      ∀ x ∈ after, p x = false := by
  refine ⟨m.banks.takeWhile p, m.banks.dropWhile p, List.takeWhile_append_dropWhile.symm,
    fun x hx => List.mem_takeWhile_imp hx, ?_⟩
  have hsorted := h.sorted.sublist (List.dropWhile_sublist p)
  cases hdrop : m.banks.dropWhile p with
  | nil => exact List.forall_mem_nil _
  | cons a rest =>
    rw [hdrop] at hsorted
    have ha : p a = false := by
      have := List.head?_dropWhile_not p m.banks
      simpa [hdrop] using this
    refine List.forall_mem_cons.mpr ⟨ha, fun x hx => ?_⟩
    have hlt := (List.pairwise_cons.mp hsorted).1 x hx
    exact Bool.eq_false_of_not_eq_true fun hpx =>
      Bool.false_ne_true (ha.symm.trans (hp a x hlt hpx))

/-- The place of a bank that meets no other: the banks before it end at its base or earlier, and
those behind it start at its limit or later. -/
theorem exists_place (hb : 0 < b.size)
    (hfree : ∀ o ∈ m.banks, ¬(o.base < b.limit ∧ b.base < o.limit)) :
    ∃ before after, m.banks = before ++ after ∧ (∀ o ∈ before, o.limit ≤ b.base) ∧
      (∀ o ∈ after, b.limit ≤ o.base) ∧
      m.banks.insertIdx (partitionPoint (fun o => o.base < b.base) m.banks) b =
        before ++ b :: after := by
  obtain ⟨before, after, heq, hbefore, hafter⟩ :=
    h.exists_split (p := fun o => o.base < b.base) fun x y hxy hy => by
      simp only [decide_eq_true_eq] at hy ⊢
      omega
  have hlimit : b.base < b.limit := Nat.lt_add_of_pos_right hb
  refine ⟨before, after, heq, fun o ho => ?_, fun o ho => ?_, ?_⟩
  · have hlt : o.base < b.base := of_decide_eq_true (hbefore o ho)
    have hapart := hfree o (heq ▸ List.mem_append_left _ ho)
    omega
  · have hle : ¬o.base < b.base := of_decide_eq_false (hafter o ho)
    have hmem : o ∈ m.banks := heq ▸ List.mem_append_right _ ho
    have hlimit' : o.base < o.limit := Nat.lt_add_of_pos_right (h.sized o hmem)
    have hapart := hfree o hmem
    omega
  · rw [heq, partitionPoint_append hbefore hafter, insertIdx_length_append]

/-- A bank is refused if it is empty, ends outside the address space or shares an address with
another one; otherwise it is put in its place. -/
theorem add_eq_ok : m.add b = .ok m' ↔ (0 < b.size ∧ b.limit ≤ 2 ^ 32 ∧
      ∀ o ∈ m.banks, ∀ x, ¬(o.contains x = true ∧ b.contains x = true)) ∧
    m' = ⟨m.banks.insertIdx (partitionPoint (fun o => o.base < b.base) m.banks) b⟩ := by
  unfold MemoryMap.add
  split
  · rename_i hbad
    have hbad : ¬(0 < b.size ∧ b.limit ≤ 2 ^ 32) := by omega
    exact iff_of_false (fun heq => by cases heq) fun hgood => hbad ⟨hgood.1.1, hgood.1.2.1⟩
  · rename_i hgood
    obtain ⟨hsize, hlimit⟩ : 0 < b.size ∧ b.limit ≤ 2 ^ 32 := by omega
    have hshared : ∀ o ∈ m.banks, (∃ x, o.contains x = true ∧ b.contains x = true) ↔
        (decide (o.base < b.limit) && decide (b.base < o.limit)) = true := by
      intro o ho
      rw [Bank.exists_shared_iff (h.sized o ho) hsize, Bool.and_eq_true, decide_eq_true_iff,
        decide_eq_true_iff]
    split
    · rename_i other hother
      refine iff_of_false (fun heq => by cases heq) fun hfree => ?_
      have hmem := List.mem_of_find?_eq_some hother
      have hmeet := List.find?_some hother
      obtain ⟨x, hx⟩ := (hshared other hmem).mpr hmeet
      exact hfree.1.2.2 other hmem x hx
    · rename_i hnone
      rw [Except.ok.injEq, eq_comm, iff_and_self]
      rintro -
      refine ⟨hsize, hlimit, fun o ho x hx => ?_⟩
      exact List.find?_eq_none.mp hnone o ho ((hshared o ho).mp ⟨x, hx⟩)

theorem exists_of_add (hadd : m.add b = .ok m') :
    ∃ before after, m.banks = before ++ after ∧ m'.banks = before ++ b :: after ∧
      (∀ o ∈ before, o.limit ≤ b.base) ∧ ∀ o ∈ after, b.limit ≤ o.base := by
  obtain ⟨⟨hsize, -, hfree⟩, rfl⟩ := h.add_eq_ok.mp hadd
  obtain ⟨before, after, heq, hbefore, hafter, hplace⟩ := h.exists_place hsize fun o ho hmeet => by
    obtain ⟨x, hx⟩ := (Bank.exists_shared_iff (h.sized o ho) hsize).mpr hmeet
    exact hfree o ho x hx
  exact ⟨before, after, heq, hplace, hbefore, hafter⟩

protected theorem add (hadd : m.add b = .ok m') : m'.Tidy := by
  obtain ⟨⟨hsize, hlimit, -⟩, -⟩ := h.add_eq_ok.mp hadd
  obtain ⟨before, after, heq, heq', hbefore, hafter⟩ := h.exists_of_add hadd
  have hmem : ∀ o ∈ m'.banks, o = b ∨ o ∈ m.banks := by
    intro o ho
    rw [heq'] at ho
    rw [heq]
    simpa [or_left_comm] using ho
  refine ⟨fun o ho => ?_, fun o ho => ?_, ?_⟩
  · rcases hmem o ho with rfl | ho
    · exact hsize
    · exact h.sized o ho
  · rcases hmem o ho with rfl | ho
    · exact hlimit
    · exact h.within o ho
  · have hapart := h.apart
    rw [heq, List.pairwise_append] at hapart
    obtain ⟨hleft, hright, hcross⟩ := hapart
    rw [heq', List.pairwise_append]
    refine ⟨hleft, List.pairwise_cons.mpr ⟨hafter, hright⟩, fun x hx => ?_⟩
    exact List.forall_mem_cons.mpr ⟨hbefore x hx, hcross x hx⟩

/-- The lookup finds the bank with the address, wherever it stands. -/
theorem bankAt?_eq_some :
    m.bankAt? address = some b ↔ b ∈ m.banks ∧ b.contains address = true := by
  obtain ⟨before, after, heq, hbefore, hafter⟩ :=
    h.exists_split (p := fun o => o.base ≤ address) fun x y hxy hy => by
      simp only [decide_eq_true_eq] at hy ⊢
      omega
  have htake : m.banks.take (partitionPoint (fun o => o.base ≤ address) m.banks) = before := by
    rw [heq, partitionPoint_append hbefore hafter, List.take_left]
  rw [bankAt?, htake, Option.filter_eq_some_iff]
  refine and_congr_left fun hcontains => ?_
  obtain ⟨hbase, hlimit⟩ := Bank.contains_iff.mp hcontains
  constructor
  · intro hlast
    exact heq ▸ List.mem_append_left _ (List.mem_of_getLast? hlast)
  · intro hmem
    rw [heq] at hmem
    rcases List.mem_append.mp hmem with hmem | hmem
    · -- a bank behind `b` would start at its limit, which lies beyond the address
      obtain ⟨front, back, rfl⟩ := List.append_of_mem hmem
      have hapart := h.apart
      rw [heq, List.append_assoc, List.pairwise_append, List.cons_append,
        List.pairwise_cons] at hapart
      have hback : back = [] := by
        refine List.eq_nil_iff_forall_not_mem.mpr fun o ho => ?_
        have hle := hapart.2.1.1 o (List.mem_append_left _ ho)
        have hstart : o.base ≤ address := of_decide_eq_true
          (hbefore o (List.mem_append_right _ (List.mem_cons_of_mem _ ho)))
        omega
      rw [hback, List.getLast?_append]
      rfl
    · exact absurd hbase (of_decide_eq_false (hafter b hmem))

theorem bankAt?_eq_none :
    m.bankAt? address = none ↔ ∀ b ∈ m.banks, b.contains address = false := by
  rw [Option.eq_none_iff_forall_ne_some]
  refine forall_congr' fun b => ?_
  rw [Ne, h.bankAt?_eq_some, not_and, Bool.not_eq_true]

end Tidy

/-- Adds banks one after the other; one that is refused leaves the map as it is. -/
def addEach (m : MemoryMap) (banks : List Bank) : MemoryMap :=
  banks.foldl (fun m b => (m.add b).toOption.getD m) m

theorem Tidy.addEach (banks : List Bank) : ∀ m : MemoryMap, m.Tidy → (m.addEach banks).Tidy := by
  induction banks with
  | nil => exact fun _ h => h
  | cons b banks ih =>
    intro m h
    have hstep : ((m.add b).toOption.getD m).Tidy := by
      cases hadd : m.add b with
      | error => exact h
      | ok m' => exact h.add hadd
    exact ih _ hstep

/-- However a map came about, its banks stand in order, are not empty and share no address; a
further bank is taken if and only if it fits in between; and each address is looked up in the one
bank that has it. -/
theorem lookups_exact {start : MemoryMap}
    (hstart : start = .empty ∨ ∃ latency, start = .flat latency) (banks : List Bank) :
    let m := start.addEach banks
    (m.banks.Pairwise (fun a b => a.base < b.base) ∧
      (∀ b ∈ m.banks, 0 < b.size ∧ b.limit ≤ 2 ^ 32) ∧
      m.banks.Pairwise fun a b => ∀ x, ¬(a.contains x = true ∧ b.contains x = true)) ∧
    (∀ b, ((∃ m', m.add b = .ok m') ↔ 0 < b.size ∧ b.limit ≤ 2 ^ 32 ∧
        ∀ o ∈ m.banks, ∀ x, ¬(o.contains x = true ∧ b.contains x = true)) ∧
      ∀ m', m.add b = .ok m' → m'.banks.Perm (b :: m.banks)) ∧
    ∀ address, (∀ b, m.bankAt? address = some b ↔ b ∈ m.banks ∧ b.contains address = true) ∧
      (m.bankAt? address = none ↔ ∀ b ∈ m.banks, b.contains address = false) := by
  intro m
  have h : m.Tidy := by
    refine Tidy.addEach banks start ?_
    rcases hstart with rfl | ⟨latency, rfl⟩
    · exact tidy_empty
    · exact tidy_flat
  refine ⟨⟨h.sorted, fun b hb => ⟨h.sized b hb, h.within b hb⟩, h.disjoint⟩, fun b => ⟨?_, ?_⟩,
    fun address => ⟨fun b => h.bankAt?_eq_some, h.bankAt?_eq_none⟩⟩
  · simp only [h.add_eq_ok, exists_and_left, exists_eq, and_true]
  · intro m' hadd
    obtain ⟨before, after, heq, heq', -⟩ := h.exists_of_add hadd
    rw [heq, heq']
    exact List.perm_middle

def lowBank : Bank := ⟨"low", 0x1000, 0x1000, true, 10, 12⟩

/-- Starts where `lowBank` ends and reaches to the end of the address space. -/
def highBank : Bank := ⟨"high", 0x2000, 0xFFFFE000, false, 20, 20⟩

/-- Meets the two others. -/
def middleBank : Bank := ⟨"middle", 0x1800, 0x1000, true, 1, 1⟩

theorem lookups_exact_adjacent :
    let m := empty.addEach [highBank, lowBank, middleBank]
    m.banks = [lowBank, highBank] ∧ (¬∃ m', m.add middleBank = .ok m') ∧
      m.bankAt? 0x1FFF = some lowBank ∧ m.bankAt? 0xFFFFFFFF = some highBank ∧
      m.bankAt? 0xFFF = none := by
  have hbanks : (empty.addEach [highBank, lowBank, middleBank]).banks = [lowBank, highBank] := by
    decide +kernel
  obtain ⟨-, hadd, hlookup⟩ := lookups_exact (.inl rfl) [highBank, lowBank, middleBank]
  rw [hbanks] at hadd hlookup
  refine ⟨hbanks, fun h => ?_, (hlookup _).1 _ |>.mpr (by decide),
    (hlookup _).1 _ |>.mpr (by decide), (hlookup _).2.mpr (by decide)⟩
  exact ((hadd middleBank).1.mp h).2.2 lowBank List.mem_cons_self 0x1800 (by decide)

end MemoryMap

end MissBound
