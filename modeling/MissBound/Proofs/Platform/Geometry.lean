import Mathlib
import MissBound.Platform.Geometry

/-!
The parts of an address, by division.
-/

namespace MissBound

namespace Geometry

variable (g : Geometry) {x y z : Nat}

theorem blockSize_eq : g.blockSize = 2 ^ g.blockBits := Nat.one_shiftLeft _

theorem setCount_eq : g.setCount = 2 ^ g.setBits := Nat.one_shiftLeft _

theorem blockSize_pos : 0 < g.blockSize := g.blockSize_eq ▸ Nat.two_pow_pos _

theorem setCount_pos : 0 < g.setCount := g.setCount_eq ▸ Nat.two_pow_pos _

theorem block_eq : g.block x = x / g.blockSize := by
  rw [block, Nat.shiftRight_eq_div_pow, blockSize_eq]

theorem set_eq : g.set x = x / g.blockSize % g.setCount := by rw [set, block_eq]

theorem set_eq_of_block_eq (h : g.block x = g.block y) : g.set x = g.set y := by
  rw [set, h, ← set]

theorem set_lt : g.set x < g.setCount := Nat.mod_lt _ g.setCount_pos

theorem round_eq : g.round x = x / g.blockSize * g.blockSize := by
  rw [round, Nat.shiftLeft_eq, block_eq, blockSize_eq]

theorem round_le : g.round x ≤ x := by
  rw [round_eq]
  exact Nat.div_mul_le_self ..

theorem block_round : g.block (g.round x) = g.block x := by
  rw [block_eq, round_eq, Nat.mul_div_cancel _ g.blockSize_pos, block_eq]

theorem block_mono (h : x ≤ y) : g.block x ≤ g.block y := by
  rw [block_eq, block_eq]
  exact Nat.div_le_div_right h

theorem block_eq_of_le_of_le (h₁ : x ≤ y) (h₂ : y ≤ z) (h : g.block x = g.block z) :
    g.block y = g.block x :=
  Nat.le_antisymm (h ▸ g.block_mono h₂) (g.block_mono h₁)

/-- Addresses of one block lie closer together than its size. -/
theorem lt_add_of_block_eq (h : g.block x = g.block y) : x < y + g.blockSize := by
  rw [block_eq, block_eq] at h
  calc
    x < (x / g.blockSize + 1) * g.blockSize := by
      rw [Nat.mul_comm]
      exact Nat.lt_mul_div_succ x g.blockSize_pos
    _ = y / g.blockSize * g.blockSize + g.blockSize := by rw [h, Nat.succ_mul]
    _ ≤ y + g.blockSize := Nat.add_le_add_right (Nat.div_mul_le_self ..) _

/-- The blocks of all sets together divide the address space. -/
theorem mul_dvd : g.blockSize * g.setCount ∣ 2 ^ 32 := by
  rw [blockSize_eq, setCount_eq, ← Nat.pow_add]
  exact Nat.pow_dvd_pow 2 (Nat.le_of_lt g.bits_lt)

/-- Addresses that differ by whole rounds through all sets share a set. -/
theorem set_congr (h : x % (g.blockSize * g.setCount) = y % (g.blockSize * g.setCount)) :
    g.set x = g.set y := by
  have hmod : ∀ z, g.set z = z % (g.blockSize * g.setCount) / g.blockSize := fun z => by
    rw [set_eq, Nat.mod_mul_right_div_self]
  rw [hmod, hmod, h]

/-- At least two blocks divide the address space. -/
theorem two_mul_blockSize_le : 2 * g.blockSize ≤ 2 ^ 32 := by
  have hlt := g.bits_lt
  rw [blockSize_eq, ← Nat.pow_succ']
  exact Nat.pow_le_pow_right (by decide) (by omega)

section
variable {x y a : Int}

theorem pow_eq_mul : (2 : Int) ^ 32 = g.blockSize * 2 ^ (32 - g.blockBits) := by
  have hlt := g.bits_lt
  rw [blockSize_eq, Nat.cast_pow, Nat.cast_ofNat, ← pow_add, Nat.add_sub_of_le (by omega)]

/-- The block of an address that wraps at the end of the address space. -/
theorem natCast_block_emod : (g.block (x % 2 ^ 32).toNat : Int) =
    x / g.blockSize % 2 ^ (32 - g.blockBits) := by
  rw [block_eq, Int.natCast_ediv, Int.toNat_of_nonneg (Int.emod_nonneg _ (by decide)), pow_eq_mul g,
    Int.emod_def, Int.mul_assoc, Int.sub_mul_ediv_left _ _ (by simpa using g.blockSize_pos.ne'),
    ← Int.ediv_ediv_of_nonneg (Int.natCast_nonneg _), ← Int.emod_def]

/-- Whole blocks move addresses of one block to addresses of one block. -/
theorem block_add_blocks (ha : (g.blockSize : Int) ∣ a)
    (h : g.block (x % 2 ^ 32).toNat = g.block (y % 2 ^ 32).toNat) :
    g.block ((x + a) % 2 ^ 32).toNat = g.block ((y + a) % 2 ^ 32).toNat := by
  have hne : (g.blockSize : Int) ≠ 0 := by simpa using g.blockSize_pos.ne'
  have hmod : x / g.blockSize ≡ y / g.blockSize [ZMOD 2 ^ (32 - g.blockBits)] := by
    have h' := congrArg (Nat.cast (R := Int)) h
    rwa [natCast_block_emod, natCast_block_emod] at h'
  obtain ⟨m, rfl⟩ := ha
  apply Int.natCast_inj.mp
  rw [natCast_block_emod, natCast_block_emod, Int.add_mul_ediv_left _ _ hne,
    Int.add_mul_ediv_left _ _ hne]
  exact hmod.add_right m

end

end Geometry

/-- One set of two lines of sixteen bytes. -/
def twoLines : Geometry := ⟨4, 0, 2, .lru, by decide, by decide, by decide⟩

end MissBound
