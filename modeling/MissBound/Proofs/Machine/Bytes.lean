import MissBound.Machine.Boot
import MissBound.Proofs.Symbolic.Affine

/-!
Memory byte by byte, and the typed transfers of a running program. What a load makes of the bytes of
a word is that word only if the type of the load can hold it.
-/

namespace MissBound

/-- Byte `k` of a word, the lowest first. -/
def byteOf (v : UInt32) (k : Nat) : UInt8 := UInt8.ofNat (v.toNat / 256 ^ k)

section LittleEndian

variable {xs ys : List UInt8}

theorem littleEndian_eq_ofDigits (xs : List UInt8) :
    littleEndian xs = Nat.ofDigits 256 (xs.map UInt8.toNat) := by
  induction xs with
  | nil => rfl
  | cons x xs ih => rw [littleEndian, ih, List.map_cons, Nat.ofDigits_cons]

theorem lt_of_mem_digits (xs : List UInt8) : ∀ n ∈ xs.map UInt8.toNat, n < 256 := by
  intro n hn
  obtain ⟨x, -, rfl⟩ := List.mem_map.mp hn
  exact x.toNat_lt

theorem littleEndian_lt (xs : List UInt8) : littleEndian xs < 256 ^ xs.length := by
  rw [littleEndian_eq_ofDigits]
  simpa using Nat.ofDigits_lt_base_pow_length (by norm_num) (lt_of_mem_digits xs)

theorem eq_of_littleEndian (hlen : xs.length = ys.length) (h : littleEndian xs = littleEndian ys) :
    xs = ys := by
  rw [littleEndian_eq_ofDigits, littleEndian_eq_ofDigits] at h
  have hmap := Nat.ofDigits_inj_of_len_eq (by norm_num) (by simpa using hlen) (lt_of_mem_digits xs)
    (lt_of_mem_digits ys) h
  exact List.map_injective_iff.mpr (fun _ _ => UInt8.toNat_inj.mp) hmap

/-- The lowest bytes of a number make up its remainder. -/
theorem littleEndian_bytes (x n : Nat) :
    littleEndian ((List.range n).map fun k => UInt8.ofNat (x / 256 ^ k)) = x % 256 ^ n := by
  induction n generalizing x with
  | zero => exact (Nat.mod_one x).symm
  | succ n ih =>
    have htail : (List.range n).map ((fun k => UInt8.ofNat (x / 256 ^ k)) ∘ Nat.succ) =
        (List.range n).map fun k => UInt8.ofNat (x / 256 / 256 ^ k) := by
      apply List.map_congr_left
      intro k _
      rw [Function.comp_apply, Nat.div_div_eq_div_mul, pow_succ']
    rw [List.range_succ_eq_map, List.map_cons, List.map_map, htail, littleEndian, ih, pow_zero,
      Nat.div_one, pow_succ', Nat.mod_mul]
    rfl

end LittleEndian

namespace Scalar

variable {type : Scalar} {n : Nat} {v : UInt32}

/-- A register with this value keeps it on the way through memory. -/
def Represents (type : Scalar) (v : UInt32) : Prop := type.extend (v.toNat % 256 ^ type.size) = v

instance : Decidable (type.Represents v) := inferInstanceAs (Decidable (_ = _))

theorem size_le (type : Scalar) : type.size ≤ 4 := by
  cases type <;> decide

/-- Extending a number leaves its lowest bytes as they are. -/
theorem toNat_extend_mod (h : n < 256 ^ type.size) :
    (type.extend n).toNat % 256 ^ type.size = n := by
  cases type with
  | uint8 | uint16 | uint32 =>
    simp only [size, Nat.reducePow] at h ⊢
    exact (Nat.mod_mod_of_dvd _ (by norm_num)).trans (Nat.mod_eq_of_lt h)
  | int8 | int16 | int32 =>
    simp only [size, Nat.reducePow] at h ⊢
    simp only [extend, isSigned, if_true, size, Nat.reduceMul, Nat.reduceShiftLeft,
      toNat_word, Int.bmod_def]
    omega

end Scalar

/-- The contents of memory. Addresses go on behind the last one, so that nothing wraps around. -/
abbrev ByteMemory : Type := Nat → UInt8

namespace ByteMemory

variable {c : ByteMemory} {a b k n : Nat} {v w : UInt32} {type : Scalar}

/-- Writes the lowest `n` bytes of a word. -/
def write (c : ByteMemory) (a n : Nat) (v : UInt32) : ByteMemory :=
  fun b => if a ≤ b ∧ b < a + n then byteOf v (b - a) else c b

def read (c : ByteMemory) (a n : Nat) : List UInt8 := (List.range n).map fun k => c (a + k)

/-- What a load of the given type makes of the bytes at an address. -/
def load (c : ByteMemory) (a : Nat) (type : Scalar) : UInt32 :=
  type.extend (littleEndian (c.read a type.size))

/-- The bytes at an address are the lowest `n` bytes of a word. -/
def Holds (c : ByteMemory) (a n : Nat) (v : UInt32) : Prop := ∀ k < n, c (a + k) = byteOf v k

theorem write_of_lt (h : k < n) : c.write a n v (a + k) = byteOf v k := by
  rw [write, if_pos (by omega), Nat.add_sub_cancel_left]

theorem write_of_outside (h : b < a ∨ a + n ≤ b) : c.write a n v b = c b :=
  if_neg (by omega)

theorem holds_write : (c.write a n v).Holds a n v := fun _ => write_of_lt

theorem Holds.write_of_disjoint (h : c.Holds a n v) (hdisjoint : b + k ≤ a ∨ a + n ≤ b) :
    (c.write b k w).Holds a n v := by
  intro j hj
  rw [write_of_outside (by omega)]
  exact h j hj

theorem read_eq_iff : c.read a n = (List.range n).map (byteOf v) ↔ c.Holds a n v := by
  rw [read, List.map_inj_left]
  simp only [List.mem_range]
  rfl

/-- A load yields a word just if its type can hold the word and the bytes are there. -/
theorem load_eq_iff : c.load a type = v ↔ type.Represents v ∧ c.Holds a type.size v := by
  have hbytes : littleEndian ((List.range type.size).map (byteOf v)) = v.toNat % 256 ^ type.size :=
    littleEndian_bytes ..
  have hlength : (c.read a type.size).length = type.size := by
    rw [read, List.length_map, List.length_range]
  constructor
  · rintro rfl
    have hmod : (c.load a type).toNat % 256 ^ type.size = littleEndian (c.read a type.size) := by
      apply Scalar.toNat_extend_mod
      simpa only [hlength] using littleEndian_lt (c.read a type.size)
    refine ⟨?_, read_eq_iff.mp (eq_of_littleEndian ?_ ?_)⟩
    · rw [Scalar.Represents, hmod]
      rfl
    · rw [hlength, List.length_map, List.length_range]
    · rw [hbytes, hmod]
  · rintro ⟨hfits, hholds⟩
    rw [load, read_eq_iff.mpr hholds, hbytes]
    exact hfits

end ByteMemory

end MissBound
