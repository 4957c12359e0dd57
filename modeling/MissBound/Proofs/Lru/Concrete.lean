import Mathlib
import MissBound.Lru.Age
import MissBound.Platform.Geometry

/-!
The cache as the hardware keeps it: each set holds the memory blocks used last. The bounds of the
analysis speak of how many other blocks of a set were used since a block was.
-/

namespace MissBound

/-- A cache set of `ways` lines: the memory blocks in it, the one used last first. -/
structure LruSet (ways : Nat) where
  blocks : List Nat
  nodup : blocks.Nodup
  length_le : blocks.length ≤ ways

namespace LruSet

variable {ways : Nat} {s : LruSet ways} {b m n x : Nat}

/-- The set after a use of `b`, which drops the oldest block if there is no room. -/
def touch (s : LruSet ways) (b : Nat) : LruSet ways where
  blocks := (b :: s.blocks.erase b).take ways
  nodup := List.Nodup.sublist (List.take_sublist _ _)
    (List.nodup_cons.mpr ⟨s.nodup.not_mem_erase, s.nodup.erase b⟩)
  length_le := List.length_take_le _ _

def empty : LruSet ways := ⟨[], List.nodup_nil, Nat.zero_le ways⟩

/-- At most `n` other blocks were used since `x`, which is in the set. -/
def Holds (s : LruSet ways) (x n : Nat) : Prop := x ∈ s.blocks.take (n + 1)

theorem Holds.mem (h : s.Holds x n) : x ∈ s.blocks := List.mem_of_mem_take h

theorem Holds.mono (h : s.Holds x m) (hmn : m ≤ n) : s.Holds x n :=
  (List.take_subset_take_left s.blocks (by omega)) h

theorem holds_touch_iff (hm : m < ways) :
    (s.touch b).Holds x m ↔ x = b ∨ x ∈ (s.blocks.erase b).take m := by
  unfold Holds touch
  rw [List.take_take, Nat.min_eq_left (by omega), List.take_succ_cons, List.mem_cons]

theorem holds_touch_self (hw : 0 < ways) : (s.touch b).Holds b 0 :=
  (holds_touch_iff hw).mpr (.inl rfl)

/-- A use moves every block back by one place at most. -/
theorem Holds.touch (h : s.Holds x n) (hn : n + 1 < ways) : (s.touch b).Holds x (n + 1) := by
  rw [holds_touch_iff hn]
  by_cases hb : b ∈ s.blocks
  · obtain ⟨u, v, -, hl, he⟩ := List.exists_erase_eq hb
    rw [Holds, hl, List.take_append] at h
    rw [he, List.take_append]
    rcases List.mem_append.mp h with h | h
    · exact .inr (List.mem_append_left _ h)
    · rcases Nat.lt_or_ge u.length (n + 1) with hu | hu
      · obtain ⟨k, hk⟩ : ∃ k, n + 1 - u.length = k + 1 := ⟨n - u.length, by omega⟩
        rw [hk, List.take_succ_cons] at h
        refine (List.mem_cons.mp h).imp_right fun h => List.mem_append_right _ ?_
        exact List.take_subset_take_left v (by omega) h
      · rw [Nat.sub_eq_zero_of_le hu] at h
        cases h
  · rw [List.erase_of_not_mem hb]
    exact .inr h

/-- A use of a younger block leaves the place of a block alone. -/
theorem Holds.touch_of_holds (h : s.Holds x n) (hb : s.Holds b m) (hmn : m < n) (hn : n < ways) :
    (s.touch b).Holds x n := by
  rw [holds_touch_iff hn]
  obtain ⟨u, v, hu, hl, he⟩ := List.exists_erase_eq hb.mem
  have hlen : u.length ≤ m := by
    by_contra hlt
    rw [Holds, hl, List.take_append_of_le_length (by omega)] at hb
    exact hu (List.mem_of_mem_take hb)
  rw [Holds, hl, List.take_append] at h
  rw [he, List.take_append]
  rcases List.mem_append.mp h with h | h
  · refine .inr (List.mem_append_left _ ?_)
    rw [List.take_of_length_le (by omega)] at h ⊢
    exact h
  · obtain ⟨k, hk⟩ : ∃ k, n - u.length = k + 1 := ⟨n - u.length - 1, by omega⟩
    rw [show n + 1 - u.length = k + 1 + 1 by omega, List.take_succ_cons] at h
    rw [hk]
    exact (List.mem_cons.mp h).imp_right (List.mem_append_right _)

/-- The bound on the age of a block after a use of `b`, whose own age `used` bounds unless it
reaches `ways`. -/
theorem Holds.step {used : Nat} (h : s.Holds x n) (hb : used < ways → s.Holds b used)
    (hn : Age.step ways used n < ways) : (s.touch b).Holds x (Age.step ways used n) := by
  unfold Age.step at hn ⊢
  split at hn
  · rename_i hle
    rw [if_pos hle]
    exact h.touch hn
  · rename_i hle
    rw [if_neg hle]
    exact h.touch_of_holds (hb (by omega)) (by omega) hn

end LruSet

/-- The contents of all sets of a cache. -/
abbrev CacheContent (g : Geometry) : Type := Nat → LruSet g.ways

namespace CacheContent

variable {g : Geometry} {address i : Nat}

def empty : CacheContent g := fun _ => .empty

/-- The contents after a use of an address. -/
def touch (c : CacheContent g) (address : Nat) : CacheContent g :=
  Function.update c (g.set address) ((c (g.set address)).touch (g.block address))

/-- The block of the address is in its set. -/
def hits (c : CacheContent g) (address : Nat) : Bool :=
  (c (g.set address)).blocks.contains (g.block address)

theorem touch_self (c : CacheContent g) :
    c.touch address (g.set address) = (c (g.set address)).touch (g.block address) :=
  Function.update_self ..

theorem touch_of_ne (c : CacheContent g) (h : g.set address ≠ i) : c.touch address i = c i :=
  Function.update_of_ne (Ne.symm h) ..

/-- Only the block of an address matters. -/
theorem touch_congr {c : CacheContent g} {address' : Nat} (h : g.block address = g.block address') :
    c.touch address = c.touch address' := by
  unfold touch Geometry.set
  rw [h]

end CacheContent

end MissBound
