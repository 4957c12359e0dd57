import MissBound.Proofs.Lru.Concern
import MissBound.Proofs.Symbolic.Value

/-!
Where the iterations of one loop leave a reference while all other counters stand still. The test
looks at the first and the last of them, with the other counters at zero. If the other strides are
whole blocks, other counters move both ends alike, and what lies between the ends cannot leave their
block. For such references the answer is exact.
-/

namespace MissBound.References

variable {R : References} {e : Affine} {c : Nat → Nat} {h i j n start : Nat} {k : Int}

/-- Whatever the other counters, all iterations of the loop of `h` from `start` to `n` lead to one
value of `f`. -/
def KeepsTo (f : Nat → Nat) (e : Affine) (h start n : Nat) : Prop :=
  ∀ c : Nat → Nat, ∃ v, ∀ i, start ≤ i → i < n → f (e.eval (Function.update c h i)).toNat = v

/-- The other strides are whole blocks. -/
def Aligned (R : References) (e : Affine) (h : Nat) : Prop :=
  ∀ t ∈ e.terms, t.header ≠ h → (R.cache.blockSize : Int) ∣ t.coef

theorem alignedApartFrom_iff : R.alignedApartFrom e h = true ↔ R.Aligned e h := by
  simp only [alignedApartFrom, Aligned, List.all_eq_true, List.mem_filter, bne_iff_ne, beq_iff_eq,
    ← Nat.dvd_iff_mod_eq_zero, Int.natCast_dvd, and_imp]

theorem Aligned.dvd_offset (ha : R.Aligned e h) :
    (R.cache.blockSize : Int) ∣ Affine.offset (e.terms.filter fun t => t.header != h) c := by
  refine List.dvd_sum fun x hx => ?_
  obtain ⟨t, ht, rfl⟩ := List.mem_map.mp hx
  obtain ⟨ht, hne⟩ := List.mem_filter.mp ht
  exact (ha t ht (bne_iff_ne.mp hne)).mul_right _

/-- The address in iteration `i` of a loop, from that with the other counters at zero. -/
theorem toNat_eval_update (C : e.Canonical R.loops) (hk : e.coefficient? h = some k) :
    (e.eval (Function.update c h i)).toNat = (((e.constant.toNat : Int) + k * i +
      Affine.offset (e.terms.filter fun t => t.header != h) c) % 2 ^ 32).toNat := by
  have hcoef : Term.coefOf e.terms h = k :=
    Term.coefOf_of_mem C.sorted (C.coefficient?_eq_some.mp hk)
  rw [Affine.toNat_eval, Affine.offset_update, hcoef, Int.add_assoc]

theorem keepsTo_of_free (f : Nat → Nat) (hk : e.coefficient? h = none) : KeepsTo f e h start n := by
  intro c
  refine ⟨f (e.eval c).toNat, fun i _ _ => ?_⟩
  have hfree := Affine.Canonical.coefficient?_eq_none.mp hk
  rw [Affine.eval_congr fun t ht => Function.update_of_ne (hfree t ht) _ _]

theorem keepsTo_of_single (f : Nat → Nat) (hn : n ≤ start + 1) : KeepsTo f e h start n := by
  intro c
  refine ⟨f (e.eval (Function.update c h start)).toNat, fun i hi hin => ?_⟩
  rw [show i = start by omega]

/-- For strides in whole blocks it is enough to look at the other counters at zero. -/
theorem Aligned.keepsTo (C : e.Canonical R.loops) (ha : R.Aligned e h)
    (hk : e.coefficient? h = some k)
    (hblock : ∀ i, start ≤ i → i < n →
      R.cache.block (place e k i) = R.cache.block (place e k start)) :
    KeepsTo R.cache.block e h start n := by
  intro c
  refine ⟨R.cache.block (e.eval (Function.update c h start)).toNat, fun i hi hin => ?_⟩
  have hplace := hblock i hi hin
  rw [place_eq, place_eq] at hplace
  rw [toNat_eval_update C hk, toNat_eval_update C hk]
  exact R.cache.block_add_blocks ha.dvd_offset hplace

theorem keepsTo_of_sameBlocks (C : e.Canonical R.loops) (hn : R.loops.maxIteration? h = some n)
    (hw : ∀ k, e.coefficient? h = some k → start < n → k.natAbs * (n - 1 - start) < 2 ^ 32)
    (hs : R.sameBlocks (.affine e) h start = true) : KeepsTo R.cache.block e h start n := by
  cases hk : e.coefficient? h with
  | none => exact keepsTo_of_free _ hk
  | some k =>
    rcases Nat.lt_or_ge (start + 1) n with hlt | hge
    · obtain ⟨ha, hplace⟩ := sameBlocks_spec hk hn hlt hs (hw k hk (by omega))
      exact (alignedApartFrom_iff.mp ha).keepsTo C hk fun i hi hin => (hplace i hi hin).2
    · exact keepsTo_of_single _ hge

theorem keepsTo_of_sameSets (C : e.Canonical R.loops) (hn : R.loops.maxIteration? h = some n)
    (hw : ∀ k, e.coefficient? h = some k → start < n → k.natAbs * (n - 1 - start) < 2 ^ 32)
    (hs : R.sameSets (.affine e) h start = true) : KeepsTo R.cache.set e h start n := by
  rw [sameSets, Bool.or_eq_true] at hs
  rcases hs with hs | hs
  · -- the stride leads round all sets, however often it wraps
    obtain ⟨k, hk, hmod⟩ := (Option.any_eq_true ..).mp hs
    have hdvd : ((R.cache.blockSize * R.cache.setCount : Nat) : Int) ∣ k :=
      Int.natCast_dvd.mpr (Nat.dvd_of_mod_eq_zero (beq_iff_eq.mp hmod))
    intro c
    refine ⟨R.cache.set (((e.constant.toNat : Int) +
      Affine.offset (e.terms.filter fun t => t.header != h) c) % 2 ^ 32).toNat, fun i _ _ => ?_⟩
    rw [toNat_eval_update C hk, Int.add_right_comm, set_add_rounds (hdvd.mul_right _)]
  · intro c
    obtain ⟨b, hb⟩ := keepsTo_of_sameBlocks C hn hw hs c
    exact ⟨b % R.cache.setCount, fun i hi hin => by rw [Geometry.set, hb i hi hin]⟩

/-- Strides of less than half the address space do not lead round it within one block, so that
places in one block follow each other without a wrap. -/
theorem place_succ (hge : -(2 ^ 31) ≤ k) (hlt : k < 2 ^ 31)
    (h : R.cache.block (place e k (i + 1)) = R.cache.block (place e k i)) :
    (place e k (i + 1) : Int) = place e k i + k := by
  have hsize := R.cache.two_mul_blockSize_le
  have hstep : place e k (i + 1) = (((place e k i : Int) + k) % 2 ^ 32).toNat := by
    rw [place_eq, place_eq]
    have hsum : (e.constant.toNat : Int) + k * (i + 1 : Nat) = e.constant.toNat + k * i + k := by
      push_cast
      ring
    omega
  have habove := R.cache.lt_add_of_block_eq h
  have hbelow := R.cache.lt_add_of_block_eq h.symm
  have hbound : place e k i < 2 ^ 32 := UInt32.toNat_lt _
  omega

theorem place_add {b : Nat} (hge : -(2 ^ 31) ≤ k) (hlt : k < 2 ^ 31)
    (hblock : ∀ i, start ≤ i → i < n → R.cache.block (place e k i) = b) (hj : start + j < n) :
    (place e k (start + j) : Int) = place e k start + k * j := by
  induction j with
  | zero => simp
  | succ j ih =>
    have hsame := (hblock (start + j + 1) (by omega) hj).trans
      (hblock (start + j) (by omega) (by omega)).symm
    rw [← Nat.add_assoc, place_succ hge hlt hsame, ih (by omega)]
    push_cast
    ring

/-- For strides in whole blocks the test finds out that all iterations lie in one block. -/
theorem sameBlocks_of_keepsTo (C : e.Canonical R.loops) (hn : R.loops.maxIteration? h = some n)
    (ha : R.Aligned e h) (hcoef : ∀ t ∈ e.terms, -(2 ^ 31) ≤ t.coef ∧ t.coef < 2 ^ 31)
    (hkeep : KeepsTo R.cache.block e h start n) : R.sameBlocks (.affine e) h start = true := by
  cases hk : e.coefficient? h with
  | none => simp [sameBlocks, hk]
  | some k =>
    rcases Nat.lt_or_ge (start + 1) n with hlt | hge
    · obtain ⟨hge, hlt'⟩ : -(2 ^ 31) ≤ k ∧ k < 2 ^ 31 := hcoef _ (C.coefficient?_eq_some.mp hk)
      obtain ⟨b, hb⟩ := hkeep fun _ => 0
      have hblock : ∀ i, start ≤ i → i < n → R.cache.block (place e k i) = b := by
        intro i hi hin
        rw [← hb i hi hin, toNat_eval_update C hk, place_eq]
        simp [Affine.offset]
      have hlast := place_add hge hlt' hblock (j := n - 1 - start) (by omega)
      rw [Nat.add_sub_of_le (by omega)] at hlast
      refine (sameBlocks_iff hk hn hlt).mpr ⟨alignedApartFrom_iff.mpr ha, ?_, ?_⟩
      · split
        · rename_i hneg
          have := Int.mul_nonpos_of_nonpos_of_nonneg hneg.le (Int.natCast_nonneg (n - 1 - start))
          omega
        · rename_i hpos
          have := Int.mul_nonneg (not_lt.mp hpos) (Int.natCast_nonneg (n - 1 - start))
          omega
      · rw [hblock _ (by omega) (by omega), hblock _ (Nat.le_refl _) (by omega)]
    · simp [sameBlocks, hk, hn, hge]

/-- If the iterations of the loop of `h` from `start` on span less than the address space, a
reference that is said to stay in one block or in one set does so, whatever the other counters. The
answer for blocks is exact if the other strides are whole blocks. -/
theorem colocation_sound (C : e.Canonical R.loops) (hn : R.loops.maxIteration? h = some n)
    (hw : ∀ k, e.coefficient? h = some k → start < n → k.natAbs * (n - 1 - start) < 2 ^ 32) :
    (R.sameBlocks (.affine e) h start = true → KeepsTo R.cache.block e h start n) ∧
    (R.sameSets (.affine e) h start = true → KeepsTo R.cache.set e h start n) ∧
    (R.Aligned e h → (∀ t ∈ e.terms, -(2 ^ 31) ≤ t.coef ∧ t.coef < 2 ^ 31) →
      KeepsTo R.cache.block e h start n → R.sameBlocks (.affine e) h start = true) :=
  ⟨keepsTo_of_sameBlocks C hn hw, keepsTo_of_sameSets C hn hw,
    fun ha hcoef => sameBlocks_of_keepsTo C hn ha hcoef⟩

/-- Words in the inner loop, with rows of three blocks in the outer one. -/
def words : Affine := ⟨[⟨4, 2⟩, ⟨48, 1⟩], 0xffc⟩

/-- Downwards through the whole cache in each iteration of the inner loop. -/
def rounds : Affine := ⟨[⟨-64, 2⟩, ⟨4, 1⟩], 0x1000⟩

/-- After the first word all words of a row lie in one block. The rounds never leave a set and visit
a new block each time. -/
theorem colocation_sound_words :
    (rowRefs.sameBlocks (.affine words) 2 1 = true ∧ KeepsTo rowRefs.cache.block words 2 1 5) ∧
    rowRefs.sameBlocks (.affine words) 2 0 = false ∧
    (rowRefs.sameSets (.affine rounds) 2 0 = true ∧ KeepsTo rowRefs.cache.set rounds 2 0 5) ∧
    rowRefs.sameBlocks (.affine rounds) 2 0 = false := by
  have hwords : rowRefs.sameBlocks (.affine words) 2 1 = true := by decide +kernel
  have hrounds : rowRefs.sameSets (.affine rounds) 2 0 = true := by decide +kernel
  have hspan : ∀ k, words.coefficient? 2 = some k → 1 < 5 → k.natAbs * (5 - 1 - 1) < 2 ^ 32 := by
    rintro k hk -
    cases hk
    decide
  have hspan' : ∀ k, rounds.coefficient? 2 = some k → 0 < 5 → k.natAbs * (5 - 1 - 0) < 2 ^ 32 := by
    rintro k hk -
    cases hk
    decide
  refine ⟨⟨hwords, ?_⟩, by decide +kernel, ⟨hrounds, ?_⟩, by decide +kernel⟩
  · exact (colocation_sound (R := rowRefs) (by decide +kernel) rfl hspan).1 hwords
  · exact (colocation_sound (R := rowRefs) (by decide +kernel) rfl hspan').2.1 hrounds

end MissBound.References
