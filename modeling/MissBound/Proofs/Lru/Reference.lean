import MissBound.Lru.Reference
import MissBound.Proofs.Lru.Trial
import MissBound.Proofs.Platform.Geometry
import MissBound.Proofs.Symbolic.Extent

/-!
A reference that is said not to concern a set never leads there: neither by the interval of its
blocks, nor by strides that keep to one set, nor by the enumeration of its iterations.
-/

namespace MissBound.References

variable {R : References} {e : Affine} {c : Nat → Nat} {h i n start : Nat} {k : Int}

theorem range?_eq_some {base top : Nat} (hr : R.range? (.affine e) = some (base, top)) :
    ∃ lo hi, Affine.reach? R.loops e.terms = some (lo, hi) ∧
      base = (((e.constant.toNat : Int) + lo) % 2 ^ 32).toNat ∧
      top = (((e.constant.toNat : Int) + hi) % 2 ^ 32).toNat ∧ base ≤ top := by
  obtain ⟨s, hs, hif⟩ := Option.bind_eq_some_iff.mp hr
  obtain ⟨⟨lo, hi⟩, hreach, rfl⟩ := Option.map_eq_some_iff.mp hs
  obtain ⟨hle, heq⟩ := Option.ite_none_right_eq_some.mp hif
  obtain ⟨rfl, rfl⟩ := Prod.mk.inj (Option.some.inj heq)
  exact ⟨lo, hi, hreach, rfl, rfl, hle⟩

/-- A run of fewer blocks than there are sets stays on its part of the circle. -/
theorem inSetInterval_of_mem {lo hi b : Nat} (h₁ : lo ≤ b) (h₂ : b ≤ hi)
    (hlt : hi - lo + 1 < R.cache.setCount) :
    R.inSetInterval lo hi (b % R.cache.setCount) = true := by
  unfold inSetInterval
  generalize R.cache.setCount = m at hlt
  obtain ⟨j, rfl⟩ := Nat.exists_eq_add_of_le h₁
  obtain ⟨l, rfl⟩ := Nat.exists_eq_add_of_le h₂
  have hm : 0 < m := by omega
  have hmod : ∀ x, (lo + x) % m = (lo % m + x) % m := fun x => by rw [Nat.mod_add_mod]
  have hfirst := Nat.mod_lt lo hm
  have hwrap : ∀ x, x < m → (lo % m + x) % m = if lo % m + x < m then lo % m + x
      else lo % m + x - m := by
    intro x hx
    split
    · exact Nat.mod_eq_of_lt ‹_›
    · rw [Nat.mod_eq_sub_mod (by omega), Nat.mod_eq_of_lt (by omega)]
  simp only [Nat.add_assoc, hmod, hwrap j (by omega), hwrap (j + l) (by omega)]
  generalize lo % m = a at hfirst
  split <;> split <;> split <;> simp <;> omega

theorem inSetInterval_first {lo hi : Nat} :
    R.inSetInterval lo hi (lo % R.cache.setCount) = true := by
  simp [inSetInterval]

/-- The address in iteration `i` of one loop, all others in their first. -/
def place (e : Affine) (k : Int) (i : Nat) : Nat := (e.constant + word k * UInt32.ofNat i).toNat

theorem place_eq : place e k i = (((e.constant.toNat : Int) + k * i) % 2 ^ 32).toNat := by
  rw [place, ← toNat_word, word_add, word_mul, word_toNat, word_natCast]

/-- The test for one block where there are several iterations: the other strides are whole blocks,
and the ends come in order and share a block. -/
theorem sameBlocks_iff (hk : e.coefficient? h = some k) (hn : R.loops.maxIteration? h = some n)
    (hlt : start + 1 < n) : R.sameBlocks (.affine e) h start = true ↔
      R.alignedApartFrom e h = true ∧
      (if k < 0 then place e k (n - 1) ≤ place e k start else place e k start ≤ place e k (n - 1)) ∧
      R.cache.block (place e k (n - 1)) = R.cache.block (place e k start) := by
  unfold sameBlocks
  simp only [hk, hn, if_neg (show ¬n ≤ start + 1 by omega)]
  cases R.alignedApartFrom e h with
  | false => simp
  | true =>
    by_cases hneg : k < 0
    · simp [hneg, place]
    · rw [eq_comm (a := R.cache.block (place e k (n - 1)))]
      simp [hneg, place]

/-- Iterations that stay in one block do not run past the end of the address space. -/
theorem sameBlocks_spec (hk : e.coefficient? h = some k) (hn : R.loops.maxIteration? h = some n)
    (hlt : start + 1 < n) (hs : R.sameBlocks (.affine e) h start = true)
    (hw : k.natAbs * (n - 1 - start) < 2 ^ 32) :
    R.alignedApartFrom e h = true ∧ ∀ i, start ≤ i → i < n →
      (place e k i : Int) = place e k start + k * ((i : Int) - start) ∧
        R.cache.block (place e k i) = R.cache.block (place e k start) := by
  obtain ⟨ha, hends, hblock⟩ := (sameBlocks_iff hk hn hlt).mp hs
  refine ⟨ha, fun i hi hin => ?_⟩
  have hsum : ∀ j : Nat, (e.constant.toNat : Int) + k * j =
      (e.constant.toNat : Int) + k * start + k * ((j : Int) - start) := fun j => by ring
  have hp : ∀ j, place e k j = (((e.constant.toNat : Int) + k * start +
      k * ((j : Int) - start)) % 2 ^ 32).toNat := fun j => by rw [place_eq, hsum]
  have hpi := hp i
  have hpn := hp (n - 1)
  have hps : place e k start = (((e.constant.toNat : Int) + k * start) % 2 ^ 32).toNat := place_eq
  have hle : (i : Int) - start ≤ ((n - 1 : Nat) : Int) - start := by omega
  have hw' : ((k.natAbs * (n - 1 - start) : Nat) : Int) < 2 ^ 32 := by exact_mod_cast hw
  rw [Int.natCast_mul, Int.natCast_sub (by omega)] at hw'
  split at hends
  · rename_i hneg
    have hneg := Int.le_of_lt hneg
    rw [Int.ofNat_natAbs_of_nonpos hneg, Int.neg_mul] at hw'
    have h₁ := Int.mul_le_mul_of_nonpos_left hneg hle
    have h₂ := Int.mul_nonpos_of_nonpos_of_nonneg hneg (show 0 ≤ (i : Int) - start by omega)
    have hexact : (place e k i : Int) = place e k start + k * ((i : Int) - start) := by omega
    exact ⟨hexact, (R.cache.block_eq_of_le_of_le (by omega) (by omega) hblock).trans hblock⟩
  · rename_i hpos
    have hpos : 0 ≤ k := by omega
    rw [Int.natAbs_of_nonneg hpos] at hw'
    have h₁ := Int.mul_le_mul_of_nonneg_left hle hpos
    have h₂ := Int.mul_nonneg hpos (show 0 ≤ (i : Int) - start by omega)
    have hexact : (place e k i : Int) = place e k start + k * ((i : Int) - start) := by omega
    exact ⟨hexact, R.cache.block_eq_of_le_of_le (by omega) (by omega) hblock.symm⟩

/-- Whole rounds through all sets do not change the set of an address. -/
theorem set_add_rounds {x a : Int} (ha : ((R.cache.blockSize * R.cache.setCount : Nat) : Int) ∣ a) :
    R.cache.set ((x + a) % 2 ^ 32).toNat = R.cache.set (x % 2 ^ 32).toNat := by
  refine R.cache.set_congr ?_
  have hdvd : ((R.cache.blockSize * R.cache.setCount : Nat) : Int) ∣ 2 ^ 32 := by
    exact_mod_cast R.cache.mul_dvd
  obtain ⟨q, rfl⟩ := ha
  generalize R.cache.blockSize * R.cache.setCount = m at hdvd
  have hcast : ∀ y : Int, (((y % 2 ^ 32).toNat % m : Nat) : Int) = y % m := by
    intro y
    rw [Int.natCast_emod, Int.toNat_of_nonneg (Int.emod_nonneg _ (by decide)),
      Int.emod_emod_of_dvd _ hdvd]
  have : (((x + m * q) % 2 ^ 32).toNat % m : Int) = ((x % 2 ^ 32).toNat % m : Int) := by
    rw [← Int.natCast_emod, ← Int.natCast_emod, hcast, hcast, Int.add_mul_emod_self_left]
  exact_mod_cast this

theorem mul_le_extent {t : Term} (ht : t ∈ e.terms) (hn : R.loops.maxIteration? t.header = some n) :
    t.coef.natAbs * (n - 1) ≤ Affine.extent R.loops e.terms := by
  refine List.single_le_sum (fun _ _ => Nat.zero_le _) _ (List.mem_map.mpr ⟨t, ht, ?_⟩)
  rw [hn]
  rfl

section
variable (C : e.Canonical R.loops) (hsome : ∀ t ∈ e.terms, (R.loops.maxIteration? t.header).isSome)
  (hext : Affine.extent R.loops e.terms < 2 ^ 32) (hc : Affine.Bounded R.loops e.terms c)
include C hsome hext hc

/-- A term that keeps to one set moves by whole rounds, or keeps the reference in one block while
no other term moves it within a block. -/
theorem sameSets_cases {t : Term} (ht : t ∈ e.terms)
    (hs : R.sameSets (.affine e) t.header 0 = true) :
    ((R.cache.blockSize * R.cache.setCount : Nat) : Int) ∣ t.coef * (c t.header : Int) ∨
      R.alignedApartFrom e t.header = true ∧
        R.cache.block (place e t.coef (c t.header)) = R.cache.block e.constant.toNat ∧
        t.coef.natAbs < R.cache.blockSize := by
  have hk := C.coefficient?_eq_some.mpr (show ⟨t.coef, t.header⟩ ∈ e.terms from ht)
  obtain ⟨n, hn⟩ := Option.isSome_iff_exists.mp (hsome t ht)
  have hle := hc t ht n hn
  have hw : t.coef.natAbs * (n - 1) < 2 ^ 32 := Nat.lt_of_le_of_lt (mul_le_extent ht hn) hext
  rw [sameSets, Bool.or_eq_true] at hs
  rcases hs with hs | hs
  · left
    have hmod : t.coef.natAbs % (R.cache.blockSize * R.cache.setCount) = 0 := by
      have hcoef : (Symbolic.affine e).coefficient? t.header = some t.coef := hk
      simpa [hcoef] using hs
    exact Dvd.dvd.mul_right (Int.ofNat_dvd_left.mpr (Nat.dvd_of_mod_eq_zero hmod)) _
  · by_cases hn1 : n ≤ 1
    · left
      rw [show c t.header = 0 by omega]
      simp
    · right
      obtain ⟨ha, hplace⟩ := sameBlocks_spec hk hn (by omega) hs hw
      have hzero : place e t.coef 0 = e.constant.toNat := by
        rw [place]
        simp
      refine ⟨ha, hzero ▸ (hplace (c t.header) (Nat.zero_le _) (by omega)).2, ?_⟩
      obtain ⟨hexact, hblock⟩ := hplace 1 (Nat.zero_le _) (by omega)
      by_contra hge
      have habove := R.cache.lt_add_of_block_eq hblock
      have hbelow := R.cache.lt_add_of_block_eq hblock.symm
      omega

/-- If every loop keeps to one set, all addresses lie in the set of the constant. -/
theorem set_eval_of_sameSets (hs : ∀ t ∈ e.terms, R.sameSets (.affine e) t.header 0 = true) :
    R.cache.set (e.eval c).toNat = R.cache.set e.constant.toNat := by
  have hconst : R.cache.set (((e.constant.toNat : Int)) % 2 ^ 32).toNat =
      R.cache.set e.constant.toNat := by
    have := e.constant.toNat_lt
    congr 1
    omega
  rw [Affine.toNat_eval]
  by_cases hall : ∀ t ∈ e.terms,
      ((R.cache.blockSize * R.cache.setCount : Nat) : Int) ∣ t.coef * (c t.header : Int)
  · rw [set_add_rounds, hconst]
    refine List.dvd_sum fun x hx => ?_
    obtain ⟨t, ht, rfl⟩ := List.mem_map.mp hx
    exact hall t ht
  · obtain ⟨t, hnot⟩ := not_forall.mp hall
    obtain ⟨ht, hnot⟩ := Classical.not_imp.mp hnot
    obtain ⟨ha, hblock, -⟩ := (sameSets_cases C hsome hext hc ht (hs t ht)).resolve_left hnot
    have hk := C.coefficient?_eq_some.mpr (show ⟨t.coef, t.header⟩ ∈ e.terms from ht)
    -- no second loop can move the reference within its block
    have hrest : ((R.cache.blockSize * R.cache.setCount : Nat) : Int) ∣
        Affine.offset (e.terms.filter fun u => u.header != t.header) c := by
      refine List.dvd_sum fun x hx => ?_
      obtain ⟨u, hu, rfl⟩ := List.mem_map.mp hx
      have hmem := List.mem_of_mem_filter hu
      rcases sameSets_cases C hsome hext hc hmem (hs u hmem) with h | ⟨-, -, hlt⟩
      · exact h
      · have hmod := List.all_eq_true.mp ha u hu
        have hzero := Nat.eq_zero_of_dvd_of_lt (Nat.dvd_of_mod_eq_zero (beq_iff_eq.mp hmod)) hlt
        exact absurd (Int.natAbs_eq_zero.mp hzero) (C.nonzero u hmem)
    rw [C.offset_filter hk, ← Int.add_assoc, set_add_rounds hrest, ← place_eq, Geometry.set, hblock,
      ← Geometry.set]

end

/-- A reference concerns every set that it leads to. -/
theorem concerns_of_set {set : Nat} (C : e.Canonical R.loops) (hnarrow : e.Narrow R.loops)
    (hc : ∀ t ∈ e.terms, ∀ n, R.loops.maxIteration? t.header = some n → c t.header < n)
    (hset : R.cache.set (e.eval c).toNat = set) : R.concerns (.affine e) set = true := by
  have hbounded : Affine.Bounded R.loops e.terms c := fun t ht n hn =>
    Nat.le_sub_one_of_lt (hc t ht n hn)
  unfold concerns
  cases hr : R.range? (.affine e) with
  | none => simp [blockRange?, hr]
  | some r =>
    obtain ⟨base, top⟩ := r
    obtain ⟨lo, hi, hreach, hbase, htop, hle⟩ := range?_eq_some hr
    have hsome := Affine.isSome_of_reach? hreach
    obtain ⟨h₁, h₂⟩ := Affine.toNat_eval_of_reach? hnarrow hreach hbase htop hle hbounded
    have hb₁ := R.cache.block_mono h₁
    have hb₂ := R.cache.block_mono h₂
    simp only [blockRange?, hr, Option.map_some]
    split
    · rename_i hout
      rw [Bool.and_eq_true, decide_eq_true_eq, Bool.not_eq_true'] at hout
      have hin := inSetInterval_of_mem hb₁ hb₂ hout.1
      rw [← Geometry.set, hset, hout.2] at hin
      cases hin
    · split
      · rename_i hall
        rw [List.all_eq_true] at hall
        have hext := hnarrow hsome
        obtain ⟨c₀, hc₀, hlow⟩ := Affine.exists_lowest C hreach
        have hlowest : (e.eval c₀).toNat = base := by
          rw [Affine.toNat_eval, hlow, hbase]
        have h₃ := set_eval_of_sameSets C hsome hext hbounded hall
        have h₄ := set_eval_of_sameSets C hsome hext hc₀ hall
        rw [beq_iff_eq, ← hset, h₃, ← h₄, hlowest]
        rfl
      · cases he : (Symbolic.affine e).enumerable? R.loops R.cap with
        | none => rfl
        | some o =>
          obtain ⟨hspace, -⟩ := Option.filter_eq_some_iff.mp he
          obtain ⟨k, hk, heval⟩ := Odometer.exists_after_eval (L := R.loops) (d := c) hspace hc
          refine Odometer.anyNext_iff.mpr ⟨k, hk, ?_⟩
          rw [heval, Option.any_some, beq_iff_eq]
          exact hset

/-- The set of the lowest address is concerned, even by a reference that runs past the end of the
address space. -/
theorem concerns_lowest (C : e.Canonical R.loops)
    (hsome : ∀ t ∈ e.terms, (R.loops.maxIteration? t.header).isSome)
    (hpos : ∀ h n, R.loops.maxIteration? h = some n → 1 ≤ n) :
    ∃ c : Nat → Nat, (∀ t ∈ e.terms, ∀ n, R.loops.maxIteration? t.header = some n →
      c t.header < n) ∧ R.concerns (.affine e) (R.cache.set (e.eval c).toNat) = true := by
  obtain ⟨lo, hi, hreach⟩ := Affine.exists_reach? hsome
  obtain ⟨c, hc, hlow⟩ := Affine.exists_lowest C hreach
  have hlt : ∀ t ∈ e.terms, ∀ n, R.loops.maxIteration? t.header = some n → c t.header < n := by
    intro t ht n hn
    have hle := hc t ht n hn
    have := hpos t.header n hn
    omega
  refine ⟨c, hlt, ?_⟩
  unfold concerns
  cases hr : R.range? (.affine e) with
  | none => simp [blockRange?, hr]
  | some r =>
    obtain ⟨base, top⟩ := r
    obtain ⟨lo', hi', hreach', hbase, -, -⟩ := range?_eq_some hr
    cases hreach.symm.trans hreach'
    have hlowest : (e.eval c).toNat = base := by rw [Affine.toNat_eval, hlow, hbase]
    simp only [blockRange?, hr, Option.map_some]
    split
    · rename_i hout
      simp [hlowest, Geometry.set, inSetInterval_first] at hout
    · split
      · rw [hlowest]
        exact beq_self_eq_true _
      · cases he : (Symbolic.affine e).enumerable? R.loops R.cap with
        | none => rfl
        | some o =>
          obtain ⟨hspace, -⟩ := Option.filter_eq_some_iff.mp he
          obtain ⟨k, hk, heval⟩ := Odometer.exists_after_eval (L := R.loops) (d := c) hspace hlt
          apply Odometer.anyNext_iff.mpr
          exact ⟨k, hk, by simp [heval]⟩

end MissBound.References
