import MissBound.Proofs.Symbolic.Affine
import MissBound.Symbolic.Extent

/-!
The addresses of a reference lie between the ends of its span, as long as its extent does not
exceed the address space.
-/

namespace MissBound.Affine

variable {L : LoopForest} {e : Affine} {c : Nat → Nat} {terms : List Term} {lo hi : Int}

/-- The distance between the lowest and the highest value of the terms. -/
def extent (L : LoopForest) (terms : List Term) : Nat :=
  (terms.map fun t => t.coef.natAbs * ((L.maxIteration? t.header).getD 0 - 1)).sum

/-- If all bounds are known, the addresses span less than the address space. -/
def Narrow (L : LoopForest) (e : Affine) : Prop :=
  (∀ t ∈ e.terms, (L.maxIteration? t.header).isSome) → extent L e.terms < 2 ^ 32

instance : Decidable (e.Narrow L) :=
  inferInstanceAs (Decidable ((∀ t ∈ e.terms, (L.maxIteration? t.header).isSome) → _ < _))

/-- The counters stay below the bounds that are known. -/
def Bounded (L : LoopForest) (terms : List Term) (c : Nat → Nat) : Prop :=
  ∀ t ∈ terms, ∀ n, L.maxIteration? t.header = some n → c t.header ≤ n - 1

/-- How far one more term moves the ends. -/
theorem reach?_cons {t : Term} (h : reach? L (t :: terms) = some (lo, hi)) :
    ∃ n lo' hi', L.maxIteration? t.header = some n ∧ reach? L terms = some (lo', hi') ∧
      (t.coef < 0 ∧ lo = lo' + t.coef * (n - 1 : Nat) ∧ hi = hi' ∨
        0 ≤ t.coef ∧ lo = lo' ∧ hi = hi' + t.coef * (n - 1 : Nat)) := by
  rw [reach?] at h
  cases hn : L.maxIteration? t.header with
  | none => simp [hn] at h
  | some n =>
    cases hr : reach? L terms with
    | none => simp [hn, hr] at h
    | some r =>
      obtain ⟨lo', hi'⟩ := r
      refine ⟨n, lo', hi', rfl, rfl, ?_⟩
      simp only [hn, hr, Option.some.injEq] at h
      split at h <;> obtain ⟨rfl, rfl⟩ := Prod.mk.inj h
      · exact .inl ⟨‹_›, rfl, rfl⟩
      · exact .inr ⟨by omega, rfl, rfl⟩

theorem isSome_of_reach? (h : reach? L terms = some (lo, hi)) :
    ∀ t ∈ terms, (L.maxIteration? t.header).isSome := by
  induction terms generalizing lo hi with
  | nil => exact fun t ht => (by cases ht)
  | cons t terms ih =>
    obtain ⟨n, lo', hi', hn, hr, -⟩ := reach?_cons h
    intro u hu
    rcases List.mem_cons.mp hu with rfl | hu
    · exact hn ▸ rfl
    · exact ih hr u hu

theorem exists_reach? (h : ∀ t ∈ terms, (L.maxIteration? t.header).isSome) :
    ∃ lo hi, reach? L terms = some (lo, hi) := by
  induction terms with
  | nil => exact ⟨0, 0, rfl⟩
  | cons t terms ih =>
    obtain ⟨n, hn⟩ := Option.isSome_iff_exists.mp (h t List.mem_cons_self)
    obtain ⟨lo, hi, hr⟩ := ih fun u hu => h u (List.mem_cons_of_mem _ hu)
    rw [reach?, hn, hr]
    exact ⟨_, _, rfl⟩

theorem sub_of_reach? (h : reach? L terms = some (lo, hi)) : hi - lo = extent L terms := by
  induction terms generalizing lo hi with
  | nil =>
    cases h
    rfl
  | cons t terms ih =>
    obtain ⟨n, lo', hi', hn, hr, hcase⟩ := reach?_cons h
    have hext : (extent L (t :: terms) : Int) = t.coef.natAbs * (n - 1 : Nat) + extent L terms := by
      simp [extent, hn]
    rw [hext, ← ih hr]
    rcases hcase with ⟨hneg, rfl, rfl⟩ | ⟨hpos, rfl, rfl⟩
    · rw [Int.ofNat_natAbs_of_nonpos (Int.le_of_lt hneg), Int.neg_mul]
      omega
    · rw [Int.natAbs_of_nonneg hpos]
      omega

theorem offset_mem_reach? (h : reach? L terms = some (lo, hi)) (hc : Bounded L terms c) :
    lo ≤ offset terms c ∧ offset terms c ≤ hi := by
  induction terms generalizing lo hi with
  | nil =>
    cases h
    exact ⟨Int.le_refl _, Int.le_refl _⟩
  | cons t terms ih =>
    obtain ⟨n, lo', hi', hn, hr, hcase⟩ := reach?_cons h
    obtain ⟨h₁, h₂⟩ := ih hr fun u hu => hc u (List.mem_cons_of_mem _ hu)
    have hle : (c t.header : Int) ≤ (n - 1 : Nat) :=
      Int.ofNat_le.mpr (hc t List.mem_cons_self n hn)
    have hsum : offset (t :: terms) c = t.coef * (c t.header : Int) + offset terms c := rfl
    rw [hsum]
    rcases hcase with ⟨hneg, rfl, rfl⟩ | ⟨hpos, rfl, rfl⟩
    · have h₃ := Int.mul_le_mul_of_nonpos_left (Int.le_of_lt hneg) hle
      have h₄ := Int.mul_nonpos_of_nonpos_of_nonneg (Int.le_of_lt hneg)
        (Int.natCast_nonneg (c t.header))
      omega
    · have h₃ := Int.mul_le_mul_of_nonneg_left hle hpos
      have h₄ := Int.mul_nonneg hpos (Int.natCast_nonneg (c t.header))
      omega

/-- What a term takes away from the lower end. -/
def drop (L : LoopForest) (t : Term) : Int :=
  if t.coef < 0 then t.coef * ((L.maxIteration? t.header).getD 0 - 1 : Nat) else 0

theorem fst_of_reach? (h : reach? L terms = some (lo, hi)) : lo = (terms.map (drop L)).sum := by
  induction terms generalizing lo hi with
  | nil =>
    cases h
    rfl
  | cons t terms ih =>
    obtain ⟨n, lo', hi', hn, hr, hcase⟩ := reach?_cons h
    rw [List.map_cons, List.sum_cons, ← ih hr, drop, hn]
    rcases hcase with ⟨hneg, rfl, rfl⟩ | ⟨hpos, rfl, rfl⟩
    · rw [if_pos hneg, Option.getD_some]
      omega
    · rw [if_neg (by omega)]
      omega

/-- The lower end is reached, with the loops of negative coefficients in their last iteration. -/
theorem exists_lowest (C : Canonical L e) (h : reach? L e.terms = some (lo, hi)) :
    ∃ c, Bounded L e.terms c ∧ offset e.terms c = lo := by
  have hcoef : ∀ t ∈ e.terms, e.coefficient? t.header = some t.coef := fun t ht =>
    C.coefficient?_eq_some.mpr ht
  refine ⟨fun h => if (e.coefficient? h).any (· < 0) then (L.maxIteration? h).getD 0 - 1 else 0,
    fun t ht n hn => ?_, ?_⟩
  · simp only [hn, Option.getD_some]
    split <;> omega
  · rw [fst_of_reach? h, offset]
    refine congrArg List.sum (List.map_congr_left fun t ht => ?_)
    rw [hcoef t ht, drop]
    by_cases hneg : t.coef < 0 <;> simp [hneg]

/-- The span of a reference with known bounds, and where its addresses lie. -/
theorem toNat_eval_of_reach? {base top : Nat} (hnarrow : Narrow L e)
    (hr : reach? L e.terms = some (lo, hi))
    (hbase : base = (((e.constant.toNat : Int) + lo) % 2 ^ 32).toNat)
    (htop : top = (((e.constant.toNat : Int) + hi) % 2 ^ 32).toNat) (hle : base ≤ top)
    (hc : Bounded L e.terms c) : base ≤ (e.eval c).toNat ∧ (e.eval c).toNat ≤ top := by
  have hlt := hnarrow (isSome_of_reach? hr)
  have hsub := sub_of_reach? hr
  obtain ⟨h₁, h₂⟩ := offset_mem_reach? hr hc
  rw [toNat_eval]
  omega

end MissBound.Affine
