import MissBound.Proofs.Lru.Range

/-!
Which sets a reference concerns, against all its addresses. Whichever of the tests decides, the
answer is right for a reference that spans less than the address space and whose iteration space is
small enough. Where the addresses cannot be judged, it errs on the side of naming too many sets.
-/

namespace MissBound

namespace Affine

variable {L : LoopForest} {e : Affine}

theorem reach?_eq_none : reach? L e.terms = none ↔
    ∃ t ∈ e.terms, L.maxIteration? t.header = none := by
  constructor
  · intro hnone
    by_contra hall
    push Not at hall
    obtain ⟨lo, hi, hr⟩ := exists_reach? fun t ht => Option.isSome_iff_ne_none.mpr (hall t ht)
    cases hnone.symm.trans hr
  · rintro ⟨t, ht, hn⟩
    cases hr : reach? L e.terms with
    | none => rfl
    | some r =>
      have hsome := isSome_of_reach? hr t ht
      rw [hn] at hsome
      cases hsome

end Affine

namespace References

variable {R : References} {e : Affine} {lo hi a set : Nat}

/-- There is no range if a bound is unknown or if the ends come out in the wrong order. -/
theorem range?_eq_none : R.range? (.affine e) = none ↔
    (∃ t ∈ e.terms, R.loops.maxIteration? t.header = none) ∨
      ∃ s, e.span? R.loops = some s ∧ s.top < s.base := by
  have hspan : e.span? R.loops = none ↔ ∃ t ∈ e.terms, R.loops.maxIteration? t.header = none := by
    rw [Affine.span?, Option.map_eq_none_iff, Affine.reach?_eq_none]
  rw [← hspan, range?, Symbolic.span?, Symbolic.affine?, Option.bind_some]
  cases e.span? R.loops with
  | none => simp
  | some s => simp

theorem concerns_of_range? (hr : R.range? (.affine e) = none) :
    R.concerns (.affine e) set = true := by
  simp [concerns, blockRange?, hr]

theorem concerns_of_enumerates (C : e.Canonical R.loops)
    (hext : Affine.extent R.loops e.terms < 2 ^ 32) (ha : e.Enumerates R.loops a) :
    R.concerns (.affine e) (R.cache.set a) = true := by
  obtain ⟨-, c, hc, rfl⟩ := Affine.enumerates_iff.mp ha
  exact concerns_of_set C (fun _ => hext) hc rfl

section
variable (C : e.Canonical R.loops) (hr : R.range? (.affine e) = some (lo, hi))
  (hpos : ∀ t ∈ e.terms, ∀ n, R.loops.maxIteration? t.header = some n → 1 ≤ n)
include C hr hpos

/-- The lower end of a range is an address. -/
theorem enumerates_lowest : e.Enumerates R.loops lo := by
  obtain ⟨low, high, hreach, hlo, -, -⟩ := range?_eq_some hr
  obtain ⟨c, hc, hlow⟩ := Affine.exists_lowest C hreach
  have hlowest : (e.eval c).toNat = lo := by rw [Affine.toNat_eval, hlow, hlo]
  exact hlowest ▸ Affine.enumerates_of_bounded hreach hpos hc

/-- A set that is concerned holds an address, if the iteration space can be enumerated. -/
theorem exists_enumerates (hsize : (e.terms.map fun t =>
      (R.loops.maxIteration? t.header).getD 0).prod ≤ R.cap)
    (h : R.concerns (.affine e) set = true) :
    ∃ a, e.Enumerates R.loops a ∧ R.cache.set a = set := by
  have hlowest := enumerates_lowest C hr hpos
  simp only [concerns, blockRange?, hr, Option.map_some] at h
  split at h
  · cases h
  · split at h
    · exact ⟨lo, hlowest, beq_iff_eq.mp h⟩
    · obtain ⟨hsome, -⟩ := Affine.enumerates_iff.mp hlowest
      obtain ⟨o, ho, hvolume⟩ := Affine.exists_space hsome
      have henumerable : (Symbolic.affine e).enumerable? R.loops R.cap = some o :=
        Option.filter_eq_some_iff.mpr
          ⟨ho, decide_eq_true ((Nat.min_le_right ..).trans (hvolume ▸ hsize))⟩
      rw [henumerable] at h
      obtain ⟨k, hk, hany⟩ := Odometer.anyNext_iff.mp h
      obtain ⟨a, ha, hset⟩ := (Option.any_eq_true ..).mp hany
      exact ⟨a, Affine.enumerates_after ho hk ha, beq_iff_eq.mp hset⟩

end

/-- A reference that spans less than the address space concerns every set to which it leads. Every
set is concerned by a reference without a range, because a bound is unknown or the ends come out in
the wrong order. Otherwise, if every loop runs and the iteration space is no larger than the cap,
only the sets are concerned to which the reference leads. -/
theorem concerns_agrees (C : e.Canonical R.loops) (set : Nat) :
    (Affine.extent R.loops e.terms < 2 ^ 32 →
      ∀ a, e.Enumerates R.loops a → R.cache.set a = set → R.concerns (.affine e) set = true) ∧
    ((R.range? (.affine e) = none ↔ (∃ t ∈ e.terms, R.loops.maxIteration? t.header = none) ∨
        ∃ s, e.span? R.loops = some s ∧ s.top < s.base) ∧
      (R.range? (.affine e) = none → R.concerns (.affine e) set = true)) ∧
    (R.range? (.affine e) ≠ none →
      (∀ t ∈ e.terms, ∀ n, R.loops.maxIteration? t.header = some n → 1 ≤ n) →
      (e.terms.map fun t => (R.loops.maxIteration? t.header).getD 0).prod ≤ R.cap →
      R.concerns (.affine e) set = true → ∃ a, e.Enumerates R.loops a ∧ R.cache.set a = set) := by
  refine ⟨fun hext a ha hset => ?_, ⟨range?_eq_none, concerns_of_range?⟩, fun hr hpos hsize h => ?_⟩
  · exact hset ▸ concerns_of_enumerates C hext ha
  · obtain ⟨⟨lo, hi⟩, hr⟩ := Option.ne_none_iff_exists'.mp hr
    exact exists_enumerates C hr hpos hsize h

/-- References in the same loops, for a cache of four sets. -/
def rowRefs : References :=
  ⟨gridLoops, { twoLines with setBits := 2, bits_lt := Nat.le_of_ble_eq_true rfl }, 100⟩

/-- Every other block, in the inner loop. -/
def everyOther : Affine := ⟨[⟨32, 2⟩], 0x1000⟩

/-- The third set is concerned and not the second one, which a reference that runs past the end of
the address space concerns. -/
theorem concerns_agrees_everyOther :
    (everyOther.Enumerates gridLoops 0x1020 ∧ rowRefs.concerns (.affine everyOther) 2 = true) ∧
    (∃ a, everyOther.Enumerates gridLoops a ∧ rowRefs.cache.set a = 2) ∧
    rowRefs.concerns (.affine everyOther) 1 = false ∧
    rowRefs.concerns (.affine ⟨[⟨16, 2⟩], 0xfffffff0⟩) 1 = true := by
  have hpassed : everyOther.Enumerates gridLoops 0x1020 :=
    ⟨5, _, _, ⟨[⟨2, 5, 1⟩]⟩, rfl, by decide +kernel⟩
  have hruns : ∀ t ∈ everyOther.terms, ∀ n, gridLoops.maxIteration? t.header = some n → 1 ≤ n := by
    intro t ht n hn
    cases List.mem_singleton.mp ht
    cases hn
    decide
  obtain ⟨hsound, -, hexact⟩ :=
    concerns_agrees (R := rowRefs) (e := everyOther) (by decide +kernel) 2
  have hconcerns := hsound (by decide +kernel) 0x1020 hpassed (by decide)
  refine ⟨⟨hpassed, hconcerns⟩, hexact (by decide +kernel) hruns (by decide +kernel) hconcerns,
    by decide +kernel, ?_⟩
  exact (concerns_agrees (R := rowRefs) (by decide +kernel) 1).2.1.2 (by decide +kernel)

end References

end MissBound
