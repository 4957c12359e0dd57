import MissBound.Proofs.Lru.TrialCount

/-!
The counts of an access in one set account for all its trials there: every trial has one outcome,
and the misses fit the outcomes. Counts that do so can be added up.
-/

namespace MissBound

namespace Tally

variable {a b : Tally}

@[simp] theorem alwaysHit_add : (a + b).alwaysHit = a.alwaysHit + b.alwaysHit := rfl

@[simp] theorem notClassified_add : (a + b).notClassified = a.notClassified + b.notClassified := rfl

@[simp] theorem trials_add : (a + b).trials = a.trials + b.trials := by
  change (add a b).trials = _
  simp only [add, trials]
  omega

theorem alwaysHit_le : a.alwaysHit ≤ a.trials := by
  simp only [trials]
  omega

end Tally

/-- Every trial is classified, there are at most as many misses as trials, and there is none exactly
if all trials hit. -/
structure Coherent (c : Tally × MissCount) : Prop where
  classified : c.1.notClassified = 0
  misses : ∃ m ≤ c.1.trials, c.2 = .bounded m ∧ (m = 0 ↔ c.1.alwaysHit = c.1.trials)

namespace Coherent

variable {c d : Tally × MissCount} {counts : List (Tally × MissCount)}

theorem zero : Coherent (.zero, .zero) := ⟨rfl, 0, Nat.le_refl 0, rfl, by decide⟩

theorem add (hc : Coherent c) (hd : Coherent d) : Coherent (c.1 + d.1, c.2 + d.2) := by
  obtain ⟨m, hm, hcm, hzero⟩ := hc.misses
  obtain ⟨n, hn, hdn, hzero'⟩ := hd.misses
  have hhit : c.1.alwaysHit ≤ c.1.trials := Tally.alwaysHit_le
  have hhit' : d.1.alwaysHit ≤ d.1.trials := Tally.alwaysHit_le
  have hlimit : 0 < missLimit := by decide
  refine ⟨?_, min missLimit (m + n), ?_, ?_, ?_⟩
  · simp [hc.classified, hd.classified]
  · simp only [Tally.trials_add]
    omega
  · rw [hcm, hdn]
    rfl
  · simp only [Tally.trials_add, Tally.alwaysHit_add]
    omega

theorem of_gains {t : Tally} {m n : Nat} (h : Tally.Gains n .zero t) (hm : m ≤ n)
    (hzero : m = 0 ↔ n = 0) : Coherent (t, .bounded m) := by
  have htrials : t.trials = n := h.trials.trans (Nat.zero_add n)
  have hhit : t.alwaysHit = 0 := h.alwaysHit
  refine ⟨h.notClassified, m, ?_, rfl, ?_⟩
  · rwa [htrials]
  · rw [htrials, hhit, hzero, eq_comm]

end Coherent

namespace SetDomain

variable {D : SetDomain} {e : Affine} {space : Odometer} {s : SetState} {a : DataUse}

/-- References with the same terms that always lie in one block have the same trials. -/
theorem trials_congr {f : Affine} (hspace : e.space? D.loops = some space)
    (hterms : f.terms = e.terms)
    (hblock : ∀ c, D.cache.block (f.eval c).toNat = D.cache.block (e.eval c).toNat) :
    D.trials f space = D.trials e space := by
  refine List.filterMap_congr fun o ho => ?_
  obtain ⟨d, -, heval⟩ := Odometer.eval?_of_mem_positions hspace ho
  have hset : D.cache.set (f.eval d).toNat = D.cache.set (e.eval d).toNat := by
    rw [Geometry.set, hblock, ← Geometry.set]
  rw [blockAt?, blockAt?, heval f hterms, heval e rfl]
  simp [Option.filter_some, hset, hblock]

/-- Whatever the state before an access, its trials in the set are all counted, and its misses
fit. -/
theorem coherent_countMisses (href : a.reference = .affine e) (hcan : e.Canonical D.loops)
    (henum : (Symbolic.affine e).enumerable? D.loops D.refs.cap = some space) :
    Coherent (D.countMisses s a) ∧ (D.countMisses s a).1.trials = (D.trials e space).length := by
  obtain ⟨f, hnorm, hterms, -, hblock⟩ := normalize_affine (D := D) hcan
  have henum' : (Symbolic.affine f).enumerable? D.loops D.refs.cap = some space := by
    simpa [Symbolic.enumerable?, Symbolic.affine?, Affine.space?, Affine.headers,
      hterms] using henum
  have hlength : (D.trials f space).length = 0 ↔ D.trials f space = [] := List.length_eq_zero_iff
  rw [← trials_congr (Option.filter_eq_some_iff.mp henum).1 hterms hblock]
  unfold countMisses
  simp only [href, hnorm, henum']
  split
  · rw [countTrials_eq]
    refine ⟨⟨rfl, _, Nat.le_of_eq ?_, rfl, ?_⟩, ?_⟩ <;> simp [Tally.trials, Tally.zero, eq_comm]
  · split
    · rw [countTrials_eq]
      refine ⟨⟨rfl, 0, Nat.zero_le _, rfl, ?_⟩, ?_⟩ <;> simp [Tally.trials, Tally.zero]
    · split
      · refine ⟨.of_gains gains_countPersistent ?_ ?_, ?_⟩
        · rw [countPersistent_eq]
          exact breaks_le_length
        · rw [countPersistent_eq, breaks_eq_zero, hlength]
        · exact gains_countPersistent.trials.trans (Nat.zero_add _)
      · refine ⟨.of_gains gains_countOthers ?_ ?_, ?_⟩
        · rw [countOthers_eq]
        · rw [countOthers_eq]
        · exact gains_countOthers.trials.trans (Nat.zero_add _)

end SetDomain

end MissBound
