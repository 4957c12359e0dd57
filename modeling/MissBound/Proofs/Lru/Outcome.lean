import MissBound.Lru.Outcome
import MissBound.Proofs.Lru.AlwaysHit

/-!
What the counts of an access in a set say about the line found for it.
-/

namespace MissBound

/-- The second tally has `n` more trials, none of which is a sure hit or unclassified. -/
structure Tally.Gains (n : Nat) (t t' : Tally) : Prop where
  trials : t'.trials = t.trials + n
  alwaysHit : t'.alwaysHit = t.alwaysHit
  notClassified : t'.notClassified = t.notClassified

namespace Tally.Gains

variable {t t' t'' : Tally} {m n : Nat}

theorem trans (h : Gains m t' t'') (h' : Gains n t t') : Gains (m + n) t t'' where
  trials := by rw [h.trials, h'.trials, Nat.add_assoc, Nat.add_comm n]
  alwaysHit := h.alwaysHit.trans h'.alwaysHit
  notClassified := h.notClassified.trans h'.notClassified

theorem mayMiss : Gains 1 t { t with mayMiss := t.mayMiss + 1 } :=
  ⟨by simp only [Tally.trials]; omega, rfl, rfl⟩

theorem alwaysMiss : Gains 1 t { t with alwaysMiss := t.alwaysMiss + 1 } :=
  ⟨by simp only [Tally.trials]; omega, rfl, rfl⟩

theorem persistent : Gains 1 t { t with persistent := t.persistent + 1 } :=
  ⟨by simp only [Tally.trials]; omega, rfl, rfl⟩

end Tally.Gains

namespace SetDomain

variable {D : SetDomain} {e : Affine} {space : Odometer} {s : SetState} {a : DataUse}

/-- The block of the trial at a position, if it lies in the set. -/
def blockAt? (D : SetDomain) (e : Affine) (o : Odometer) : Option Nat :=
  ((o.eval? e).filter fun a => D.cache.set a == D.set).map D.cache.block

/-- The trials that lie in the set, in order, with their blocks. -/
def trials (D : SetDomain) (e : Affine) (space : Odometer) : List (Odometer × Nat) :=
  (Odometer.positions space.size space).filterMap fun o => (D.blockAt? e o).map (o, ·)

theorem blockAt?_eq_some {o : Odometer} {x : Nat} : D.blockAt? e o = some x ↔
    ∃ address, o.eval? e = some address ∧ D.cache.set address = D.set ∧
      D.cache.block address = x := by
  unfold blockAt?
  simp only [Option.map_eq_some_iff, Option.filter_eq_some_iff, beq_iff_eq, and_assoc]

theorem mem_trials {o : Odometer} {x : Nat} : (o, x) ∈ D.trials e space ↔
    o ∈ Odometer.positions space.size space ∧ D.blockAt? e o = some x := by
  unfold trials
  simp only [List.mem_filterMap, Option.map_eq_some_iff, Prod.mk.injEq]
  constructor
  · rintro ⟨_, ho, _, hx, rfl, rfl⟩
    exact ⟨ho, hx⟩
  · rintro ⟨ho, hx⟩
    exact ⟨o, ho, x, hx, rfl, rfl⟩

theorem foldTrials_eq {α : Type} {f : α → Odometer → Nat → α} {init : α} :
    D.foldTrials e space f init = (D.trials e space).foldl (fun acc x => f acc x.1 x.2) init := by
  unfold foldTrials trials
  generalize space.size = n
  induction n generalizing space init with
  | zero => rfl
  | succ n ih =>
    rw [Odometer.foldNext, ih, Odometer.positions, List.filterMap_cons]
    unfold blockAt?
    cases space.eval? e with
    | none => rfl
    | some a =>
      simp only [Option.filter_some]
      cases D.cache.set a == D.set <;> rfl

theorem countTrials_eq : D.countTrials e space = (D.trials e space).length := by
  rw [countTrials, foldTrials_eq, List.foldl_add_const, Nat.one_mul, Nat.zero_add]

theorem exists_trial (h : 0 < D.countTrials e space) :
    ∃ o address, Odometer.eval? o e = some address ∧ D.cache.set address = D.set := by
  rw [countTrials_eq] at h
  obtain ⟨⟨o, x⟩, hmem⟩ := List.exists_mem_of_length_pos h
  obtain ⟨address, heval, hset, -⟩ := blockAt?_eq_some.mp (mem_trials.mp hmem).2
  exact ⟨o, address, heval, hset⟩

/-- A fold over trials that adds each of them to a tally adds their number. -/
theorem gains_foldl {α β : Type} {f : α → β → α} (tally : α → Tally)
    (hf : ∀ acc x, Tally.Gains 1 (tally acc) (tally (f acc x))) (xs : List β) (init : α) :
    Tally.Gains xs.length (tally init) (tally (xs.foldl f init)) := by
  induction xs generalizing init with
  | nil => exact ⟨rfl, rfl, rfl⟩
  | cons x xs ih => exact List.length_cons ▸ (ih (f init x)).trans (hf init x)

theorem gains_countPersistent {looped : Bool} :
    Tally.Gains (D.trials e space).length .zero (D.countPersistent e space looped).1 := by
  rw [countPersistent, foldTrials_eq]
  refine gains_foldl (fun acc : Tally × Nat × Option Nat => acc.1) ?_ _ (.zero, 0, none)
  intro acc x
  simp only
  split
  · exact .mayMiss
  · split
    · exact .alwaysMiss
    · exact .persistent

theorem gains_countOthers {others : List Affine} :
    Tally.Gains (D.trials e space).length .zero (D.countOthers e space others).1 := by
  rw [countOthers, foldTrials_eq]
  refine gains_foldl (fun t => t) ?_ _ .zero
  intro t x
  split
  · exact .mayMiss
  · exact .alwaysMiss

/-- Trials count as hits only if the access has a line that cannot have been evicted. -/
theorem ensures_of_alwaysHit (h : 0 < (D.countMisses s a).1.alwaysHit) :
    a.cached = true ∧ D.ensures s a = true ∧ ∃ e space, D.normalize a.reference = .affine e ∧
      0 < D.countTrials e space := by
  unfold countMisses at h
  simp only at h
  split at h
  · rename_i e space hnorm _
    split at h
    · exact absurd h (Nat.lt_irrefl 0)
    · rename_i hcached
      split at h
      · rename_i hline
        refine ⟨by simpa using hcached, hline, e, space, hnorm, h⟩
      · split at h
        · exact absurd h (by rw [gains_countPersistent.alwaysHit]; exact Nat.lt_irrefl 0)
        · exact absurd h (by rw [gains_countOthers.alwaysHit]; exact Nat.lt_irrefl 0)
  · exact absurd h (Nat.lt_irrefl 0)

end SetDomain

end MissBound
