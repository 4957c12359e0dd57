import MissBound.Proofs.Fixpoint.Equations
import MissBound.Proofs.Fixpoint.Termination

/-!
What the budget of a run decides: whether it ends, and nothing else. Two runs with different budgets
take the same steps for as long as both go on, so a run that ends does so after a fixed number of
visits, with any budget that allows them and with no smaller one.
-/

namespace MissBound

variable {σ : Type} {A : Analysis σ} {G : FlowGraph} {p : Progress σ}

namespace Progress

/-- A run that ends has its last visit after `n` of them, and blocks wait before. -/
theorem exists_visits (budget : Nat) : ∀ p : Progress σ, (run A G budget p).queue = [] →
    ∃ n ≤ budget, run A G n p = run A G budget p ∧
      (run A G budget p).visits = p.visits + n ∧ ∀ k < n, (run A G k p).queue ≠ [] := by
  induction budget with
  | zero => exact fun p _ => ⟨0, Nat.le_refl _, rfl, rfl, fun k hk => absurd hk (Nat.not_lt_zero k)⟩
  | succ budget ih =>
    intro p hend
    rcases hq : p.queue with _ | ⟨b, rest⟩
    · rw [run_of_queue_nil hq]
      exact ⟨0, Nat.zero_le _, rfl, rfl, fun k hk => absurd hk (Nat.not_lt_zero k)⟩
    · rw [run_succ hq] at hend ⊢
      obtain ⟨n, hn, hrun, hvisits, hbefore⟩ := ih _ hend
      have hone : (visit A G { p with queue := rest } b).visits = p.visits + 1 := rfl
      refine ⟨n + 1, Nat.succ_le_succ hn, (run_succ hq).trans hrun, ?_, fun k hk => ?_⟩
      · rw [hvisits, hone, Nat.add_assoc, Nat.add_comm 1]
      · cases k with
        | zero => exact fun hnil => by cases hq.symm.trans hnil
        | succ k => exact run_succ hq ▸ hbefore k (Nat.lt_of_succ_lt_succ hk)

/-- A run that ends ends in the same way with every budget that allows its visits, and with no other
one. -/
theorem solve_of_visits {budget : Nat} (B : G.Built) (h : A.solve G budget = .ok p) :
    p.visits ≤ budget ∧ (∀ budget', p.visits ≤ budget' → A.solve G budget' = .ok p) ∧
      ∀ budget' < p.visits, A.solve G budget' = .error (.visitLimit budget') := by
  obtain ⟨rfl, hend⟩ := (solve_eq_ok B).mp h
  obtain ⟨n, hn, hrun, hvisits, hbefore⟩ := exists_visits budget _ hend
  have hstart : (start A G).visits = 0 := rfl
  rw [hstart, Nat.zero_add] at hvisits
  rw [hvisits]
  refine ⟨hn, fun budget' hle => (solve_eq_ok B).mpr ⟨?_, hend⟩, fun budget' hlt => ?_⟩
  · obtain ⟨d, rfl⟩ := Nat.exists_eq_add_of_le hle
    rw [run_add, hrun, run_of_queue_nil hend]
  · exact (solve_eq_error B).mpr ⟨hbefore budget' hlt, rfl⟩

end Progress

namespace Worklist

/-- The flags are right after any number of rounds. -/
theorem flagged_iterate (B : G.Built) (n : Nat) : Flagged G ((round A G)^[n] (start A G)) := by
  induction n with
  | zero => exact flagged_start B
  | succ n ih =>
    rw [Function.iterate_succ_apply']
    rcases hq : ((round A G)^[n] (start A G)).queue with _ | ⟨b, rest⟩
    · rw [round, hq]
      exact ih
    · exact (ih.round B hq).1

/-- If a run ends after some visits, the budget has room for them, every budget with room for them
gives the same result, and every smaller one is reported as too small. In the course of any run,
between two visits as well as within one after each edge, no block is queued twice and the flags say
which blocks are queued. -/
theorem budget_only_cuts {blocks : List Block} {edges : List (Nat × Nat)}
    {bounds : List (Nat × LoopBound)} {entry : Nat}
    (hG : FlowGraph.build blocks edges bounds entry = .ok G) (A : Analysis σ) :
    (∀ m p, A.solve G m = .ok p →
      p.visits ≤ m ∧ (∀ m', p.visits ≤ m' → A.solve G m' = .ok p) ∧
        ∀ m' < p.visits, A.solve G m' = .error (.visitLimit m')) ∧
    ∀ n, let w := (round A G)^[n] (start A G)
      (w.queue.Nodup ∧ ∀ b, w.isWaiting b = true ↔ b ∈ w.queue) ∧
      ∀ block rest, w.queue = block :: rest → ∀ output k,
        let v := ((G.graph.outgoing block).take k).foldl (send A output) (w.take block rest)
        v.queue.Nodup ∧ ∀ b, v.isWaiting b = true ↔ b ∈ v.queue := by
  have B := FlowGraph.built_of_build hG
  refine ⟨fun m p => Progress.solve_of_visits B, fun n => ?_⟩
  have h := flagged_iterate (A := A) B n
  refine ⟨⟨h.nodup, h.waiting_iff⟩, fun block rest hq output k => ?_⟩
  have hsent := (Flagged.sendAll (A := A) output ((G.graph.outgoing block).take k) _ (h.take hq)
    fun e he => target_lt B (List.mem_of_mem_take he)).1
  exact ⟨hsent.nodup, hsent.waiting_iff⟩

end Worklist

/-- A loop of one block is visited until its length is known. -/
theorem budget_only_cuts_stray :
    FlowGraph.build [⟨0, []⟩, ⟨4, []⟩, ⟨8, []⟩, ⟨12, []⟩] [(0, 1), (1, 1), (1, 3), (2, 3)] [] 0 =
      .ok strayGraph ∧
    (walkLengths 5).solve strayGraph 20 = .ok strayLengths ∧
    (walkLengths 5).solve strayGraph 9 = .ok strayLengths ∧
    (walkLengths 5).solve strayGraph 8 = .error (.visitLimit 8) := by
  have hG : FlowGraph.build [⟨0, []⟩, ⟨4, []⟩, ⟨8, []⟩, ⟨12, []⟩] [(0, 1), (1, 1), (1, 3), (2, 3)]
    [] 0 = .ok strayGraph := rfl
  have hp : (walkLengths 5).solve strayGraph 20 = .ok strayLengths := rfl
  obtain ⟨-, hlarge, hsmall⟩ := (Worklist.budget_only_cuts hG (walkLengths 5)).1 20 _ hp
  exact ⟨hG, hp, hlarge 9 (by decide), hsmall 8 (by decide)⟩

end MissBound
