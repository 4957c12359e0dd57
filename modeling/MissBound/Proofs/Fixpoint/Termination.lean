import MissBound.Proofs.Digraph.Cycle
import MissBound.Proofs.Fixpoint

/-!
When a worklist runs dry. If some blocks cut all cycles, and every visit of one of them leaves its
input alone or brings it nearer to a limit, a run ends: between two such changes the blocks that
wait only get fewer, or lie further down on the way to the next cut. A run that comes back to what
it had before never ends.
-/

namespace MissBound.Progress

variable {σ : Type} {A : Analysis σ} {G : FlowGraph} {p q : Progress σ} {b i n : Nat} {output : σ}

theorem run_of_queue_nil (h : p.queue = []) : ∀ n, run A G n p = p
  | 0 => rfl
  | n + 1 => by
    rw [run]
    split
    · rfl
    · rename_i hq
      cases h.symm.trans hq

theorem run_add (m n : Nat) : ∀ p : Progress σ, run A G (m + n) p = run A G n (run A G m p) := by
  induction m with
  | zero =>
    intro p
    rw [Nat.zero_add]
    rfl
  | succ m ih =>
    intro p
    rw [Nat.succ_add, run, run]
    split
    · rename_i hq
      exact (run_of_queue_nil hq n).symm
    · exact ih _

theorem run_succ {rest : List Nat} (h : p.queue = b :: rest) :
    run A G (n + 1) p = run A G n (visit A G { p with queue := rest } b) := by
  rw [run, h]

section Queue

variable {edges : List (Edge Crossing × Nat)}

/-- Sending over edges appends some of their targets to the queue. -/
theorem exists_queue_eq (output : σ) (edges : List (Edge Crossing × Nat)) :
    ∀ before : List σ × List Nat, ∃ new,
      (edges.foldl (deliver A output) before).2 = before.2 ++ new ∧
      ∀ c ∈ new, ∃ e i, (e, i) ∈ edges ∧ e.target = c := by
  induction edges with
  | nil => exact fun before => ⟨[], (List.append_nil _).symm, List.forall_mem_nil _⟩
  | cons edge edges ih =>
    intro before
    obtain ⟨new, hnew, htargets⟩ := ih (deliver A output before edge)
    have hone : (deliver A output before edge).2 = before.2 ∨
        (deliver A output before edge).2 = before.2 ++ [edge.1.target] := by
      unfold deliver
      simp only
      split
      · exact .inl rfl
      · split
        · exact .inl rfl
        · exact .inr rfl
    have hmem : ∀ c ∈ new, ∃ e i, (e, i) ∈ edge :: edges ∧ e.target = c := by
      intro c hc
      obtain ⟨e, i, he, ht⟩ := htargets c hc
      exact ⟨e, i, List.mem_cons_of_mem _ he, ht⟩
    rw [List.foldl_cons, hnew]
    rcases hone with hone | hone
    · exact ⟨new, by rw [hone], hmem⟩
    · refine ⟨edge.1.target :: new, by rw [hone, List.append_assoc, List.singleton_append], ?_⟩
      exact List.forall_mem_cons.mpr ⟨⟨edge.1, edge.2, List.mem_cons_self, rfl⟩, hmem⟩

/-- Nothing happens on edges that have their state already. -/
theorem foldl_deliver_eq {before : List σ × List Nat} (h : ∀ e i, (e, i) ∈ edges →
      A.equal (A.propagate e output) (before.1[i]?.getD A.bottom) = true) :
    edges.foldl (deliver A output) before = before := by
  induction edges with
  | nil => rfl
  | cons edge edges ih =>
    have hone : deliver A output before edge = before := if_pos (h edge.1 edge.2 List.mem_cons_self)
    rw [List.foldl_cons, hone]
    exact ih fun e i he => h e i (List.mem_cons_of_mem _ he)

theorem exists_queue_visit (rest : List Nat) :
    ∃ new, (visit A G { p with queue := rest } b).queue = rest ++ new ∧
      ∀ c ∈ new, G.graph.Adjacent b c := by
  obtain ⟨new, hqueue, hnew⟩ := exists_queue_eq (A := A)
    (A.transfer b (A.input b (p.inputAt A b) (arrivals A G p.onEdges b))) (G.graph.outgoing b)
    (p.onEdges, rest)
  refine ⟨new, hqueue, fun c hc => ?_⟩
  obtain ⟨e, i, he, rfl⟩ := hnew c hc
  obtain ⟨hget, hs⟩ := mem_outgoing.mp he
  exact ⟨e, List.mem_of_getElem? hget, hs, rfl⟩

end Queue

/-- The state on every edge is what the present input of its source sends. -/
def Tracks (A : Analysis σ) (G : FlowGraph) (p : Progress σ) : Prop :=
  ∀ e i, G.graph.edges[i]? = some e →
    p.edgeAt A i = A.propagate e (A.transfer e.source (p.inputAt A e.source))

variable {M : Type} [AddCommMonoid M] [PartialOrder M]

/-- An analysis whose inputs at the blocks in `cut` change only towards a limit: each change lowers
their `slack`. -/
structure Descends (A : Analysis σ) (G : FlowGraph) (cut : Nat → Prop) (slack : σ → M)
    (P : Nat → σ → Prop) (Q : Edge Crossing → σ → Prop) : Prop where
  keeps : Keeps A G P Q
  equal : ∀ s t, A.equal s t = true ↔ s = t
  bottom : ∀ e, A.propagate e (A.transfer e.source A.bottom) = A.bottom
  input : ∀ b ∈ G.order, cut b → ∀ prev onEdges, P b prev →
    (∀ e (i : Nat), G.graph.edges[i]? = some e → Q e (onEdges[i]?.getD A.bottom)) →
    A.input b prev (arrivals A G onEdges b) ≠ prev →
      slack (A.input b prev (arrivals A G onEdges b)) < slack prev

open Classical in
/-- How far the inputs at the cut are from their limits. -/
noncomputable def slackOf (A : Analysis σ) (G : FlowGraph) (cut : Nat → Prop) (slack : σ → M)
    (p : Progress σ) : M :=
  ∑ b ∈ (Finset.range G.blockCount).filter cut, slack (p.inputAt A b)

open Classical in
omit [PartialOrder M] in
theorem slackOf_eq {cut : Nat → Prop} {slack : σ → M} {rest : List Nat} (V : Visited A G b rest p q)
    (h : cut b → q.inputAt A b = p.inputAt A b) :
    slackOf A G cut slack q = slackOf A G cut slack p := by
  refine Finset.sum_congr rfl fun c hc => ?_
  by_cases hcb : c = b
  · subst hcb
    rw [h (Finset.mem_filter.mp hc).2]
  · rw [(V.other c hcb).1]

open Classical in
theorem slackOf_lt [IsOrderedCancelAddMonoid M] {cut : Nat → Prop} {slack : σ → M} {rest : List Nat}
    (V : Visited A G b rest p q) (hb : b < G.blockCount) (hbc : cut b)
    (h : slack (q.inputAt A b) < slack (p.inputAt A b)) :
    slackOf A G cut slack q < slackOf A G cut slack p := by
  have hmem : b ∈ (Finset.range G.blockCount).filter cut := by simp [hb, hbc]
  refine Finset.sum_lt_sum (fun c _ => ?_) ⟨b, hmem, h⟩
  by_cases hcb : c = b
  · exact hcb ▸ h.le
  · rw [(V.other c hcb).1]

open Classical in
/-- How many blocks a change at `b` may wake before the next cut. -/
noncomputable def height (G : FlowGraph) (cut : Nat → Prop) (b : Nat) : Nat :=
  if cut b then 0 else (G.graph.avoiding cut b).card + 1

/-- What gets smaller with every visit. -/
noncomputable def remaining (A : Analysis σ) (G : FlowGraph) (cut : Nat → Prop) (slack : σ → M)
    (p : Progress σ) : M × Multiset Nat :=
  (slackOf A G cut slack p, (p.queue.map (height G cut) : List Nat))

theorem height_lt {cut : Nat → Prop} (B : G.Built) (hcut : G.graph.Cuts G.entry cut)
    (hb : G.graph.Reaches G.entry b) (hnot : ¬cut b) {c : Nat} (hbc : G.graph.Adjacent b c) :
    height G cut c < height G cut b := by
  have hlt := Finset.card_lt_card (hcut.avoiding_ssubset B.closed hb hbc hnot)
  unfold height
  rw [if_neg hnot]
  split <;> omega

/-- A queue gets smaller if its first block is replaced by blocks of less height. -/
theorem queue_lt {f : Nat → Nat} {rest new : List Nat} (h : ∀ c ∈ new, f c < f b) :
    Multiset.IsDershowitzMannaLT (((rest ++ new).map f : List Nat) : Multiset Nat)
      (((b :: rest).map f : List Nat) : Multiset Nat) := by
  refine ⟨(rest.map f : List Nat), (new.map f : List Nat), {f b}, Multiset.singleton_ne_zero _,
    ?_, ?_, fun y hy => ?_⟩
  · rw [List.map_append, Multiset.coe_add]
  · rw [List.map_cons, ← Multiset.cons_coe, ← Multiset.singleton_add, add_comm]
  · obtain ⟨c, hc, rfl⟩ := List.mem_map.mp (Multiset.mem_coe.mp hy)
    exact ⟨f b, Multiset.mem_singleton_self _, h c hc⟩

theorem queue_visit_of_tracks (rest : List Nat) (hequal : ∀ s t, A.equal s t = true ↔ s = t)
    (T : Tracks A G p)
    (hin : A.input b (p.inputAt A b) (arrivals A G p.onEdges b) = p.inputAt A b) :
    (visit A G { p with queue := rest } b).queue = rest := by
  change ((G.graph.outgoing b).foldl
    (deliver A (A.transfer b (A.input b (p.inputAt A b) (arrivals A G p.onEdges b))))
    (p.onEdges, rest)).2 = rest
  rw [hin, foldl_deliver_eq]
  intro e i he
  obtain ⟨hget, rfl⟩ := mem_outgoing.mp he
  exact (hequal _ _).mpr (T e i hget).symm

theorem Visited.tracks {rest : List Nat} (V : Visited A G b rest p q)
    (hequal : ∀ s t, A.equal s t = true → s = t) (T : Tracks A G p) : Tracks A G q := by
  intro e i hget
  by_cases hs : e.source = b
  · subst hs
    rw [← V.output, edgeAt]
    rcases V.delivered.sent e i (mem_outgoing.mpr ⟨hget, rfl⟩) with h | ⟨h, heq⟩
    · rw [h]
      rfl
    · rw [h]
      exact (hequal _ _ heq).symm
  · rw [(V.other _ hs).1, edgeAt, V.onEdges_eq hget hs]
    exact T e i hget

namespace Descends

variable {cut : Nat → Prop} {slack : σ → M} {P : Nat → σ → Prop} {Q : Edge Crossing → σ → Prop}
  (D : Descends A G cut slack P Q)
include D

omit [AddCommMonoid M] in
theorem tracks_start : Tracks A G (start A G) := by
  intro e i _
  rw [inputAt_start, edgeAt_start, D.bottom]

variable [IsOrderedCancelAddMonoid M]

/-- Every visit brings a run nearer to its end. -/
theorem remaining_lt {rest : List Nat} (B : G.Built) (hcut : G.graph.Cuts G.entry cut)
    (C : Consistent A G P Q p) (T : Tracks A G p) (hq : p.queue = b :: rest) :
    Prod.Lex (· < ·) Multiset.IsDershowitzMannaLT
      (remaining A G cut slack (visit A G { p with queue := rest } b))
      (remaining A G cut slack p) := by
  have hb : b ∈ G.order := C.queued b (hq ▸ List.mem_cons_self)
  have V := C.visited B hq
  by_cases hbc : cut b
  · by_cases hin : A.input b (p.inputAt A b) (arrivals A G p.onEdges b) = p.inputAt A b
    · -- The edges out of `b` hold what its input sends, so that no block is woken.
      have hqueue := queue_visit_of_tracks rest D.equal T hin
      rw [remaining, remaining, slackOf_eq V fun _ => V.input.trans hin, hqueue, hq]
      refine Prod.Lex.right _ ?_
      simpa only [List.append_nil] using queue_lt (f := height G cut) (List.forall_mem_nil _)
    · refine Prod.Lex.left _ _ (slackOf_lt V (C.lt_of_queue B hq) hbc ?_)
      rw [V.input]
      exact D.input b hb hbc _ _ (C.inputs b) C.edges hin
  · obtain ⟨new, hqueue, hnew⟩ := exists_queue_visit (A := A) (G := G) (p := p) (b := b) rest
    rw [remaining, remaining, slackOf_eq V fun h => absurd h hbc, hqueue, hq]
    refine Prod.Lex.right _ ?_
    exact queue_lt fun c hc => height_lt B hcut (B.mem_order.mp hb) hbc (hnew c hc)

variable [WellFoundedLT M]

theorem exists_run_queue_nil (B : G.Built) (hcut : G.graph.Cuts G.entry cut) :
    ∀ p, Consistent A G P Q p → Tracks A G p → ∃ n, (run A G n p).queue = [] := by
  have hwf : WellFounded fun p q : Progress σ => Prod.Lex (· < ·) Multiset.IsDershowitzMannaLT
      (remaining A G cut slack p) (remaining A G cut slack q) :=
    InvImage.wf _ (wellFounded_lt.prod_lex Multiset.wellFounded_isDershowitzMannaLT)
  intro p
  induction p using hwf.induction with
  | h p ih =>
    intro C T
    rcases hq : p.queue with _ | ⟨b, rest⟩
    · exact ⟨0, hq⟩
    · have hT := (C.visited B hq).tracks (fun s t => (D.equal s t).mp) T
      obtain ⟨n, hn⟩ := ih _ (D.remaining_lt B hcut C T hq) (C.visit B D.keeps hq) hT
      exact ⟨n + 1, run_succ hq ▸ hn⟩

/-- With enough visits every run ends, always in the same state. -/
theorem exists_solve (B : G.Built) (hcut : G.graph.Cuts G.entry cut) :
    ∃ n p, ∀ budget, n ≤ budget → A.solve G budget = .ok p := by
  obtain ⟨n, hn⟩ := D.exists_run_queue_nil B hcut _ (consistent_start D.keeps) D.tracks_start
  refine ⟨n, run A G n (start A G), fun budget hle => (solve_eq_ok B).mpr ⟨?_, hn⟩⟩
  obtain ⟨k, rfl⟩ := Nat.exists_eq_add_of_le hle
  rw [run_add, run_of_queue_nil hn]

end Descends

section Recurrence

/-- A run without the record of its visits. -/
def forget (p : Progress σ) : Progress σ := { p with visited := [] }

/-- The record of the visits has no effect on a run. -/
theorem forget_run (n : Nat) : ∀ p q : Progress σ, p.forget = q.forget →
    (run A G n p).forget = (run A G n q).forget := by
  induction n with
  | zero => exact fun _ _ h => h
  | succ n ih =>
    intro p q h
    obtain ⟨hinputs, houtputs, hedges, hqueue, -⟩ := Progress.mk.inj h
    rcases hq : q.queue with _ | ⟨b, rest⟩
    · rw [run_of_queue_nil hq, run_of_queue_nil (hqueue.trans hq), h]
    · rw [run_succ hq, run_succ (hqueue.trans hq)]
      refine ih _ _ ?_
      simp only [forget, visit, hinputs, houtputs, hedges]

theorem forget_run_mul {t : Nat} (h : (run A G t p).forget = p.forget) (m : Nat) :
    (run A G (m * t) p).forget = p.forget := by
  induction m with
  | zero =>
    rw [Nat.zero_mul]
    rfl
  | succ m ih => rw [Nat.succ_mul, run_add, forget_run t _ _ ih, h]

/-- A run that comes back to where it was never ends. -/
theorem solve_eq_error_of_recurs {k t : Nat} (B : G.Built) (ht : 0 < t)
    (hp : run A G k (start A G) = p) (hq : p.queue ≠ [])
    (h : (run A G t p).forget = p.forget) (budget : Nat) :
    A.solve G budget = .error (.visitLimit budget) := by
  refine (solve_eq_error B).mpr ⟨fun hnil => hq ?_, rfl⟩
  have hlate : (run A G (budget * t) p).queue = p.queue :=
    (Progress.mk.inj (forget_run_mul h budget)).2.2.2.1
  have hle : budget ≤ k + budget * t :=
    (Nat.le_mul_of_pos_right budget ht).trans (Nat.le_add_left ..)
  obtain ⟨d, hd⟩ := Nat.exists_eq_add_of_le hle
  rw [← hlate, ← hp, ← run_add, hd, run_add, run_of_queue_nil hnil, hnil]

end Recurrence

end MissBound.Progress
