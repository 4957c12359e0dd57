import MissBound.Fixpoint
import MissBound.Proofs.Program.Crossing

/-!
A worklist with flags. At every moment a block is flagged if and only if it waits in the queue, and
it waits there once; a run therefore does the same as one that searches the queue.
-/

namespace MissBound

theorem Progress.getD_set {σ : Type} {xs : List σ} {s d : σ} {i j : Nat} (hi : i < xs.length) :
    (xs.set i s)[j]?.getD d = if j = i then s else xs[j]?.getD d := by
  rw [List.getElem?_set]
  by_cases h : i = j
  · subst h
    simp [hi]
  · rw [if_neg h, if_neg (Ne.symm h)]

theorem Progress.getD_replicate {σ : Type} {i : Nat} (s : σ) (n : Nat) :
    (List.replicate n s)[i]?.getD s = s := by
  rw [List.getElem?_replicate]
  split <;> rfl

namespace Worklist

variable {σ : Type} {A : Analysis σ} {G : FlowGraph} {w : Worklist σ} {b n : Nat}

/-- The flags tell which blocks are in the queue, and each is there once. -/
structure Flagged (G : FlowGraph) (w : Worklist σ) : Prop where
  length : w.waiting.length = G.blockCount
  nodup : w.queue.Nodup
  waiting_iff : ∀ b, w.isWaiting b = true ↔ b ∈ w.queue

theorem isWaiting_set {p : Progress σ} {v : Bool} (hn : n < w.waiting.length) :
    (⟨p, w.waiting.set n v⟩ : Worklist σ).isWaiting b = if b = n then v else w.isWaiting b :=
  Progress.getD_set hn

theorem getD_foldl_set {blocks : List Nat} : ∀ {flags : List Bool},
    (∀ n ∈ blocks, n < flags.length) →
    ((blocks.foldl (fun flags n => flags.set n true) flags)[b]?.getD false = true ↔
      b ∈ blocks ∨ flags[b]?.getD false = true) := by
  induction blocks with
  | nil => simp
  | cons n blocks ih =>
    intro flags hlt
    obtain ⟨hn, hlt⟩ := List.forall_mem_cons.mp hlt
    rw [List.foldl_cons, ih (by simpa using hlt), Progress.getD_set hn, List.mem_cons]
    by_cases hbn : b = n
    · simp [hbn]
    · simp [hbn]

theorem flagged_start (B : G.Built) : Flagged G (start A G) where
  length := by
    have hlen : ∀ (blocks : List Nat) (flags : List Bool),
        (blocks.foldl (fun flags n => flags.set n true) flags).length = flags.length := by
      intro blocks
      induction blocks with
      | nil => exact fun _ => rfl
      | cons n blocks ih => exact fun flags => (ih _).trans List.length_set
    exact (hlen _ _).trans List.length_replicate
  nodup := Digraph.nodup_reversePostorder B.closed B.entry_lt
  waiting_iff b := by
    have hlt : ∀ n ∈ G.order, n < (List.replicate G.blockCount false).length := by
      intro n hn
      rw [List.length_replicate]
      exact Digraph.reversePostorder_lt B.closed B.entry_lt hn
    refine (getD_foldl_set hlt).trans ?_
    rw [Progress.getD_replicate, or_iff_left Bool.false_ne_true]
    rfl

namespace Flagged

variable (h : Flagged G w)
include h

theorem lt_of_mem (hb : b ∈ w.queue) : b < G.blockCount := by
  have hflag := (h.waiting_iff b).mpr hb
  by_contra hlt
  rw [isWaiting, List.getElem?_eq_none (h.length ▸ Nat.le_of_not_lt hlt)] at hflag
  cases hflag

/-- The first block leaves the queue for good, since it stood there once. -/
theorem take {rest : List Nat} (hq : w.queue = b :: rest) : Flagged G (w.take b rest) := by
  have hb : b < w.waiting.length := h.length ▸ h.lt_of_mem (hq ▸ List.mem_cons_self)
  have hnodup := h.nodup
  rw [hq, List.nodup_cons] at hnodup
  refine ⟨List.length_set.trans h.length, hnodup.2, fun c => ?_⟩
  rw [Worklist.take, isWaiting_set hb]
  by_cases hc : c = b
  · simpa [hc] using hnodup.1
  · have hiff := h.waiting_iff c
    rw [hq, List.mem_cons, or_iff_right hc] at hiff
    simpa [hc] using hiff

theorem enqueue (hb : b < G.blockCount) : Flagged G (w.enqueue b) := by
  unfold Worklist.enqueue
  split
  · exact h
  · rename_i hflag
    have hmem : b ∉ w.queue := fun hmem => hflag ((h.waiting_iff b).mpr hmem)
    refine ⟨List.length_set.trans h.length, ?_, fun c => ?_⟩
    · exact List.nodup_append.mpr ⟨h.nodup, List.nodup_singleton b,
        fun x hx y hy hxy => hmem (List.mem_singleton.mp hy ▸ hxy ▸ hx)⟩
    · rw [isWaiting_set (h.length ▸ hb)]
      by_cases hc : c = b
      · simp [hc]
      · simpa [hc] using h.waiting_iff c

/-- A block is appended unless it is in the queue. -/
theorem queue_enqueue : (w.enqueue b).toProgress =
    { w.toProgress with queue := if b ∈ w.queue then w.queue else w.queue ++ [b] } := by
  unfold Worklist.enqueue
  by_cases hflag : w.isWaiting b = true
  · rw [if_pos hflag, if_pos ((h.waiting_iff b).mp hflag)]
  · rw [if_neg hflag, if_neg fun hmem => hflag ((h.waiting_iff b).mpr hmem)]

end Flagged

theorem Flagged.send {e : Edge Crossing × Nat} (output : σ) (h : Flagged G w)
    (he : e.1.target < G.blockCount) :
    Flagged G (send A output w e) ∧ (send A output w e).toProgress =
      { w.toProgress with
        onEdges := (Progress.deliver A output (w.onEdges, w.queue) e).1
        queue := (Progress.deliver A output (w.onEdges, w.queue) e).2 } := by
  by_cases heq : A.equal (A.propagate e.1 output) (w.onEdges[e.2]?.getD A.bottom) = true
  · have hsend : Worklist.send A output w e = w := if_pos heq
    have hdeliver : Progress.deliver A output (w.onEdges, w.queue) e = (w.onEdges, w.queue) :=
      if_pos heq
    rw [hsend, hdeliver]
    exact ⟨h, rfl⟩
  · have hset : Flagged G { w with onEdges := w.onEdges.set e.2 (A.propagate e.1 output) } :=
      ⟨h.length, h.nodup, h.waiting_iff⟩
    have hsend : Worklist.send A output w e =
        { w with onEdges := w.onEdges.set e.2 (A.propagate e.1 output) }.enqueue e.1.target :=
      if_neg heq
    have hdeliver : Progress.deliver A output (w.onEdges, w.queue) e =
        (w.onEdges.set e.2 (A.propagate e.1 output),
          if e.1.target ∈ w.queue then w.queue else w.queue ++ [e.1.target]) := if_neg heq
    rw [hsend, hdeliver]
    exact ⟨hset.enqueue he, hset.queue_enqueue⟩

theorem Flagged.sendAll (output : σ) (edges : List (Edge Crossing × Nat)) :
    ∀ w : Worklist σ, Flagged G w → (∀ e ∈ edges, e.1.target < G.blockCount) →
    Flagged G (edges.foldl (Worklist.send A output) w) ∧
      (edges.foldl (Worklist.send A output) w).toProgress =
        { w.toProgress with
          onEdges := (edges.foldl (Progress.deliver A output) (w.onEdges, w.queue)).1
          queue := (edges.foldl (Progress.deliver A output) (w.onEdges, w.queue)).2 } := by
  induction edges with
  | nil => exact fun w h _ => ⟨h, rfl⟩
  | cons e edges ih =>
    intro w h hlt
    obtain ⟨he, hlt⟩ := List.forall_mem_cons.mp hlt
    obtain ⟨hone, heq⟩ := h.send (A := A) output he
    obtain ⟨hall, hrest⟩ := ih _ hone hlt
    refine ⟨hall, ?_⟩
    rw [List.foldl_cons, List.foldl_cons, hrest, heq]

section
variable (B : G.Built)
include B

theorem target_lt {e : Edge Crossing × Nat} (he : e ∈ G.graph.outgoing b) :
    e.1.target < G.blockCount := by
  have hmem := List.fst_mem_of_mem_zipIdx (List.mem_of_mem_filter he)
  exact (B.closed e.1 hmem).2

/-- A round keeps the flags right and visits the block at the head of the queue. -/
theorem Flagged.round {rest : List Nat} (h : Flagged G w) (hq : w.queue = b :: rest) :
    Flagged G (round A G w) ∧
      (round A G w).toProgress = Progress.visit A G { w.toProgress with queue := rest } b := by
  have hround : Worklist.round A G w = visit A G (w.take b rest) b := by
    rw [Worklist.round, hq]
  let input := A.input b (w.inputs[b]?.getD A.bottom) (Progress.arrivals A G w.onEdges b)
  obtain ⟨hsent, heq⟩ := Flagged.sendAll (A := A) (A.transfer b input) (G.graph.outgoing b)
    (w.take b rest) (h.take hq) fun e he => target_lt B he
  have hvisit : ∀ p : Progress σ,
      ((G.graph.outgoing b).foldl (Worklist.send A (A.transfer b input))
        (w.take b rest)).toProgress = p →
      (visit A G (w.take b rest) b).toProgress =
        { p with
          inputs := p.inputs.set b input
          outputs := p.outputs.set b (A.transfer b input)
          visited := b :: p.visited } := by
    rintro _ rfl
    rfl
  rw [hround]
  exact ⟨⟨hsent.length, hsent.nodup, hsent.waiting_iff⟩, hvisit _ heq⟩

/-- A run with flags is a run that searches the queue. -/
theorem Flagged.run (limit budget : Nat) : ∀ w : Worklist σ, Flagged G w →
    Worklist.run A G limit budget w =
      if (Progress.run A G budget w.toProgress).queue = [] then
        .ok (Progress.run A G budget w.toProgress)
      else .error (.visitLimit limit) := by
  induction budget with
  | zero =>
    intro w _
    rw [Worklist.run, Progress.run]
    simp only [List.isEmpty_iff]
  | succ budget ih =>
    intro w h
    rw [Worklist.run, Progress.run]
    cases hq : w.queue with
    | nil => simp [hq]
    | cons b rest =>
      obtain ⟨hround, heq⟩ := h.round (A := A) B hq
      simp only [List.isEmpty_cons, Bool.false_eq_true, if_false]
      rw [ih _ hround, heq]

theorem solve_eq (budget : Nat) : A.solve G budget =
    if (Progress.run A G budget (.start A G)).queue = [] then
      .ok (Progress.run A G budget (.start A G))
    else .error (.visitLimit budget) :=
  (flagged_start B).run B budget budget

end

end Worklist

end MissBound
