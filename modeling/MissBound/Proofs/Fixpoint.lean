import MissBound.Proofs.Fixpoint.Worklist

/-!
What a worklist leaves behind. While it runs, every block that does not wait has an input computed
from the states now on its incoming edges, so that an empty queue means a solution of the flow
equations.
-/

namespace MissBound

/-- How far an analysis has come after some visits. -/
def Analysis.after {σ : Type} (A : Analysis σ) (G : FlowGraph) (visits : Nat) : Progress σ :=
  .run A G visits (.start A G)

namespace Progress

variable {σ : Type} {A : Analysis σ} {G : FlowGraph} {p : Progress σ} {b i : Nat}

def inputAt (A : Analysis σ) (p : Progress σ) (b : Nat) : σ := p.inputs[b]?.getD A.bottom

def outputAt (A : Analysis σ) (p : Progress σ) (b : Nat) : σ := p.outputs[b]?.getD A.bottom

def edgeAt (A : Analysis σ) (p : Progress σ) (i : Nat) : σ := p.onEdges[i]?.getD A.bottom

/-- What sending `output` over some edges does to the states and the queue. -/
structure Delivered (A : Analysis σ) (output : σ) (edges : List (Edge Crossing × Nat))
    (before after : List σ × List Nat) : Prop where
  length : after.1.length = before.1.length
  other : ∀ i, (∀ e, (e, i) ∉ edges) → after.1[i]? = before.1[i]?
  sent : ∀ e i, (e, i) ∈ edges → after.1[i]? = some (A.propagate e output) ∨
    after.1[i]? = before.1[i]? ∧ A.equal (A.propagate e output) (before.1[i]?.getD A.bottom) = true
  kept : ∀ b ∈ before.2, b ∈ after.2
  added : ∀ b ∈ after.2, b ∈ before.2 ∨ ∃ e i, (e, i) ∈ edges ∧ e.target = b
  woken : ∀ e i, (e, i) ∈ edges → after.1[i]? ≠ before.1[i]? → e.target ∈ after.2

theorem delivered_deliver {output : σ} {before : List σ × List Nat} {e : Edge Crossing}
    (hi : i < before.1.length) :
    Delivered A output [(e, i)] before (deliver A output before (e, i)) := by
  have hother : ∀ (s : σ) j, (∀ e', (e', j) ∉ [(e, i)]) →
      (before.1.set i s)[j]? = before.1[j]? := by
    intro s j hj
    refine List.getElem?_set_ne fun hij => ?_
    exact hj e (hij ▸ List.mem_singleton_self _)
  by_cases heq : A.equal (A.propagate e output) (before.1[i]?.getD A.bottom) = true
  · have hd : deliver A output before (e, i) = before := if_pos heq
    rw [hd]
    refine ⟨rfl, fun _ _ => rfl, fun e' j hj => ?_, fun _ hb => hb, fun _ hb => .inl hb, ?_⟩
    · cases List.mem_singleton.mp hj
      exact .inr ⟨rfl, heq⟩
    · exact fun _ _ _ hne => absurd rfl hne
  · have hd : deliver A output before (e, i) = (before.1.set i (A.propagate e output),
        if e.target ∈ before.2 then before.2 else before.2 ++ [e.target]) := if_neg heq
    rw [hd]
    refine ⟨List.length_set, hother _, fun e' j hj => ?_, fun b hb => ?_, fun b hb => ?_, ?_⟩
    · cases List.mem_singleton.mp hj
      exact .inl (List.getElem?_set_self hi)
    · simp only
      split
      · exact hb
      · exact List.mem_append_left _ hb
    · simp only at hb
      split at hb
      · exact .inl hb
      · rcases List.mem_append.mp hb with hb | hb
        · exact .inl hb
        · exact .inr ⟨e, i, List.mem_singleton_self _, (List.mem_singleton.mp hb).symm⟩
    · intro e' j hj _
      cases List.mem_singleton.mp hj
      simp only
      split
      · assumption
      · exact List.mem_append_right _ (List.mem_singleton_self _)

/-- Sending over one more edge, which has a place of its own. -/
theorem Delivered.cons {output : σ} {edges : List (Edge Crossing × Nat)}
    {before mid after : List σ × List Nat} {e : Edge Crossing} (hi : ∀ e', (e', i) ∉ edges)
    (h₁ : Delivered A output [(e, i)] before mid) (h₂ : Delivered A output edges mid after) :
    Delivered A output ((e, i) :: edges) before after := by
  have hmid : after.1[i]? = mid.1[i]? := h₂.other i hi
  have hrest : ∀ e' j, (e', j) ∈ edges → mid.1[j]? = before.1[j]? := by
    intro e' j hj
    refine h₁.other j fun e'' hmem => ?_
    cases List.mem_singleton.mp hmem
    exact hi e' hj
  refine ⟨h₂.length.trans h₁.length, fun j hj => ?_, fun e' j hj => ?_, fun b hb => ?_,
    fun b hb => ?_, fun e' j hj hne => ?_⟩
  · rw [h₂.other j fun e' hmem => hj e' (List.mem_cons_of_mem _ hmem)]
    refine h₁.other j fun e' hmem => hj e' ?_
    exact List.mem_cons.mpr (.inl (List.mem_singleton.mp hmem))
  · rcases List.mem_cons.mp hj with heq | hj
    · cases heq
      rw [hmid]
      exact h₁.sent e i (List.mem_singleton_self _)
    · rw [← hrest e' j hj]
      exact h₂.sent e' j hj
  · exact h₂.kept b (h₁.kept b hb)
  · rcases h₂.added b hb with hb | ⟨e', j, hj, ht⟩
    · rcases h₁.added b hb with hb | ⟨e', j, hj, ht⟩
      · exact .inl hb
      · exact .inr ⟨e', j, List.mem_cons.mpr (.inl (List.mem_singleton.mp hj)), ht⟩
    · exact .inr ⟨e', j, List.mem_cons_of_mem _ hj, ht⟩
  · rcases List.mem_cons.mp hj with heq | hj
    · cases heq
      rw [hmid] at hne
      exact h₂.kept _ (h₁.woken e i (List.mem_singleton_self _) hne)
    · rw [← hrest e' j hj] at hne
      exact h₂.woken e' j hj hne

theorem delivered_foldl {output : σ} (edges : List (Edge Crossing × Nat)) :
    ∀ before : List σ × List Nat, (edges.map (·.2)).Nodup →
      (∀ e i, (e, i) ∈ edges → i < before.1.length) →
      Delivered A output edges before (edges.foldl (deliver A output) before) := by
  induction edges with
  | nil =>
    intro before _ _
    exact ⟨rfl, fun _ _ => rfl, fun _ _ h => (by cases h), fun _ hb => hb, fun _ hb => .inl hb,
      fun _ _ h => (by cases h)⟩
  | cons edge edges ih =>
    intro before hd hlt
    obtain ⟨e, i⟩ := edge
    obtain ⟨hi, hd⟩ := List.nodup_cons.mp hd
    have h₁ : Delivered A output [(e, i)] before (deliver A output before (e, i)) :=
      delivered_deliver (hlt e i List.mem_cons_self)
    refine h₁.cons (fun e' hmem => hi (List.mem_map.mpr ⟨(e', i), hmem, rfl⟩)) (ih _ hd ?_)
    intro e' j hj
    rw [h₁.length]
    exact hlt e' j (List.mem_cons_of_mem _ hj)

/-- The flow equations at a block, `prev` being an earlier input that satisfies `P`. -/
structure Solved (A : Analysis σ) (G : FlowGraph) (P : σ → Prop) (p : Progress σ) (b : Nat) :
    Prop where
  input : ∃ prev, P prev ∧ p.inputAt A b = A.input b prev (arrivals A G p.onEdges b)
  output : p.outputAt A b = A.transfer b (p.inputAt A b)
  edges : ∀ e i, (e, i) ∈ G.graph.outgoing b → p.edgeAt A i = A.propagate e (p.outputAt A b) ∨
    A.equal (A.propagate e (p.outputAt A b)) (p.edgeAt A i) = true

/-- Properties of inputs and of states on edges that an analysis keeps. -/
structure Keeps (A : Analysis σ) (G : FlowGraph) (P : Nat → σ → Prop)
    (Q : Edge Crossing → σ → Prop) : Prop where
  bottom_input : ∀ b, P b A.bottom
  bottom_edge : ∀ e ∈ G.graph.edges, Q e A.bottom
  input : ∀ b ∈ G.order, ∀ prev onEdges, P b prev →
    (∀ e (i : Nat), G.graph.edges[i]? = some e → Q e (onEdges[i]?.getD A.bottom)) →
    P b (A.input b prev (arrivals A G onEdges b))
  edge : ∀ e ∈ G.graph.edges, e.source ∈ G.order → ∀ s, P e.source s →
    Q e (A.propagate e (A.transfer e.source s))

theorem keeps_true : Keeps A G (fun _ _ => True) fun _ _ => True :=
  ⟨fun _ => trivial, fun _ _ => trivial, fun _ _ _ _ _ _ => trivial, fun _ _ _ _ _ => trivial⟩

theorem Keeps.and {P P' : Nat → σ → Prop} {Q Q' : Edge Crossing → σ → Prop} (K : Keeps A G P Q)
    (K' : Keeps A G P' Q') : Keeps A G (fun b s => P b s ∧ P' b s) fun e s => Q e s ∧ Q' e s where
  bottom_input b := ⟨K.bottom_input b, K'.bottom_input b⟩
  bottom_edge e he := ⟨K.bottom_edge e he, K'.bottom_edge e he⟩
  input b hb prev onEdges hprev hedges :=
    ⟨K.input b hb prev onEdges hprev.1 fun e i hget => (hedges e i hget).1,
      K'.input b hb prev onEdges hprev.2 fun e i hget => (hedges e i hget).2⟩
  edge e he hs s h := ⟨K.edge e he hs s h.1, K'.edge e he hs s h.2⟩

/-- What holds at every moment of a run. -/
structure Consistent (A : Analysis σ) (G : FlowGraph) (P : Nat → σ → Prop)
    (Q : Edge Crossing → σ → Prop) (p : Progress σ) : Prop where
  inputs_length : p.inputs.length = G.blockCount
  outputs_length : p.outputs.length = G.blockCount
  edges_length : p.onEdges.length = G.edgeCount
  queued : ∀ b ∈ p.queue, b ∈ G.order
  solved : ∀ b ∈ G.order, b ∉ p.queue → Solved A G (P b) p b
  untouched : ∀ b, b ∉ G.order → p.inputAt A b = A.bottom ∧ p.outputAt A b = A.bottom
  untouched_edges : ∀ e i, G.graph.edges[i]? = some e → e.source ∉ G.order →
    p.edgeAt A i = A.bottom
  inputs : ∀ b, P b (p.inputAt A b)
  edges : ∀ e i, G.graph.edges[i]? = some e → Q e (p.edgeAt A i)

theorem mem_outgoing {e : Edge Crossing} :
    (e, i) ∈ G.graph.outgoing b ↔ G.graph.edges[i]? = some e ∧ e.source = b := by
  rw [Digraph.outgoing, List.mem_filter, List.mem_zipIdx_iff_getElem?, beq_iff_eq]

theorem mem_incoming {e : Edge Crossing} :
    (e, i) ∈ G.graph.incoming b ↔ G.graph.edges[i]? = some e ∧ e.target = b := by
  rw [Digraph.incoming, List.mem_filter, List.mem_zipIdx_iff_getElem?, beq_iff_eq]

theorem nodup_outgoing : ((G.graph.outgoing b).map (·.2)).Nodup := by
  refine List.Nodup.sublist (List.Sublist.map _ List.filter_sublist) ?_
  rw [List.zipIdx_map_snd]
  exact List.nodup_range'

/-- States on edges that agree on all edges into a block arrive alike. -/
theorem arrivals_congr {onEdges onEdges' : List σ} (h : ∀ (e : Edge Crossing) (i : Nat),
      G.graph.edges[i]? = some e → e.target = b → onEdges'[i]? = onEdges[i]?) :
    arrivals A G onEdges' b = arrivals A G onEdges b := by
  simp only [arrivals]
  refine congrArg _ (List.map_congr_left fun e he => ?_)
  obtain ⟨hget, ht⟩ := mem_incoming.mp he
  rw [h e.1 e.2 hget ht]

/-- What a visit of `b` does, which leaves `rest` in the queue. -/
structure Visited (A : Analysis σ) (G : FlowGraph) (b : Nat) (rest : List Nat) (p q : Progress σ) :
    Prop where
  inputs_length : q.inputs.length = p.inputs.length
  outputs_length : q.outputs.length = p.outputs.length
  input : q.inputAt A b = A.input b (p.inputAt A b) (arrivals A G p.onEdges b)
  output : q.outputAt A b = A.transfer b (q.inputAt A b)
  other : ∀ c, c ≠ b → q.inputAt A c = p.inputAt A c ∧ q.outputAt A c = p.outputAt A c
  delivered : Delivered A (q.outputAt A b) (G.graph.outgoing b) (p.onEdges, rest)
    (q.onEdges, q.queue)

theorem visited_visit {rest : List Nat} (hin : b < p.inputs.length) (hout : b < p.outputs.length)
    (hedges : p.onEdges.length = G.edgeCount) :
    Visited A G b rest p (visit A G { p with queue := rest } b) := by
  have hinput : (visit A G { p with queue := rest } b).inputAt A b =
      A.input b (p.inputAt A b) (arrivals A G p.onEdges b) :=
    (getD_set hin).trans (if_pos rfl)
  have houtput : (visit A G { p with queue := rest } b).outputAt A b =
      A.transfer b (A.input b (p.inputAt A b) (arrivals A G p.onEdges b)) :=
    (getD_set hout).trans (if_pos rfl)
  refine ⟨List.length_set, List.length_set, hinput, hinput ▸ houtput, fun c hc => ?_, ?_⟩
  · exact ⟨(getD_set hin).trans (if_neg hc), (getD_set hout).trans (if_neg hc)⟩
  · rw [houtput]
    refine delivered_foldl _ _ nodup_outgoing fun e i hmem => ?_
    exact hedges ▸ (List.getElem?_eq_some_iff.mp (mem_outgoing.mp hmem).1).1

namespace Visited

variable {rest : List Nat} {q : Progress σ} {c : Nat} {P : σ → Prop} (V : Visited A G b rest p q)
include V

theorem onEdges_eq {e : Edge Crossing} (hget : G.graph.edges[i]? = some e) (hne : e.source ≠ b) :
    q.onEdges[i]? = p.onEdges[i]? := by
  refine V.delivered.other i fun e' hmem => ?_
  obtain ⟨hget', hs⟩ := mem_outgoing.mp hmem
  cases Option.some.inj (hget.symm.trans hget')
  exact hne hs

/-- A state that changes on an edge wakes its target. -/
theorem arrivals_eq (hc : c ∉ q.queue) : arrivals A G q.onEdges c = arrivals A G p.onEdges c := by
  refine arrivals_congr fun e i hget ht => ?_
  by_cases hs : e.source = b
  · by_contra hne
    exact hc (ht ▸ V.delivered.woken e i (mem_outgoing.mpr ⟨hget, hs⟩) hne)
  · exact V.onEdges_eq hget hs

theorem solved_self (hP : P (p.inputAt A b)) (hb : b ∉ q.queue) : Solved A G P q b := by
  refine ⟨⟨p.inputAt A b, hP, ?_⟩, V.output, fun e i hmem => ?_⟩
  · rw [V.arrivals_eq hb]
    exact V.input
  · unfold edgeAt
    rcases V.delivered.sent e i hmem with h | ⟨h, heq⟩
    · exact .inl (by rw [h]; rfl)
    · exact .inr (by rw [h]; exact heq)

theorem solved_other (S : Solved A G P p c) (hne : c ≠ b) (hc : c ∉ q.queue) :
    Solved A G P q c := by
  obtain ⟨⟨prev, hprev, hinput⟩, houtput, hedges⟩ := S
  obtain ⟨hin, hout⟩ := V.other c hne
  refine ⟨⟨prev, hprev, ?_⟩, ?_, fun e i hmem => ?_⟩
  · rw [hin, V.arrivals_eq hc]
    exact hinput
  · rw [hin, hout]
    exact houtput
  · obtain ⟨hget, hs⟩ := mem_outgoing.mp hmem
    rw [hout, edgeAt, V.onEdges_eq hget (hs ▸ hne)]
    exact hedges e i hmem

end Visited

theorem solve_eq_ok {budget : Nat} (B : G.Built) :
    A.solve G budget = .ok p ↔ run A G budget (start A G) = p ∧ p.queue = [] := by
  rw [Worklist.solve_eq B]
  split
  · rename_i hq
    rw [Except.ok.injEq, iff_self_and]
    rintro rfl
    exact hq
  · rename_i hq
    simp only [reduceCtorEq, false_iff, not_and]
    rintro rfl
    exact hq

theorem solve_eq_error {budget : Nat} {f : Failure} (B : G.Built) :
    A.solve G budget = .error f ↔
      (run A G budget (start A G)).queue ≠ [] ∧ f = .visitLimit budget := by
  rw [Worklist.solve_eq B]
  split
  · rename_i hq
    simp [hq]
  · rename_i hq
    simp [hq, eq_comm]

section Start

theorem inputAt_start : inputAt A (start A G) b = A.bottom := getD_replicate ..

theorem outputAt_start : outputAt A (start A G) b = A.bottom := getD_replicate ..

theorem edgeAt_start : edgeAt A (start A G) i = A.bottom := getD_replicate ..

end Start

section
variable {P : Nat → σ → Prop} {Q : Edge Crossing → σ → Prop} (B : G.Built)
include B

theorem Consistent.lt_of_queue {rest : List Nat} (C : Consistent A G P Q p)
    (hq : p.queue = b :: rest) : b < G.blockCount :=
  Digraph.reversePostorder_lt B.closed B.entry_lt (C.queued b (hq ▸ List.mem_cons_self))

theorem Consistent.visited {rest : List Nat} (C : Consistent A G P Q p) (hq : p.queue = b :: rest) :
    Visited A G b rest p (Progress.visit A G { p with queue := rest } b) := by
  have hlt := C.lt_of_queue B hq
  exact visited_visit (C.inputs_length ▸ hlt) (C.outputs_length ▸ hlt) C.edges_length

variable (K : Keeps A G P Q)
include K

theorem Consistent.visit {rest : List Nat} (C : Consistent A G P Q p) (hq : p.queue = b :: rest) :
    Consistent A G P Q (visit A G { p with queue := rest } b) := by
  have hb : b ∈ G.order := C.queued b (hq ▸ List.mem_cons_self)
  have V := C.visited B hq
  generalize Progress.visit A G { p with queue := rest } b = q at V
  have hP : P b (q.inputAt A b) := by
    rw [V.input]
    exact K.input b hb _ p.onEdges (C.inputs b) C.edges
  refine ⟨V.inputs_length.trans C.inputs_length, V.outputs_length.trans C.outputs_length,
    V.delivered.length.trans C.edges_length, fun c hc => ?_, fun c hc hcq => ?_, fun c hc => ?_,
    fun e i hget hs => ?_, fun c => ?_, fun e i hget => ?_⟩
  · rcases V.delivered.added c hc with hc | ⟨e, i, hmem, rfl⟩
    · exact C.queued c (hq ▸ List.mem_cons_of_mem _ hc)
    · obtain ⟨hget, hs⟩ := mem_outgoing.mp hmem
      have hadj : G.graph.Adjacent b e.target := ⟨e, List.mem_of_getElem? hget, hs, rfl⟩
      exact B.mem_order.mpr ((B.mem_order.mp hb).step hadj)
  · by_cases hcb : c = b
    · subst hcb
      exact V.solved_self (C.inputs c) hcq
    · have hcp : c ∉ p.queue := by
        rw [hq, List.mem_cons]
        exact not_or.mpr ⟨hcb, fun h => hcq (V.delivered.kept c h)⟩
      exact V.solved_other (C.solved c hc hcp) hcb hcq
  · obtain ⟨hin, hout⟩ := V.other c fun h => hc (h ▸ hb)
    rw [hin, hout]
    exact C.untouched c hc
  · rw [edgeAt, V.onEdges_eq hget fun h => hs (h ▸ hb)]
    exact C.untouched_edges e i hget hs
  · by_cases hcb : c = b
    · exact hcb ▸ hP
    · rw [(V.other c hcb).1]
      exact C.inputs c
  · unfold edgeAt
    by_cases hs : e.source = b
    · rcases V.delivered.sent e i (mem_outgoing.mpr ⟨hget, hs⟩) with h | ⟨h, -⟩
      · rw [h, V.output]
        subst hs
        exact K.edge e (List.mem_of_getElem? hget) hb _ hP
      · rw [h]
        exact C.edges e i hget
    · rw [V.onEdges_eq hget hs]
      exact C.edges e i hget

theorem Consistent.run (budget : Nat) : ∀ p : Progress σ, Consistent A G P Q p →
    Consistent A G P Q (run A G budget p) := by
  induction budget with
  | zero => exact fun _ C => C
  | succ budget ih =>
    intro p C
    rw [Progress.run]
    split
    · exact C
    · rename_i hq
      exact ih _ (C.visit B K hq)

omit B in
theorem consistent_start : Consistent A G P Q (start A G) := by
  refine ⟨List.length_replicate, List.length_replicate, List.length_replicate, fun _ h => h,
    fun b hb hq => absurd hb hq, fun b _ => ⟨inputAt_start, outputAt_start⟩,
    fun _ _ _ _ => edgeAt_start, fun b => ?_, fun e i hget => ?_⟩
  · rw [inputAt_start]
    exact K.bottom_input b
  · rw [edgeAt_start]
    exact K.bottom_edge e (List.mem_of_getElem? hget)

theorem consistent_after (visits : Nat) : Consistent A G P Q (A.after G visits) :=
  (consistent_start K).run B K visits _

/-- A run that ends within its budget leaves a solution. -/
theorem consistent_solve {budget : Nat} (h : A.solve G budget = .ok p) :
    Consistent A G P Q p ∧ p.queue = [] := by
  obtain ⟨rfl, hq⟩ := (solve_eq_ok B).mp h
  exact ⟨consistent_after B K budget, hq⟩

end

/-- The state on an edge, where states count as equal only if they are. -/
theorem Solved.edgeAt_eq {P : σ → Prop} {e : Edge Crossing} (S : Solved A G P p b)
    (hA : ∀ s t, A.equal s t = true → s = t) (he : (e, i) ∈ G.graph.outgoing b) :
    p.edgeAt A i = A.propagate e (A.transfer b (p.inputAt A b)) := by
  rw [← S.output]
  rcases S.edges e i he with h | h
  · exact h
  · exact (hA _ _ h).symm

/-- The analysis carries a property of states from the entry to all it reaches. -/
structure Spreads (A : Analysis σ) (R : σ → Prop) : Prop where
  entry : R A.entry
  input : ∀ b prev (arrivals : List (Arrival σ)), (∃ a ∈ arrivals, R a.state) →
    R (A.input b prev arrivals)
  transfer : ∀ b s, R s → R (A.transfer b s)
  propagate : ∀ e s, R s → R (A.propagate e s)
  equal : ∀ s t, A.equal s t = true → R s → R t

/-- An edge brings its state to its target. -/
theorem mem_arrivals {e : Edge Crossing} (he : G.graph.edges[i]? = some e) :
    (⟨some e, p.edgeAt A i⟩ : Arrival σ) ∈ arrivals A G p.onEdges e.target :=
  List.mem_append_right _ (List.mem_map.mpr ⟨(e, i), mem_incoming.mpr ⟨he, rfl⟩, rfl⟩)

theorem mem_arrivals_entry {onEdges : List σ} :
    (⟨none, A.entry⟩ : Arrival σ) ∈ arrivals A G onEdges G.entry := by
  refine List.mem_append_left _ ?_
  rw [if_pos rfl]
  exact List.mem_singleton_self _

theorem Consistent.spreads {P : Nat → σ → Prop} {Q : Edge Crossing → σ → Prop} {R : σ → Prop}
    (C : Consistent A G P Q p) (hq : p.queue = []) (B : G.Built) (H : Spreads A R)
    (hr : G.graph.Reaches G.entry b) : R (p.inputAt A b) := by
  have hsolved : ∀ n, G.graph.Reaches G.entry n → Solved A G (P n) p n := fun n hn =>
    C.solved n (B.mem_order.mpr hn) (hq ▸ List.not_mem_nil)
  obtain ⟨w, hw⟩ := hr
  induction hw with
  | start =>
    obtain ⟨prev, -, hinput⟩ := (hsolved _ .refl).input
    rw [hinput]
    exact H.input _ _ _ ⟨_, mem_arrivals_entry, H.entry⟩
  | @step m n w hw hmn ih =>
    obtain ⟨e, he, rfl, rfl⟩ := hmn
    obtain ⟨i, hi⟩ := List.getElem?_of_mem he
    have hr : G.graph.Reaches G.entry e.source := ⟨w, hw⟩
    obtain ⟨prev, -, hinput⟩ := (hsolved _ (hr.step ⟨e, he, rfl, rfl⟩)).input
    rw [hinput]
    refine H.input _ _ _ ⟨_, mem_arrivals hi, ?_⟩
    have hout : R (A.propagate e (p.outputAt A e.source)) := by
      rw [(hsolved _ hr).output]
      exact H.propagate _ _ (H.transfer _ _ ih)
    rcases (hsolved _ hr).edges e i (mem_outgoing.mpr ⟨hi, rfl⟩) with h | h
    · exact h ▸ hout
    · exact H.equal _ _ h hout

end Progress

end MissBound
