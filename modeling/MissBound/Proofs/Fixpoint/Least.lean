import MissBound.Proofs.Fixpoint.Equations
import MissBound.Proofs.Program.Reordering

/-!
Monotone analyses, whose inputs are least upper bounds. What a run of such an analysis leaves on the
edges lies below every other solution of the flow equations, so it depends neither on the order in
which blocks are visited nor on the order of the edges.
-/

namespace MissBound

variable {σ : Type} {A : Analysis σ} {G G' : FlowGraph} {p q : Progress σ} {b i : Nat}

namespace Progress

theorem forall_arrivals {P : Arrival σ → Prop} {onEdges : List σ} :
    (∀ a ∈ arrivals A G onEdges b, P a) ↔ (b = G.entry → P ⟨none, A.entry⟩) ∧
      ∀ e (i : Nat), G.graph.edges[i]? = some e → e.target = b →
        P ⟨some e, onEdges[i]?.getD A.bottom⟩ := by
  simp only [arrivals, List.forall_mem_append, List.forall_mem_map, Prod.forall, mem_incoming,
    and_imp]
  refine and_congr_left fun _ => ?_
  split <;> simp_all

/-- Where visits of waiting blocks lead, whichever of them is taken next. -/
inductive Visits (A : Analysis σ) (G : FlowGraph) : Progress σ → Prop
  | start : Visits A G (start A G)
  | visit {p : Progress σ} {b : Nat} (ahead behind : List Nat) : Visits A G p →
    p.queue = ahead ++ b :: behind →
    Visits A G (visit A G { p with queue := ahead ++ behind } b)

theorem visits_run (budget : Nat) : ∀ p : Progress σ, Visits A G p →
    Visits A G (run A G budget p) := by
  induction budget with
  | zero => exact fun _ h => h
  | succ budget ih =>
    intro p h
    rw [run]
    split
    · exact h
    · rename_i hq
      exact ih _ (.visit [] _ h hq)

/-- Visits in some order that have left no block waiting. -/
structure Settled (A : Analysis σ) (G : FlowGraph) (p : Progress σ) : Prop where
  built : G.Built
  visits : Visits A G p
  queue : p.queue = []

theorem settled_of_solve {budget : Nat} (B : G.Built) (h : A.solve G budget = .ok p) :
    Settled A G p := by
  obtain ⟨rfl, hq⟩ := (solve_eq_ok B).mp h
  exact ⟨B, visits_run budget _ .start, hq⟩

section
variable {P : Nat → σ → Prop} {Q : Edge Crossing → σ → Prop}

/-- The order of the queue does not matter. -/
theorem Consistent.requeue (C : Consistent A G P Q p) (queue : List Nat)
    (h : ∀ b, b ∈ queue ↔ b ∈ p.queue) : Consistent A G P Q { p with queue } where
  inputs_length := C.inputs_length
  outputs_length := C.outputs_length
  edges_length := C.edges_length
  queued b hb := C.queued b ((h b).mp hb)
  solved b hb hq := by
    have S := C.solved b hb (mt (h b).mpr hq)
    exact ⟨S.input, S.output, S.edges⟩
  untouched := C.untouched
  untouched_edges := C.untouched_edges
  inputs := C.inputs
  edges := C.edges

theorem Visits.consistent (V : Visits A G p) (B : G.Built) (K : Keeps A G P Q) :
    Consistent A G P Q p := by
  induction V with
  | start => exact consistent_start K
  | @visit p b ahead behind _ hq ih =>
    have C := ih.requeue (b :: (ahead ++ behind)) fun c => by
      rw [hq]
      simp only [List.mem_cons, List.mem_append]
      tauto
    exact C.visit B K rfl

end

theorem Settled.consistent (S : Settled A G p) :
    Consistent A G (fun _ _ => True) (fun _ _ => True) p :=
  S.visits.consistent S.built keeps_true

theorem eq_of_getD {xs ys : List σ} {d : σ} (hlen : xs.length = ys.length)
    (h : ∀ i : Nat, xs[i]?.getD d = ys[i]?.getD d) : xs = ys := by
  apply List.ext_getElem hlen
  intro i hx hy
  simpa [hx, hy] using h i

end Progress

open Progress

variable [SemilatticeSup σ] [OrderBot σ]

/-- A monotone analysis, whose inputs are the least upper bounds of what arrives. -/
structure Analysis.IsMonotone (A : Analysis σ) : Prop where
  bottom : A.bottom = ⊥
  equal : ∀ s t, A.equal s t = true ↔ s = t
  input : ∀ b prev arrivals, A.input b prev arrivals = joinAll ⊥ (· ⊔ ·) arrivals
  transfer : ∀ b, Monotone (A.transfer b)
  propagate : ∀ e, Monotone (A.propagate e)

/-- No reachable block sends more over an edge than `states` has there. -/
def Analysis.PostSolution (A : Analysis σ) (G : FlowGraph) (states : List σ) : Prop :=
  ∀ e (i : Nat), G.graph.edges[i]? = some e → G.graph.Reaches G.entry e.source →
    A.propagate e (A.transfer e.source
      (joinAll ⊥ (· ⊔ ·) (Progress.arrivals A G states e.source))) ≤ states[i]?.getD ⊥

/-- The states that the inputs of `q` send over the edges of `G` from reachable blocks. -/
def Progress.sent (A : Analysis σ) (G : FlowGraph) (q : Progress σ) : List σ :=
  G.graph.edges.map fun e =>
    if e.source ∈ G.order then A.propagate e (A.transfer e.source (q.inputAt A e.source)) else ⊥

theorem Progress.sent_getD {e : Edge Crossing} (he : G.graph.edges[i]? = some e) :
    (q.sent A G)[i]?.getD ⊥ = if e.source ∈ G.order then
      A.propagate e (A.transfer e.source (q.inputAt A e.source)) else ⊥ := by
  rw [sent, List.getElem?_map, he, Option.map_some, Option.getD_some]

theorem Analysis.joinAll_le {arrivals : List (Arrival σ)} {t : σ} :
    joinAll ⊥ (· ⊔ ·) arrivals ≤ t ↔ ∀ a ∈ arrivals, a.state ≤ t := by
  have hfold : ∀ s, arrivals.foldl (fun acc a => acc ⊔ a.state) s ≤ t ↔
      s ≤ t ∧ ∀ a ∈ arrivals, a.state ≤ t := by
    induction arrivals with
    | nil => simp
    | cons a arrivals ih =>
      intro s
      rw [List.foldl_cons, ih, sup_le_iff, List.forall_mem_cons, and_assoc]
  exact (hfold ⊥).trans (and_iff_right bot_le)

namespace Analysis.IsMonotone

variable (hA : A.IsMonotone)
include hA

theorem joinAll_arrivals_le {states : List σ} {t : σ} :
    joinAll ⊥ (· ⊔ ·) (arrivals A G states b) ≤ t ↔ (b = G.entry → A.entry ≤ t) ∧
      ∀ e (i : Nat), G.graph.edges[i]? = some e → e.target = b → states[i]?.getD ⊥ ≤ t := by
  rw [Analysis.joinAll_le, forall_arrivals, hA.bottom]

/-- Every input and every state on an edge stays below a given solution. -/
theorem keeps_le {states : List σ} (H : A.PostSolution G states) (B : G.Built) :
    Keeps A G (fun b s => s ≤ joinAll ⊥ (· ⊔ ·) (arrivals A G states b))
      fun e s => ∀ i : Nat, G.graph.edges[i]? = some e → s ≤ states[i]?.getD ⊥ where
  bottom_input b := hA.bottom.trans_le bot_le
  bottom_edge e _ i _ := hA.bottom.trans_le bot_le
  input b _ prev onEdges _ hedges := by
    obtain ⟨hentry, harrive⟩ := hA.joinAll_arrivals_le.mp (le_refl (joinAll ⊥ (· ⊔ ·)
      (arrivals A G states b)))
    rw [hA.input, hA.joinAll_arrivals_le]
    refine ⟨hentry, fun e i he ht => (hA.bottom ▸ hedges e i he i he).trans (harrive e i he ht)⟩
  edge e _ hs s hle i he := by
    refine le_trans ?_ (H e i he (B.mem_order.mp hs))
    exact hA.propagate e (hA.transfer _ hle)

section
variable (S : Settled A G p) (S' : Settled A G' q) (H : G.Alike G')
include S

/-- What a settled run has at a reachable block and on the edges that leave it. -/
theorem solved_eq (hb : b ∈ G.order) :
    p.inputAt A b = joinAll ⊥ (· ⊔ ·) (arrivals A G p.onEdges b) ∧
      p.outputAt A b = A.transfer b (p.inputAt A b) ∧
      ∀ e i, (e, i) ∈ G.graph.outgoing b →
        p.edgeAt A i = A.propagate e (A.transfer b (p.inputAt A b)) := by
  have hsolved := S.consistent.solved b hb (S.queue ▸ List.not_mem_nil)
  obtain ⟨prev, -, hinput⟩ := hsolved.input
  refine ⟨hinput.trans (hA.input ..), hsolved.output, fun e i he => ?_⟩
  exact hsolved.edgeAt_eq (fun s t => (hA.equal s t).mp) he

theorem postSolution : A.PostSolution G p.onEdges := by
  intro e i he hr
  obtain ⟨hinput, -, hedge⟩ := hA.solved_eq S (S.built.mem_order.mpr hr)
  rw [← hinput, ← hedge e i (mem_outgoing.mpr ⟨he, rfl⟩), edgeAt, hA.bottom]

include S' H

omit S in
theorem inputAt_le (B : G.Built) (V : Visits A G p) (hb : b ∈ G.order) :
    p.inputAt A b ≤ q.inputAt A b := by
  have hle : ∀ b ∈ G.order, joinAll ⊥ (· ⊔ ·) (arrivals A G (q.sent A G) b) ≤ q.inputAt A b := by
    intro b hb
    obtain ⟨hinput, -, -⟩ := hA.solved_eq S' ((H.mem_order b).mpr hb)
    obtain ⟨hentry, harrive⟩ := hA.joinAll_arrivals_le.mp hinput.ge
    refine hA.joinAll_arrivals_le.mpr ⟨fun heq => hentry (heq.trans H.entry.symm), ?_⟩
    rintro e i he rfl
    rw [sent_getD he]
    split
    · rename_i hs
      obtain ⟨j, hj⟩ := List.getElem?_of_mem ((H.mem_edges e hs).mpr (List.mem_of_getElem? he))
      obtain ⟨-, -, hedge⟩ := hA.solved_eq S' ((H.mem_order _).mpr hs)
      rw [← hedge e j (mem_outgoing.mpr ⟨hj, rfl⟩), edgeAt, hA.bottom]
      exact harrive e j hj rfl
    · exact bot_le
  have hsent : A.PostSolution G (q.sent A G) := by
    intro e i he hr
    rw [sent_getD he, if_pos (B.mem_order.mpr hr)]
    exact hA.propagate e (hA.transfer _ (hle _ (B.mem_order.mpr hr)))
  exact ((V.consistent B (hA.keeps_le hsent B)).inputs b).trans (hle b hb)

theorem inputAt_eq (b : Nat) : q.inputAt A b = p.inputAt A b := by
  by_cases hb : b ∈ G.order
  · apply le_antisymm
    · exact hA.inputAt_le S H.symm S'.built S'.visits ((H.mem_order b).mpr hb)
    · exact hA.inputAt_le S' H S.built S.visits hb
  · rw [(S.consistent.untouched b hb).1, (S'.consistent.untouched b (mt (H.mem_order b).mp hb)).1]

theorem outputAt_eq (b : Nat) : q.outputAt A b = p.outputAt A b := by
  by_cases hb : b ∈ G.order
  · rw [(hA.solved_eq S hb).2.1, (hA.solved_eq S' ((H.mem_order b).mpr hb)).2.1,
      hA.inputAt_eq S S' H]
  · rw [(S.consistent.untouched b hb).2, (S'.consistent.untouched b (mt (H.mem_order b).mp hb)).2]

theorem edgeAt_eq {e e' : Edge Crossing} {j : Nat} (he : G.graph.edges[i]? = some e)
    (he' : G'.graph.edges[j]? = some e') (hs : e'.source = e.source) (ht : e'.target = e.target) :
    q.edgeAt A j = p.edgeAt A i := by
  by_cases horder : e.source ∈ G.order
  · have hlabel : e'.label = e.label := by
      have hmem := (H.mem_edges e horder).mpr (List.mem_of_getElem? he)
      rw [S'.built.label e hmem, S'.built.label e' (List.mem_of_getElem? he'), hs, ht]
    have heq : e' = e := by
      cases e
      cases e'
      simp_all
    subst heq
    rw [(hA.solved_eq S horder).2.2 e' i (mem_outgoing.mpr ⟨he, rfl⟩),
      (hA.solved_eq S' ((H.mem_order _).mpr horder)).2.2 e' j (mem_outgoing.mpr ⟨he', rfl⟩),
      hA.inputAt_eq S S' H]
  · have horder' : e'.source ∉ G'.order := by
      rw [hs, H.mem_order]
      exact horder
    rw [S.consistent.untouched_edges e i he horder, S'.consistent.untouched_edges e' j he' horder']

/-- Edges between the same blocks carry the same state. -/
theorem onEdges_eq {j : Nat} (h : G'.graph.edges[j]?.map (fun e => (e.source, e.target)) =
      G.graph.edges[i]?.map fun e => (e.source, e.target)) :
    q.onEdges[j]? = p.onEdges[i]? := by
  cases he : G.graph.edges[i]? with
  | none =>
    have hi : G.edgeCount ≤ i := List.getElem?_eq_none_iff.mp he
    have hj : G'.edgeCount ≤ j := by
      rw [he, Option.map_none, Option.map_eq_none_iff] at h
      exact List.getElem?_eq_none_iff.mp h
    rw [List.getElem?_eq_none (S'.consistent.edges_length ▸ hj),
      List.getElem?_eq_none (S.consistent.edges_length ▸ hi)]
  | some e =>
    rw [he] at h
    obtain ⟨e', he', hends⟩ := Option.map_eq_some_iff.mp h
    obtain ⟨hs, ht⟩ := Prod.mk.injEq .. ▸ hends
    rw [S.consistent.onEdges_getElem? he, S'.consistent.onEdges_getElem? he',
      hA.edgeAt_eq S S' H he he' hs ht]

theorem inputs_eq : q.inputs = p.inputs := by
  apply eq_of_getD _ (hA.inputAt_eq S S' H)
  rw [S.consistent.inputs_length, S'.consistent.inputs_length, H.blockCount]

theorem outputs_eq : q.outputs = p.outputs := by
  apply eq_of_getD _ (hA.outputAt_eq S S' H)
  rw [S.consistent.outputs_length, S'.consistent.outputs_length, H.blockCount]

end

end Analysis.IsMonotone

/-- The states on the edges are the least solution of the flow equations: they solve them, no
solution has a smaller state anywhere, and visits in another order, or of a graph whose edges were
added in another order, lead to the same states. -/
theorem Analysis.IsMonotone.solves_least {blocks : List Block} {edges : List (Nat × Nat)}
    {bounds : List (Nat × LoopBound)} {entry budget : Nat}
    (hG : FlowGraph.build blocks edges bounds entry = .ok G) (hA : A.IsMonotone)
    (hp : A.solve G budget = .ok p) :
    A.PostSolution G p.onEdges ∧
    (∀ states, A.PostSolution G states → ∀ i < G.edgeCount,
      p.onEdges[i]?.getD ⊥ ≤ states[i]?.getD ⊥) ∧
    (∀ q, Visits A G q → q.queue = [] →
      q.inputs = p.inputs ∧ q.outputs = p.outputs ∧ q.onEdges = p.onEdges) ∧
    ∀ edges' G' budget' q, edges'.Perm edges →
      FlowGraph.build blocks edges' bounds entry = .ok G' → A.solve G' budget' = .ok q →
      q.inputs = p.inputs ∧ q.outputs = p.outputs ∧
      ∀ i j : Nat, edges'[j]? = edges[i]? → q.onEdges[j]? = p.onEdges[i]? := by
  have B := FlowGraph.built_of_build hG
  have S := settled_of_solve B hp
  refine ⟨hA.postSolution S, fun states H i hi => ?_, fun q V hq => ?_, ?_⟩
  · have hget := List.getElem?_eq_getElem (l := G.graph.edges) hi
    have hle := (S.visits.consistent B (hA.keeps_le H B)).edges _ i hget i hget
    rwa [edgeAt, hA.bottom] at hle
  · have S' : Settled A G q := ⟨B, V, hq⟩
    refine ⟨hA.inputs_eq S S' .refl, hA.outputs_eq S S' .refl, ?_⟩
    exact List.ext_getElem? fun i => hA.onEdges_eq S S' .refl rfl
  · intro edges' G' budget' q hperm hG' hq
    have S' := settled_of_solve (FlowGraph.built_of_build hG') hq
    have H := FlowGraph.alike_of_perm hG hG' hperm
    refine ⟨hA.inputs_eq S S' H, hA.outputs_eq S S' H, fun i j hij => ?_⟩
    rw [← (FlowGraph.ends_of_build hG).1, ← (FlowGraph.ends_of_build hG').1, List.getElem?_map,
      List.getElem?_map] at hij
    exact hA.onEdges_eq S S' H hij

theorem isMonotone_walkLengths {cap : Nat} : (walkLengths cap).IsMonotone where
  bottom := rfl
  equal _ _ := decide_eq_true_iff
  input _ _ _ := rfl
  transfer _ := Monotone.withBot_map fun _ _ h => min_le_min_left cap (Nat.succ_le_succ h)
  propagate _ := monotone_id

/-- However the blocks are visited, the loop is left with the greatest length that is counted. -/
theorem solves_least_stray :
    (walkLengths 5).solve strayGraph 20 = .ok strayLengths ∧
      (∀ states, (walkLengths 5).PostSolution strayGraph states →
        (5 : WithBot Nat) ≤ states[2]?.getD ⊥) ∧
      ∀ q, Visits (walkLengths 5) strayGraph q → q.queue = [] → q.onEdges = [1, 5, 5, ⊥] := by
  have hG : FlowGraph.build [⟨0, []⟩, ⟨4, []⟩, ⟨8, []⟩, ⟨12, []⟩] [(0, 1), (1, 1), (1, 3), (2, 3)]
    [] 0 = .ok strayGraph := rfl
  have hp : (walkLengths 5).solve strayGraph 20 = .ok strayLengths := rfl
  obtain ⟨-, hle, horder, -⟩ := isMonotone_walkLengths.solves_least hG hp
  exact ⟨hp, fun states H => hle states H 2 (by decide), fun q V hq => (horder q V hq).2.2⟩

end MissBound
