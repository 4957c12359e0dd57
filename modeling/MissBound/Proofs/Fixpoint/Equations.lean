import MissBound.Proofs.Fixpoint

/-!
Solutions of the flow equations. If the input of a block depends on nothing but the states that
arrive, a run that ends leaves exactly what the equations demand of every block that can be reached,
and has not touched any other block.
-/

namespace MissBound

variable {σ : Type} {A : Analysis σ} {G : FlowGraph} {p : Progress σ} {b i : Nat}

/-- The input of a block does not depend on its input at the last visit. -/
def Analysis.Memoryless (A : Analysis σ) : Prop :=
  ∀ b s t arrivals, A.input b s arrivals = A.input b t arrivals

namespace Progress

section
variable {P : Nat → σ → Prop} {Q : Edge Crossing → σ → Prop} (C : Consistent A G P Q p)
include C

theorem Consistent.inputs_getElem? (hb : b < G.blockCount) :
    p.inputs[b]? = some (p.inputAt A b) := by
  rw [← C.inputs_length] at hb
  simp [inputAt, hb]

theorem Consistent.outputs_getElem? (hb : b < G.blockCount) :
    p.outputs[b]? = some (p.outputAt A b) := by
  rw [← C.outputs_length] at hb
  simp [outputAt, hb]

theorem Consistent.onEdges_getElem? {e : Edge Crossing} (he : G.graph.edges[i]? = some e) :
    p.onEdges[i]? = some (p.edgeAt A i) := by
  have hi : i < p.onEdges.length := by
    rw [C.edges_length]
    exact (List.getElem?_eq_some_iff.mp he).1
  simp [edgeAt, hi]

end

/-- The input that a memoryless analysis leaves at a block. -/
theorem Solved.inputAt_eq {P : σ → Prop} (S : Solved A G P p b) (hA : A.Memoryless) (prev : σ) :
    p.inputAt A b = A.input b prev (arrivals A G p.onEdges b) := by
  obtain ⟨s, -, h⟩ := S.input
  exact h.trans (hA ..)

/-- Every block that can be reached has the input that its arrivals make, the output that its input
makes, and on each outgoing edge what the edge makes of its output, up to states that count as
equal. All other blocks, and the edges that leave them, have been left at the bottom. -/
theorem solves_flow_equations {blocks : List Block} {edges : List (Nat × Nat)}
    {bounds : List (Nat × LoopBound)} {entry budget : Nat}
    (hG : FlowGraph.build blocks edges bounds entry = .ok G) (hA : A.Memoryless)
    (hp : A.solve G budget = .ok p) :
    (∀ b, G.graph.Reaches G.entry b → ∃ input, p.inputs[b]? = some input ∧
      (∀ prev, input = A.input b prev (arrivals A G p.onEdges b)) ∧
      p.outputs[b]? = some (A.transfer b input) ∧
      ∀ e i, (e, i) ∈ G.graph.outgoing b → ∃ state, p.onEdges[i]? = some state ∧
        (state = A.propagate e (A.transfer b input) ∨
          A.equal (A.propagate e (A.transfer b input)) state = true)) ∧
    ∀ b < G.blockCount, ¬G.graph.Reaches G.entry b → p.inputs[b]? = some A.bottom ∧
      p.outputs[b]? = some A.bottom ∧
      ∀ e i, (e, i) ∈ G.graph.outgoing b → p.onEdges[i]? = some A.bottom := by
  have B := FlowGraph.built_of_build hG
  obtain ⟨C, hq⟩ := consistent_solve B keeps_true hp
  constructor
  · intro b hr
    have horder : b ∈ G.order := B.mem_order.mpr hr
    have hlt : b < G.blockCount := Digraph.reversePostorder_lt B.closed B.entry_lt horder
    have S := C.solved b horder (hq ▸ List.not_mem_nil)
    refine ⟨p.inputAt A b, C.inputs_getElem? hlt, S.inputAt_eq hA, ?_, fun e i he => ?_⟩
    · rw [C.outputs_getElem? hlt, S.output]
    · rw [← S.output]
      exact ⟨p.edgeAt A i, C.onEdges_getElem? (mem_outgoing.mp he).1, S.edges e i he⟩
  · intro b hlt hr
    have horder : b ∉ G.order := fun h => hr (B.mem_order.mp h)
    obtain ⟨hin, hout⟩ := C.untouched b horder
    rw [C.inputs_getElem? hlt, C.outputs_getElem? hlt, hin, hout]
    refine ⟨rfl, rfl, fun e i he => ?_⟩
    obtain ⟨hget, rfl⟩ := mem_outgoing.mp he
    rw [C.onEdges_getElem? hget, C.untouched_edges e i hget horder]

end Progress

/-- How many edges a walk to a block can have, up to `cap`. -/
def walkLengths (cap : Nat) : Analysis (WithBot Nat) where
  bottom := ⊥
  entry := 0
  equal s t := s = t
  input _ _ := Analysis.joinAll ⊥ (· ⊔ ·)
  transfer _ s := s.map fun n => min cap (n + 1)
  propagate _ s := s

/-- A loop of one block, and a block that cannot be reached before the last one. -/
def strayGraph : FlowGraph where
  graph := ⟨[⟨0, []⟩, ⟨4, []⟩, ⟨8, []⟩, ⟨12, []⟩],
    [⟨0, 1, ⟨false, [], true⟩⟩, ⟨1, 1, ⟨true, [], false⟩⟩, ⟨1, 3, ⟨false, [1], false⟩⟩,
      ⟨2, 3, ⟨false, [], false⟩⟩]⟩
  entry := 0
  dominators := ⟨0, [some 0, some 0, none, some 1], [0, 1, 0, 2]⟩
  loops := ⟨[⟨⟨1, [1], [1]⟩, 0, none, [], .unknown⟩], [0, 1, 0, 2]⟩

def strayLengths : Progress (WithBot Nat) :=
  ⟨[0, 5, ⊥, 5], [1, 5, ⊥, 5], [1, 5, 5, ⊥], [], [3, 1, 1, 3, 1, 1, 3, 1, 0]⟩

theorem solves_flow_equations_stray :
    (walkLengths 5).solve strayGraph 20 = .ok strayLengths ∧
      (∀ prev, (5 : WithBot Nat) =
        (walkLengths 5).input 3 prev
          (Progress.arrivals (walkLengths 5) strayGraph [1, 5, 5, ⊥] 3)) ∧
      strayLengths.onEdges[3]? = some ⊥ := by
  have hG : FlowGraph.build [⟨0, []⟩, ⟨4, []⟩, ⟨8, []⟩, ⟨12, []⟩] [(0, 1), (1, 1), (1, 3), (2, 3)]
    [] 0 = .ok strayGraph := rfl
  have hp : (walkLengths 5).solve strayGraph 20 = .ok strayLengths := rfl
  have hreaches {b : Nat} : b ∈ strayGraph.order ↔ strayGraph.graph.Reaches 0 b :=
    (FlowGraph.built_of_build hG).mem_order
  obtain ⟨hreach, hrest⟩ := Progress.solves_flow_equations hG (fun _ _ _ _ => rfl) hp
  obtain ⟨input, hinput, heq, -⟩ := hreach 3 (hreaches.mp (by decide))
  cases hinput
  exact ⟨hp, heq, (hrest 2 (by decide) (mt hreaches.mpr (by decide))).2.2 _ 3 (.head _)⟩

end MissBound
