import MissBound.Proofs.Loop.Exact
import MissBound.Proofs.Program.Crossing

/-!
What the label of an edge says of the loops of the graph. Along a reachable edge the loops around
the source become the loops around the target by taking away those that the label lists and, if the
label says so, adding the loop of the target.
-/

namespace MissBound.FlowGraph

variable {blocks : List Block} {edges : List (Nat × Nat)} {bounds : List (Nat × LoopBound)}
  {entry h : Nat} {G : FlowGraph} {e : Edge Crossing}

/-- The nodes of the loop of `h`, none if `h` heads no loop. -/
def loopNodes (G : FlowGraph) (h : Nat) : Set Nat := G.graph.loopNodes G.entry h

/-- The label of `e` tells the loops around its source from those around its target. -/
structure Labels (G : FlowGraph) (e : Edge Crossing) : Prop where
  mem_exited : ∀ h, h ∈ e.label.exited ↔ e.source ∈ G.loopNodes h ∧ e.target ∉ G.loopNodes h
  exited_nested : e.label.exited.Pairwise fun h h' => G.loopNodes h ⊂ G.loopNodes h'
  back_iff : e.label.back = true ↔ e.source ∈ G.loopNodes e.target
  enters_iff : e.label.enters = true ↔
    (G.loopNodes e.target).Nonempty ∧ e.source ∉ G.loopNodes e.target
  mem_target_iff : ∀ h, e.target ∈ G.loopNodes h ↔
    e.source ∈ G.loopNodes h ∧ h ∉ e.label.exited ∨ e.label.enters = true ∧ h = e.target
  exited_le : e.label.exited.length ≤ G.loops.depthAt e.source
  depth_target : G.loops.depthAt e.target =
    G.loops.depthAt e.source - e.label.exited.length + if e.label.enters then 1 else 0

namespace Built

variable (B : G.Built)
include B

theorem inside_iff_mem {b : Nat} : G.loops.Inside h b ↔ b ∈ G.loopNodes h :=
  B.loops.inside_iff_mem B.closed B.entry_lt

/-- A node heads a loop if it lies in its own one. -/
theorem inside_self_iff : G.loops.Inside h h ↔ (G.loopNodes h).Nonempty := by
  refine ⟨fun hh => ⟨h, B.inside_iff_mem.mp hh⟩, fun ⟨b, hb⟩ => ?_⟩
  rw [← B.inside_iff_mem] at hb
  exact B.loops.inside_self B.closed B.entry_lt (B.loops.isHeader_of_inside hb)

variable (he : e ∈ G.graph.edges) (hr : G.graph.Reaches G.entry e.source)
include he hr

theorem labels : G.Labels e where
  mem_exited h := by simp only [B.mem_exited he hr, B.inside_iff_mem]
  exited_nested := (B.exited_pairwise he hr).imp fun hin =>
    B.loops.loopNodes_ssubset B.closed B.entry_lt hin.1 hin.2
  back_iff := (B.back_iff he hr).trans B.inside_iff_mem
  enters_iff := by rw [B.enters_iff he hr, B.inside_self_iff, B.inside_iff_mem]
  mem_target_iff h := by simp only [← B.inside_iff_mem, B.inside_target_iff he hr]
  exited_le := by
    obtain ⟨n, hs, -⟩ := B.depthAt_cross he hr
    rw [hs]
    exact Nat.le_add_left _ _
  depth_target := by
    obtain ⟨n, hs, ht, -⟩ := B.depthAt_cross he hr
    rw [hs, ht, Nat.add_sub_cancel]
    cases e.label.enters <;> rfl

end Built

/-- Every edge that can be reached is labelled with the loops that it closes, leaves and enters. -/
theorem labels_exact (hG : build blocks edges bounds entry = .ok G) (he : e ∈ G.graph.edges)
    (hr : G.graph.Reaches G.entry e.source) : G.Labels e :=
  (built_of_build hG).labels he hr

/-- Two loops, one in the other, left by one edge that enters a third loop. Behind it comes a cycle
with two entries. -/
def leapGraph : FlowGraph where
  graph := ⟨[⟨0, []⟩, ⟨4, []⟩, ⟨8, []⟩, ⟨12, []⟩, ⟨16, []⟩, ⟨20, []⟩],
    [⟨0, 1, ⟨false, [], true⟩⟩, ⟨1, 2, ⟨false, [], true⟩⟩, ⟨2, 2, ⟨true, [], false⟩⟩,
      ⟨2, 1, ⟨true, [2], false⟩⟩, ⟨2, 3, ⟨false, [2, 1], true⟩⟩, ⟨3, 3, ⟨true, [], false⟩⟩,
      ⟨3, 4, ⟨false, [3], false⟩⟩, ⟨3, 5, ⟨false, [3], false⟩⟩, ⟨4, 5, ⟨false, [], false⟩⟩,
      ⟨5, 4, ⟨false, [], false⟩⟩]⟩
  entry := 0
  dominators := ⟨0, [some 0, some 0, some 1, some 2, some 3, some 3], [0, 1, 2, 3, 4, 4]⟩
  loops := ⟨[⟨⟨1, [2], [1, 2]⟩, 0, none, [2], .unknown⟩, ⟨⟨2, [2], [2]⟩, 1, some 1, [], .unknown⟩,
    ⟨⟨3, [3], [3]⟩, 0, none, [], ⟨some 1, some 4⟩⟩], [0, 1, 2, 3, 4, 4]⟩

theorem labels_exact_leap :
    leapGraph.loopNodes 2 ⊂ leapGraph.loopNodes 1 ∧ 2 ∈ leapGraph.loopNodes 2 ∧
    3 ∉ leapGraph.loopNodes 1 ∧ 3 ∈ leapGraph.loopNodes 3 ∧ 2 ∉ leapGraph.loopNodes 3 ∧
    5 ∉ leapGraph.loopNodes 4 := by
  have hG : build [⟨0, []⟩, ⟨4, []⟩, ⟨8, []⟩, ⟨12, []⟩, ⟨16, []⟩, ⟨20, []⟩]
      [(0, 1), (1, 2), (2, 2), (2, 1), (2, 3), (3, 3), (3, 4), (3, 5), (4, 5), (5, 4)]
      [(3, ⟨some 1, some 4⟩)] 0 = .ok leapGraph := rfl
  have hr : ∀ n ∈ leapGraph.order, leapGraph.graph.Reaches 0 n := fun n =>
    (built_of_build hG).mem_order.mp
  have hleap : (⟨2, 3, ⟨false, [2, 1], true⟩⟩ : Edge Crossing) ∈ leapGraph.graph.edges := by decide
  have hcycle : (⟨5, 4, ⟨false, [], false⟩⟩ : Edge Crossing) ∈ leapGraph.graph.edges := by decide
  have L := labels_exact hG hleap (hr 2 (by decide))
  have C := labels_exact hG hcycle (hr 5 (by decide))
  have h₂ := (L.mem_exited 2).mp (by decide)
  have h₁ := (L.mem_exited 1).mp (by decide)
  have hnest := List.pairwise_pair.mp L.exited_nested
  refine ⟨hnest, h₂.1, h₁.2, ?_, (L.enters_iff.mp rfl).2, fun hmem => ?_⟩
  · exact (L.mem_target_iff 3).mpr (.inr ⟨rfl, rfl⟩)
  · cases C.back_iff.mpr hmem

end MissBound.FlowGraph
