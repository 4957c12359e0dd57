import MissBound.Proofs.Program.Crossing

/-!
Graphs whose edges were added in different orders. They have the same walks, hence the same
reachable blocks and loops, and label an edge from a reachable block alike.
-/

namespace MissBound

section
variable {α β α' β' : Type} {g : Digraph α β} {g' : Digraph α' β'} {entry m n : Nat} {w : List Nat}

namespace Digraph

section
variable (hadj : ∀ m n, g.Adjacent m n → g'.Adjacent m n)
include hadj

theorem Walk.of_adjacent (h : g.Walk m n w) : g'.Walk m n w := by
  induction h with
  | start => exact .start
  | step _ hmn ih => exact ih.step (hadj _ _ hmn)

theorem Reaches.of_adjacent (h : g.Reaches m n) : g'.Reaches m n := by
  obtain ⟨w, hw⟩ := h
  exact ⟨w, hw.of_adjacent hadj⟩

end

theorem Dominates.of_adjacent (hadj : ∀ m n, g'.Adjacent m n → g.Adjacent m n)
    (h : g.Dominates entry m n) : g'.Dominates entry m n :=
  fun w hw => h w (hw.of_adjacent hadj)

end Digraph

/-- Graphs with the same edges have the same loops around their reachable nodes. -/
theorem LoopForest.Describes.inside_of_adjacent {f f' : LoopForest} {h b : Nat}
    (D : Describes g entry f) (D' : Describes g' entry f') (hg : g.Closed) (hg' : g'.Closed)
    (he : entry < g.nodeCount) (he' : entry < g'.nodeCount)
    (hadj : ∀ m n, g.Adjacent m n ↔ g'.Adjacent m n) (hr : g.Reaches entry b)
    (hb : f.Inside h b) : f'.Inside h b := by
  have hlatch : ∀ n, g.Adjacent n h → g.Reaches entry n → g.Dominates entry h n →
      f'.Inside h n := by
    intro n hn hrn hd
    apply D'.inside_latch hg' he' ((hadj _ _).mp hn)
    · exact hrn.of_adjacent fun _ _ => (hadj _ _).mp
    · exact hd.of_adjacent fun _ _ => (hadj _ _).mpr
  obtain ⟨l, hl, rfl, hmem⟩ := D.inside_iff.mp hb
  have L := D.isLoop hg he hl
  by_cases hne : b = l.header
  · have hdetect : l.toNaturalLoop ∈ NaturalLoop.detect g (.of g entry) :=
      D.natural ▸ List.mem_map_of_mem hl
    obtain ⟨n, hn, hrn, hd⟩ := NaturalLoop.exists_latch hg he hdetect
    rw [hne]
    exact D'.inside_self hg' he' (D'.isHeader_of_inside (hlatch n hn hrn hd))
  · -- the body grows backwards from the latches
    refine L.least (fun n => g.Reaches entry n → f'.Inside l.header n) ?_ ?_ b hmem hne hr
    · exact fun n hn hadj hrn => hlatch n hadj hrn (L.dominates n hn)
    · intro n hn hnh ih m hmn hrm
      exact D'.inside_pred hg' he' (ih (hrm.step hmn)) hnh ((hadj _ _).mp hmn)

end

namespace FlowGraph

/-- The two graphs differ at most in the order of their edges and in what cannot be reached. -/
structure Alike (G G' : FlowGraph) : Prop where
  entry : G'.entry = G.entry
  blockCount : G'.blockCount = G.blockCount
  mem_order : ∀ b, b ∈ G'.order ↔ b ∈ G.order
  mem_edges : ∀ e : Edge Crossing, e.source ∈ G.order →
    (e ∈ G'.graph.edges ↔ e ∈ G.graph.edges)

theorem Alike.refl {G : FlowGraph} : Alike G G := ⟨rfl, rfl, fun _ => Iff.rfl, fun _ _ => Iff.rfl⟩

theorem Alike.symm {G G' : FlowGraph} (h : Alike G G') : Alike G' G :=
  ⟨h.entry.symm, h.blockCount.symm, fun b => (h.mem_order b).symm,
    fun e he => (h.mem_edges e ((h.mem_order _).mp he)).symm⟩

section
variable {G G' : FlowGraph} (B : G.Built) (B' : G'.Built) (hentry : G'.entry = G.entry)
  (hadj : ∀ m n, G.graph.Adjacent m n ↔ G'.graph.Adjacent m n)
include B B' hentry hadj

theorem Built.inside_iff_of_adjacent {h b : Nat} (hr : G.graph.Reaches G.entry b) :
    G'.loops.Inside h b ↔ G.loops.Inside h b := by
  have D' := hentry ▸ B'.loops
  have he' := hentry ▸ B'.entry_lt
  constructor
  · apply D'.inside_of_adjacent B.loops B'.closed B.closed he' B.entry_lt fun m n => (hadj m n).symm
    exact hr.of_adjacent fun m n => (hadj m n).mp
  · exact B.loops.inside_of_adjacent D' B.closed B'.closed B.entry_lt he' hadj hr

/-- The label of an edge depends on the loops around its ends only. -/
theorem Built.label_of_adjacent {e e' : Edge Crossing} (he : e ∈ G.graph.edges)
    (he' : e' ∈ G'.graph.edges) (hs : e'.source = e.source) (ht : e'.target = e.target)
    (hr : G.graph.Reaches G.entry e.source) : e'.label = e.label := by
  have hr' : G'.graph.Reaches G'.entry e'.source := by
    rw [hs, hentry]
    exact hr.of_adjacent fun m n => (hadj m n).mp
  have hsource {h : Nat} : G'.loops.Inside h e'.source ↔ G.loops.Inside h e.source := by
    rw [hs]
    exact B.inside_iff_of_adjacent B' hentry hadj hr
  have htarget {h : Nat} : G'.loops.Inside h e'.target ↔ G.loops.Inside h e.target := by
    rw [ht]
    exact B.inside_iff_of_adjacent B' hentry hadj (hr.step ⟨e, he, rfl, rfl⟩)
  have hback : e'.label.back = e.label.back := by
    rw [Bool.eq_iff_iff, B'.back_iff he' hr', B.back_iff he hr, ← ht]
    exact hsource
  have henters : e'.label.enters = e.label.enters := by
    rw [Bool.eq_iff_iff, B'.enters_iff he' hr', B.enters_iff he hr, hsource, htarget, ht]
  have hmem {h : Nat} : h ∈ e'.label.exited ↔ h ∈ e.label.exited := by
    rw [B'.mem_exited he' hr', B.mem_exited he hr, hsource, htarget]
  have hexited : e'.label.exited = e.label.exited := by
    have hpair := B.exited_pairwise he hr
    -- from the inside outwards in one graph, hence in the other
    have hpair' : e'.label.exited.Pairwise fun h h' => G.loops.Inside h' h ∧ h ≠ h' := by
      refine (B'.exited_pairwise he' hr').imp_of_mem fun {h h'} hh _ H => ⟨?_, H.2⟩
      have hin := ((B.mem_exited he hr).mp (hmem.mp hh)).1
      apply (B.inside_iff_of_adjacent B' hentry hadj _).mp H.1
      exact B.loops.reaches_of_inside B.closed B.entry_lt hin
    apply List.Perm.eq_of_pairwise (fun h h' _ _ H H' => ?_) hpair' hpair
    · exact (List.perm_ext_iff_of_nodup (hpair'.imp And.right) (hpair.imp And.right)).mpr
        fun _ => hmem
    · exact B.loops.inside_antisymm B.closed B.entry_lt H.1 H'.1
  cases hl' : e'.label
  cases hl : e.label
  simp_all

theorem Built.mem_edges_of_adjacent {e : Edge Crossing} (he : e ∈ G.graph.edges)
    (hr : G.graph.Reaches G.entry e.source) : e ∈ G'.graph.edges := by
  obtain ⟨e', he', hs, ht⟩ := (hadj _ _).mp ⟨e, he, rfl, rfl⟩
  have hl : e'.label = e.label := B.label_of_adjacent B' hentry hadj he he' hs ht hr
  have heq : e' = e := by
    cases e
    cases e'
    simp_all
  exact heq ▸ he'

end

theorem adjacent_iff_of_build {blocks : List Block} {edges : List (Nat × Nat)}
    {bounds : List (Nat × LoopBound)} {entry m n : Nat} {G : FlowGraph}
    (h : build blocks edges bounds entry = .ok G) : G.graph.Adjacent m n ↔ (m, n) ∈ edges := by
  rw [← (ends_of_build h).1, List.mem_map]
  simp [Digraph.Adjacent]

/-- The edges of a graph may be added in any order. -/
theorem alike_of_perm {blocks : List Block} {edges edges' : List (Nat × Nat)}
    {bounds : List (Nat × LoopBound)} {entry : Nat} {G G' : FlowGraph}
    (h : build blocks edges bounds entry = .ok G) (h' : build blocks edges' bounds entry = .ok G')
    (hperm : edges'.Perm edges) : Alike G G' := by
  have B := built_of_build h
  have B' := built_of_build h'
  obtain ⟨-, hnodes, hentry⟩ := ends_of_build h
  obtain ⟨-, hnodes', hentry'⟩ := ends_of_build h'
  rw [← hentry'] at hentry
  have hadj : ∀ m n, G.graph.Adjacent m n ↔ G'.graph.Adjacent m n := fun m n => by
    rw [adjacent_iff_of_build h, adjacent_iff_of_build h', hperm.mem_iff]
  have horder : ∀ b, b ∈ G'.order ↔ b ∈ G.order := fun b => by
    rw [B'.mem_order, B.mem_order, hentry]
    exact ⟨fun hr => hr.of_adjacent fun m n => (hadj m n).mpr,
      fun hr => hr.of_adjacent fun m n => (hadj m n).mp⟩
  refine ⟨hentry.symm, congrArg List.length (hnodes'.trans hnodes.symm), horder, fun e hs => ?_⟩
  constructor
  · intro he
    apply B'.mem_edges_of_adjacent B hentry (fun m n => (hadj m n).symm) he
    exact B'.mem_order.mp ((horder _).mpr hs)
  · intro he
    exact B.mem_edges_of_adjacent B' hentry.symm hadj he (B.mem_order.mp hs)

end FlowGraph

end MissBound
