import MissBound.Proofs.Lru.Levels
import MissBound.Proofs.Platform.Geometry

/-!
Levels belong to loops. At every moment of the analysis of a set, the lines at a block have a level
for the whole program and one for each loop around the block, the innermost last. So levels are
joined with levels of the same loops, and an edge that leaves a loop closes the level of that loop.
-/

namespace MissBound

namespace LoopForest

variable {f : LoopForest} {b : Nat}

/-- The loops to which the levels of a line at `b` belong: none for the whole program, then the
loops around `b`, the innermost last. -/
def owners (f : LoopForest) (b : Nat) : List (Option Nat) :=
  none :: (f.headersOf b).reverse.map some

theorem getLast?_owners : (f.owners b).getLast? = some (f.innermostHeader? b) := by
  rw [owners, List.getLast?_cons, List.getLast?_map, List.getLast?_reverse, head?_headersOf]
  cases f.innermostHeader? b <;> rfl

end LoopForest

namespace FlowGraph.Built

variable {G : FlowGraph} {e : Edge Crossing} {b : Nat} (B : G.Built)
include B

theorem length_owners (hr : G.graph.Reaches G.entry b) :
    (G.loops.owners b).length = G.loops.depthAt b + 1 := by
  simp [LoopForest.owners, B.loops.depthAt_eq B.closed B.entry_lt hr]

/-- Over an edge the owners of the innermost levels give way to the target, if it is entered. -/
theorem owners_cross (he : e ∈ G.graph.edges) (hr : G.graph.Reaches G.entry e.source) : ∃ outer,
    G.loops.owners e.source = none :: outer ++ e.label.exited.reverse.map some ∧
    G.loops.owners e.target = none :: outer ++ if e.label.enters then [some e.target] else [] := by
  obtain ⟨rest, hsource, htarget⟩ := B.headersOf_target he hr
  refine ⟨rest.reverse.map some, ?_, ?_⟩
  · simp [LoopForest.owners, hsource]
  · cases hin : e.label.enters <;> simp [LoopForest.owners, htarget, hin]

end FlowGraph.Built

namespace SetDomain

variable {D : SetDomain} {G : FlowGraph} {table : AccessTable} {p : Progress SetState}
  {s : SetState} {header source n : Nat} {owners : List (Option Nat)}

/-- Leaving the loop of `header` from `source` closes the last level of every line, which belongs to
that loop, and joins only lines with equally many levels. -/
structure Closes (D : SetDomain) (owners : List (Option Nat)) (header source : Nat) (s : SetState) :
    Prop where
  owner : owners.getLast? = some (some header)
  levels : ∀ l ∈ s.lines, l.persistence.length = owners.length
  closed : ∀ l ∈ s.lines, (Age.Levels.leave l.persistence).length + 1 = l.persistence.length
  joined : ∀ earlier l later,
    s.lines.filterMap (D.leaveLine? header source) = earlier ++ l :: later →
    ∀ m ∈ earlier.foldl (fun acc l => D.insertJoining l acc) [],
      m.persistence.length = l.persistence.length

theorem closes_of_tidy (hs : s.Tidy D (n + 1)) (howner : owners.getLast? = some (some header))
    (hlen : owners.length = n + 2) : D.Closes owners header source s where
  owner := howner
  levels l hl := (hs.length l hl).trans hlen.symm
  closed l hl := Age.Levels.length_leave (by rw [hs.length l hl]; omega)
  joined earlier l later heq m hm := by
    have hleft : ∀ k ∈ earlier ++ l :: later, k.persistence.length = n + 1 := by
      rw [← heq]
      intro k hk
      obtain ⟨k', hk', hleave⟩ := List.mem_filterMap.mp hk
      exact length_leaveLine? (hs.length k' hk') hleave
    have hearlier := tidy_foldl_insertJoining (D := D) fun k hk =>
      hleft k (List.mem_append_left _ hk)
    rw [hearlier.length m hm, hleft l (List.mem_append_right _ List.mem_cons_self)]

theorem tidy_visit (B : G.Built) (hL : D.loops = G.loops) (hplaced : table.Placed) {b : Nat}
    (hr : G.graph.Reaches G.entry b)
    (C : Progress.Consistent (D.analysis table) G (fun b s => s.Tidy D (D.loops.depthAt b))
      (fun e s => s.Tidy D (D.loops.depthAt e.target)) p) :
    ((Progress.visit (D.analysis table) G p b).outputAt (D.analysis table) b).Tidy D
      (D.loops.depthAt b) := by
  have hb : b < G.blockCount :=
    Digraph.reversePostorder_lt B.closed B.entry_lt (B.mem_order.mpr hr)
  have V : Progress.Visited (D.analysis table) G b p.queue p
      (Progress.visit (D.analysis table) G p b) :=
    Progress.visited_visit (C.inputs_length ▸ hb) (C.outputs_length ▸ hb) C.edges_length
  rw [V.output, V.input]
  apply tidy_transfer hplaced
  exact (keeps_tidy B hL hplaced).input b (B.mem_order.mpr hr) _ _ (C.inputs b) C.edges

/-- Wherever the analysis of a set has come to, the lines at a block and on the edges to it have a
level for each loop around the block and one for the whole program. All that a visit of the block
joins has equally many levels, and what it sends over an edge loses the levels of the loops that the
edge leaves, one by one and from the inside, before it gets that of a loop entered. The accesses of
the table name their blocks, as in every table that is built. -/
theorem levels_match_loops {blocks : List Block} {edges : List (Nat × Nat)}
    {bounds : List (Nat × LoopBound)} {entry : Nat}
    (hG : FlowGraph.build blocks edges bounds entry = .ok G) (hL : D.loops = G.loops)
    (hplaced : table.Placed) (visits : Nat) :
    let A := D.analysis table
    let p := A.after G visits
    (∀ b, G.graph.Reaches G.entry b →
      (G.loops.owners b).length = G.loops.depthAt b + 1 ∧
      (G.loops.owners b).getLast? = some (G.loops.innermostHeader? b) ∧
      (∀ l ∈ (p.inputAt A b).lines, l.persistence.length = G.loops.depthAt b + 1) ∧
      ∀ earlier a later, Progress.arrivals A G p.onEdges b = earlier ++ a :: later →
        ∀ l ∈ (Analysis.joinAll .bottom D.join earlier).lines, ∀ m ∈ a.state.lines,
          l.persistence.length = m.persistence.length) ∧
    ∀ e i, G.graph.edges[i]? = some e →
      (∀ l ∈ (p.edgeAt A i).lines, l.persistence.length = G.loops.depthAt e.target + 1) ∧
      (G.graph.Reaches G.entry e.source →
        (∀ done h rest, e.label.exited = done ++ h :: rest →
          D.Closes ((G.loops.owners e.source).rdrop done.length) h e.source
            (done.foldl (fun s h => D.leave s h e.source)
              ((Progress.visit A G p e.source).outputAt A e.source))) ∧
        G.loops.owners e.target = (G.loops.owners e.source).rdrop e.label.exited.length ++
          if e.label.enters then [some e.target] else []) := by
  have B := FlowGraph.built_of_build hG
  have C := Progress.consistent_after B (keeps_tidy B hL hplaced) visits
  refine ⟨fun b hr => ⟨B.length_owners hr, LoopForest.getLast?_owners, ?_, ?_⟩, fun e i hget =>
    ⟨hL ▸ (C.edges e i hget).length, fun hr => ?_⟩⟩
  · exact hL ▸ (C.inputs b).length
  · intro earlier a later heq l hl m hm
    have htidy : ∀ x ∈ earlier ++ a :: later, x.state.Tidy D (D.loops.depthAt b) :=
      heq ▸ tidy_arrivals C.edges
    have hearlier := (tidy_joinAll (j := 0) fun x hx => htidy x (List.mem_append_left _ hx)).1
    rw [hearlier.length l hl,
      (htidy a (List.mem_append_right _ List.mem_cons_self)).length m hm]
  · obtain ⟨outer, hsource, htarget⟩ := B.owners_cross (List.mem_of_getElem? hget) hr
    constructor
    · intro done h rest hex
      have hrdrop : (G.loops.owners e.source).rdrop done.length =
          none :: outer ++ rest.reverse.map some ++ [some h] := by
        simp [List.rdrop_eq_reverse_drop_reverse, hsource, hex]
      have hdepth : D.loops.depthAt e.source = outer.length + rest.length + 1 + done.length := by
        have hlen := B.length_owners hr
        rw [hsource, hex, ← hL] at hlen
        simp at hlen
        omega
      have hout := tidy_visit B hL hplaced hr C
      rw [hdepth] at hout
      apply closes_of_tidy (tidy_foldl_leave _ _ hout)
      · rw [hrdrop, List.getLast?_append]
        rfl
      · simp [hrdrop]
        omega
    · simp [List.rdrop_eq_reverse_drop_reverse, hsource, htarget]

/-- Two nested loops, where the block of the inner one goes on with the outer one, and behind them a
third loop. -/
def siblingsGraph : FlowGraph where
  graph := ⟨[⟨0, []⟩, ⟨4, []⟩, ⟨8, []⟩, ⟨12, []⟩, ⟨16, []⟩],
    [⟨0, 1, ⟨false, [], true⟩⟩, ⟨1, 2, ⟨false, [], true⟩⟩, ⟨2, 2, ⟨true, [], false⟩⟩,
      ⟨2, 1, ⟨true, [2], false⟩⟩, ⟨1, 3, ⟨false, [1], true⟩⟩, ⟨3, 3, ⟨true, [], false⟩⟩,
      ⟨3, 4, ⟨false, [3], false⟩⟩]⟩
  entry := 0
  dominators := ⟨0, [some 0, some 0, some 1, some 1, some 3], [0, 1, 2, 2, 3]⟩
  loops := ⟨[⟨⟨1, [2], [1, 2]⟩, 0, none, [2], ⟨some 3, some 3⟩⟩,
    ⟨⟨2, [2], [2]⟩, 1, some 1, [], ⟨some 2, some 2⟩⟩,
    ⟨⟨3, [3], [3]⟩, 0, none, [], ⟨some 4, some 4⟩⟩], [0, 1, 2, 2, 3]⟩

def siblingsTable : AccessTable :=
  ⟨[[], [], [⟨⟨2, .affine ⟨[⟨4, 2⟩], 0x1000⟩, true⟩, 8, .load, .uint32, none⟩],
    [⟨⟨3, .affine ⟨[], 0x2000⟩, true⟩, 12, .load, .uint32, none⟩], []]⟩

def siblingsDomain : SetDomain := ⟨⟨siblingsGraph.loops, twoLines, 100⟩, 0⟩

/-- After eight visits, the line loaded in the inner loop has come to the third one with two levels;
the third of its levels was closed when it went back to the outer loop. -/
theorem levels_match_loops_siblings :
    let A := siblingsDomain.analysis siblingsTable
    let p := A.after siblingsGraph 8
    (p.edgeAt A 4).lines ≠ [] ∧ (∀ l ∈ (p.edgeAt A 4).lines, l.persistence.length = 2) ∧
    siblingsDomain.Closes [none, some 1, some 2] 2 2
      ((Progress.visit A siblingsGraph p 2).outputAt A 2) := by
  have hbuild : FlowGraph.build [⟨0, []⟩, ⟨4, []⟩, ⟨8, []⟩, ⟨12, []⟩, ⟨16, []⟩]
      [(0, 1), (1, 2), (2, 2), (2, 1), (1, 3), (3, 3), (3, 4)]
      [(1, ⟨some 3, some 3⟩), (2, ⟨some 2, some 2⟩), (3, ⟨some 4, some 4⟩)] 0 =
      .ok siblingsGraph := rfl
  have hplaced : siblingsTable.Placed := by decide
  obtain ⟨-, hedges⟩ := levels_match_loops (D := siblingsDomain) hbuild rfl hplaced 8
  have hr : siblingsGraph.graph.Reaches siblingsGraph.entry 2 :=
    (FlowGraph.built_of_build hbuild).mem_order.mp (by decide)
  refine ⟨by decide +kernel, (hedges _ 4 rfl).1, ?_⟩
  exact ((hedges _ 3 rfl).2 hr).1 [] 2 [] rfl

end SetDomain

end MissBound
