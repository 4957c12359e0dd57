import MissBound.Program.FlowGraph
import MissBound.Proofs.Failure
import MissBound.Proofs.Loop.Forest

/-!
A graph that was built without failure: what its dominator tree and its loops say of it, and what
the label of an edge says of the loops that the edge closes, leaves and enters.
-/

namespace MissBound

section Relabel

variable {α β γ : Type} {g : Digraph α β} {label : Nat → Edge β → γ}

namespace Digraph

theorem successors_mapEdges : (g.mapEdges label).successors = g.successors := by
  funext n
  simp only [successors, mapEdges, List.filter_map, List.map_map]
  rw [← List.zipIdx_map_fst 0 g.edges, List.filter_map, List.map_map]
  simp only [List.zipIdx_map_fst]
  rfl

theorem predecessors_mapEdges : (g.mapEdges label).predecessors = g.predecessors := by
  funext n
  simp only [predecessors, mapEdges, List.filter_map, List.map_map]
  rw [← List.zipIdx_map_fst 0 g.edges, List.filter_map, List.map_map]
  simp only [List.zipIdx_map_fst]
  rfl

theorem closed_mapEdges (hg : g.Closed) : (g.mapEdges label).Closed := by
  intro e he
  obtain ⟨⟨e, i⟩, hmem, rfl⟩ := List.mem_map.mp he
  exact hg e (List.fst_mem_of_mem_zipIdx hmem)

theorem reversePostorder_mapEdges {root : Nat} :
    (g.mapEdges label).reversePostorder root = g.reversePostorder root := by
  have hedges : (g.mapEdges label).edgeCount = g.edgeCount := by simp [edgeCount, mapEdges]
  rw [reversePostorder, reversePostorder, postorder, postorder, successors_mapEdges, hedges]
  rfl

end Digraph

theorem DominatorTree.of_mapEdges {entry : Nat} : of (g.mapEdges label) entry = of g entry := by
  have himprove : ∀ order, improve (g.mapEdges label) order = improve g order := by
    intro order
    funext parents n
    rw [improve, improve, Digraph.predecessors_mapEdges]
  have hsettle : ∀ order rounds parents,
      settle (g.mapEdges label) order rounds parents = settle g order rounds parents := by
    intro order rounds
    induction rounds with
    | zero => exact fun _ => rfl
    | succ rounds ih =>
      intro parents
      rw [settle, settle, pass, pass, himprove]
      simp only [ih]
  rw [of, of, Digraph.reversePostorder_mapEdges, hsettle]
  rfl

theorem NaturalLoop.detect_mapEdges {t : DominatorTree} :
    detect (g.mapEdges label) t = detect g t := by
  have hback : backEdges (g.mapEdges label) t = backEdges g t := by
    rw [backEdges, backEdges, Digraph.successors_mapEdges]
    rfl
  have hbody : bodyOf (g.mapEdges label) = bodyOf g := by
    funext h latches
    rw [bodyOf, bodyOf, Digraph.predecessors_mapEdges]
    rfl
  rw [detect, detect, hback, hbody]
  rfl

theorem LoopForest.Describes.mapEdges {entry : Nat} {f : LoopForest} (D : Describes g entry f)
    (label : Nat → Edge β → γ) : Describes (g.mapEdges label) entry f where
  natural := by rw [DominatorTree.of_mapEdges, NaturalLoop.detect_mapEdges, D.natural]
  parent := D.parent
  depth := D.depth
  depths := by
    rw [DominatorTree.of_mapEdges, D.depths]
    rfl

end Relabel

namespace FlowGraph

/-- The parts of a flow graph that belong together. -/
structure Built (G : FlowGraph) : Prop where
  closed : G.graph.Closed
  entry_lt : G.entry < G.graph.nodeCount
  dominators : G.dominators = .of G.graph G.entry
  loops : LoopForest.Describes G.graph G.entry G.loops
  label : ∀ e ∈ G.graph.edges, e.label = crossing G.dominators G.loops e.source e.target

section
variable {blocks : List Block} {edges : List (Nat × Nat)} {bounds : List (Nat × LoopBound)}
  {entry : Nat} {G : FlowGraph}

/-- The steps of building a graph, none of which has failed. -/
theorem build_ok (h : build blocks edges bounds entry = .ok G) : ∃ plain loops,
    edges.foldlM (fun g e => g.addEdge e.1 e.2 ()) (⟨blocks, []⟩ : Digraph Block Unit) = .ok plain ∧
    entry < blocks.length ∧
    bounds.foldlM (fun f b => f.setBound b.1 b.2) (LoopForest.of plain (.of plain entry)) =
      .ok loops ∧
    G = ⟨plain.mapEdges fun _ e => crossing (.of plain entry) loops e.source e.target, entry,
      .of plain entry, loops⟩ := by
  unfold build at h
  obtain ⟨plain, hplain, h⟩ := bind_ok.mp h
  by_cases hempty : blocks.isEmpty = true
  · simp only [hempty, if_true] at h
    cases h
  · by_cases hentry : blocks.length ≤ entry
    · simp only [hempty, hentry, if_true] at h
      cases h
    · simp only [hempty, hentry, if_false] at h
      obtain ⟨loops, hloops, h⟩ := bind_ok.mp h
      cases h
      exact ⟨plain, loops, hplain, Nat.lt_of_not_le hentry, hloops, rfl⟩

/-- Adding edges to a graph appends them to its edges. -/
theorem ends_of_addEdge {α : Type} (edges : List (Nat × Nat)) : ∀ g g' : Digraph α Unit,
    edges.foldlM (fun g e => g.addEdge e.1 e.2 ()) g = .ok g' → g.Closed →
    g'.Closed ∧ g'.nodes = g.nodes ∧ g'.edges.map (fun e => (e.source, e.target)) =
      g.edges.map (fun e => (e.source, e.target)) ++ edges := by
  induction edges with
  | nil =>
    intro g g' h hg
    cases h
    exact ⟨hg, rfl, (List.append_nil _).symm⟩
  | cons e edges ih =>
    intro g g' h hg
    rw [List.foldlM_cons] at h
    obtain ⟨k, hadd, h⟩ := bind_ok.mp h
    unfold Digraph.addEdge at hadd
    split at hadd
    · rename_i hlt
      cases hadd
      have hk : ∀ e' ∈ g.edges ++ [⟨e.1, e.2, ()⟩],
          e'.source < g.nodeCount ∧ e'.target < g.nodeCount := by
        intro e' he'
        rcases List.mem_append.mp he' with he' | he'
        · exact hg e' he'
        · cases List.mem_singleton.mp he'
          exact hlt
      obtain ⟨hclosed, hnodes, hends⟩ := ih _ _ h hk
      refine ⟨hclosed, hnodes, ?_⟩
      rw [hends]
      simp
    · cases hadd

/-- The blocks and edges that a graph was built from. -/
theorem ends_of_build (h : build blocks edges bounds entry = .ok G) :
    G.graph.edges.map (fun e => (e.source, e.target)) = edges ∧ G.graph.nodes = blocks ∧
      G.entry = entry := by
  obtain ⟨plain, loops, hplain, -, -, rfl⟩ := build_ok h
  obtain ⟨-, hnodes, hends⟩ := ends_of_addEdge edges _ _ hplain fun e he => (by cases he)
  refine ⟨?_, hnodes, rfl⟩
  rw [← List.zipIdx_map_fst 0 plain.edges, List.map_map] at hends
  simpa [Digraph.mapEdges, Function.comp_def] using hends

theorem built_of_build (h : build blocks edges bounds entry = .ok G) : G.Built := by
  obtain ⟨plain, loops, hplain, hlt, hloops, rfl⟩ := build_ok h
  obtain ⟨hclosed, hnodes, -⟩ := ends_of_addEdge edges _ _ hplain fun e he => (by cases he)
  have hD : LoopForest.Describes plain entry loops :=
    foldlM_ok (fun _ _ _ D => D.setBound) bounds _ _ LoopForest.describes_of hloops
  refine ⟨Digraph.closed_mapEdges hclosed, ?_, DominatorTree.of_mapEdges.symm, ?_, fun e he => ?_⟩
  · exact hlt.trans_eq (congrArg List.length hnodes).symm
  · exact hD.mapEdges fun _ e => crossing (.of plain entry) loops e.source e.target
  · obtain ⟨⟨e, i⟩, -, rfl⟩ := List.mem_map.mp he
    rfl

end

namespace Built

variable {G : FlowGraph} {e : Edge Crossing} {h : Nat} (B : G.Built) (he : e ∈ G.graph.edges)
include B

theorem mem_order {n : Nat} : n ∈ G.order ↔ G.graph.Reaches G.entry n :=
  Digraph.mem_reversePostorder B.closed B.entry_lt

/-- No loop around the entry has another header. -/
theorem eq_entry_of_inside (h' : G.loops.Inside h G.entry) : h = G.entry :=
  List.mem_singleton.mp (B.loops.dominates_of_inside B.closed B.entry_lt h' _ .start)

/-- A loop can be entered: some edge leads to its header from a reachable block outside. -/
theorem exists_entering {n : Nat} (hn : G.loops.Inside h n) (hr : G.graph.Reaches G.entry n)
    (hne : h ≠ G.entry) : ∃ e ∈ G.graph.edges, e.target = h ∧
      G.graph.Reaches G.entry e.source ∧ ¬G.loops.Inside h e.source := by
  obtain ⟨w, hw⟩ := hr
  induction hw with
  | start => exact absurd (B.eq_entry_of_inside hn) hne
  | @step m n w hw hmn ih =>
    by_cases hm : G.loops.Inside h m
    · exact ih hm
    · obtain ⟨e, he, rfl, rfl⟩ := hmn
      refine ⟨e, he, ?_, ⟨w, hw⟩, hm⟩
      by_contra hne'
      exact hm (B.loops.inside_pred B.closed B.entry_lt hn hne' ⟨e, he, rfl, rfl⟩)

include he

/-- A loop is entered at its header only. -/
theorem eq_target_of_inside (ht : G.loops.Inside h e.target) (hs : ¬G.loops.Inside h e.source) :
    h = e.target := by
  by_contra hne
  exact hs (B.loops.inside_pred B.closed B.entry_lt ht (Ne.symm hne) ⟨e, he, rfl, rfl⟩)

variable (hr : G.graph.Reaches G.entry e.source)
include hr

theorem back_iff : e.label.back = true ↔ G.loops.Inside e.target e.source := by
  rw [B.label e he, B.dominators]
  refine (DominatorTree.dominates_of B.closed B.entry_lt).trans ⟨fun h => ?_, fun h => ⟨hr, ?_⟩⟩
  · exact B.loops.inside_latch B.closed B.entry_lt ⟨e, he, rfl, rfl⟩ h.1 h.2
  · exact B.loops.dominates_of_inside B.closed B.entry_lt h

theorem enters_iff : e.label.enters = true ↔
    G.loops.Inside e.target e.target ∧ ¬G.loops.Inside e.target e.source := by
  have hback := B.back_iff he hr
  rw [B.label e he] at hback ⊢
  simp only [crossing] at hback ⊢
  rw [Bool.and_eq_true, Bool.not_eq_true', ← hback, Bool.not_eq_true]
  refine and_congr_left fun _ => ⟨B.loops.inside_self B.closed B.entry_lt, fun h => ?_⟩
  exact B.loops.isHeader_of_inside h

/-- The loops that an edge leaves are those around its source but not its target. -/
theorem mem_exited : h ∈ e.label.exited ↔
    G.loops.Inside h e.source ∧ ¬G.loops.Inside h e.target := by
  obtain ⟨hpair, hmem⟩ := B.loops.headersOf_spec B.closed B.entry_lt hr
  have hleft : ∀ k, (G.loops.loopAt? k).any (fun l => !l.body.contains e.target) = true ↔
      G.loops.isHeader k = true ∧ ¬G.loops.Inside k e.target := by
    intro k
    unfold LoopForest.Inside LoopForest.isHeader
    cases G.loops.loopAt? k <;> simp
  rw [B.label e he, ← hmem h]
  simp only [crossing]
  -- a loop around the target lies within all further loops around the source
  have hup : ∀ k k', G.loops.Inside k' k → G.loops.Inside k e.target →
      G.loops.Inside k' e.target := fun _ _ h₁ h₂ =>
    B.loops.inside_trans B.closed B.entry_lt h₁ h₂
  have hhead : ∀ k ∈ G.loops.headersOf e.source, G.loops.isHeader k = true := fun k hk =>
    B.loops.isHeader_of_inside ((hmem k).mp hk)
  generalize G.loops.headersOf e.source = hs at hpair hhead
  clear hmem
  induction hs with
  | nil => simp
  | cons k hs ih =>
    obtain ⟨hk, hpair⟩ := List.pairwise_cons.mp hpair
    have hrest := ih hpair fun k hk => hhead k (List.mem_cons_of_mem _ hk)
    rw [List.takeWhile_cons]
    split
    · rename_i hpos
      rw [List.mem_cons, List.mem_cons, or_and_right]
      refine or_congr (and_iff_left_of_imp ?_).symm hrest
      rintro rfl
      exact ((hleft h).mp hpos).2
    · rename_i hneg
      have hin : G.loops.Inside k e.target := by
        by_contra hnot
        exact hneg ((hleft k).mpr ⟨hhead k List.mem_cons_self, hnot⟩)
      refine ⟨fun h => (by cases h), fun ⟨hmem, hnot⟩ => absurd ?_ hnot⟩
      rcases List.mem_cons.mp hmem with rfl | hmem
      · exact hin
      · exact hup k h (hk h hmem).1 hin

theorem exited_pairwise :
    e.label.exited.Pairwise fun h h' => G.loops.Inside h' h ∧ h ≠ h' := by
  rw [B.label e he]
  exact (B.loops.headersOf_spec B.closed B.entry_lt hr).1.sublist (List.takeWhile_sublist _)

/-- Loops are left from the inside: the next one comes first among those still around. -/
theorem exited_first {done rest : List Nat} {u : Nat} (hex : e.label.exited = done ++ h :: rest)
    (hu : G.loops.Inside u e.source) (hdone : u ∉ done) (hne : u ≠ h) :
    G.loops.compareHeaders h u = .lt := by
  have hpair := B.exited_pairwise he hr
  obtain ⟨hs, ht⟩ := (B.mem_exited he hr).mp (hex ▸ List.mem_append_right _ List.mem_cons_self)
  have hin : G.loops.Inside u h := by
    rcases B.loops.inside_total B.closed B.entry_lt hr hu hs with hin | hin
    · exact hin
    · have hmem : u ∈ done ++ h :: rest := by
        refine hex ▸ (B.mem_exited he hr).mpr ⟨hu, fun hut => ht ?_⟩
        exact B.loops.inside_trans B.closed B.entry_lt hin hut
      have hrest := (List.mem_cons.mp ((List.mem_append.mp hmem).resolve_left hdone)).resolve_left
        hne
      rw [hex] at hpair
      exact ((List.pairwise_cons.mp (List.pairwise_append.mp hpair).2.1).1 u hrest).1
  exact B.loops.compareHeaders_of_inside B.closed B.entry_lt hin (Ne.symm hne)
    (B.loops.isHeader_of_inside hs)

/-- A loop around the target was around the source before, or is entered. -/
theorem inside_target_iff : G.loops.Inside h e.target ↔
    G.loops.Inside h e.source ∧ h ∉ e.label.exited ∨ e.label.enters = true ∧ h = e.target := by
  rw [B.mem_exited he hr, B.enters_iff he hr]
  constructor
  · intro ht
    by_cases hs : G.loops.Inside h e.source
    · exact .inl ⟨hs, fun hex => hex.2 ht⟩
    · cases B.eq_target_of_inside he ht hs
      exact .inr ⟨⟨ht, hs⟩, rfl⟩
  · rintro (⟨hs, hex⟩ | ⟨⟨ht, -⟩, rfl⟩)
    · by_contra ht
      exact hex ⟨hs, ht⟩
    · exact ht

/-- The loops around the source of an edge are those that it leaves and, further out, those around
both ends; around its target there is at most its own loop besides. -/
theorem headersOf_cross : ∃ rest, G.loops.headersOf e.source = e.label.exited ++ rest ∧
    (∀ g, g ∈ rest ↔ G.loops.Inside g e.source ∧ G.loops.Inside g e.target) ∧
    (G.loops.headersOf e.target).Perm (if e.label.enters then e.target :: rest else rest) := by
  have hnodup : ∀ {n}, G.graph.Reaches G.entry n → (G.loops.headersOf n).Nodup := fun hn =>
    (B.loops.headersOf_spec B.closed B.entry_lt hn).1.imp fun h => h.2
  have hrt : G.graph.Reaches G.entry e.target := hr.step ⟨e, he, rfl, rfl⟩
  have hmem := (B.loops.headersOf_spec B.closed B.entry_lt hr).2
  obtain ⟨rest, hrest⟩ : e.label.exited <+: G.loops.headersOf e.source := by
    rw [B.label e he]
    exact List.takeWhile_prefix _
  have hsplit := hnodup hr
  rw [← hrest, List.nodup_append] at hsplit
  obtain ⟨-, hd, hdisj⟩ := hsplit
  have hin : ∀ g, g ∈ rest ↔ G.loops.Inside g e.source ∧ G.loops.Inside g e.target := by
    intro g
    constructor
    · intro hg
      have hs := (hmem g).mp (hrest ▸ List.mem_append_right _ hg)
      refine ⟨hs, ?_⟩
      by_contra ht
      exact hdisj g ((B.mem_exited he hr).mpr ⟨hs, ht⟩) g hg rfl
    · rintro ⟨hs, ht⟩
      have hg := (hmem g).mpr hs
      rw [← hrest] at hg
      exact (List.mem_append.mp hg).resolve_left fun hex => ((B.mem_exited he hr).mp hex).2 ht
  refine ⟨rest, hrest.symm, hin, (List.perm_ext_iff_of_nodup (hnodup hrt) ?_).mpr fun g => ?_⟩
  · split
    · rename_i henters
      refine List.nodup_cons.mpr ⟨fun hmem => ?_, hd⟩
      exact ((B.enters_iff he hr).mp henters).2 ((hin _).mp hmem).1
    · exact hd
  · rw [(B.loops.headersOf_spec B.closed B.entry_lt hrt).2]
    have hcases : G.loops.Inside g e.target ↔ g ∈ rest ∨ e.label.enters = true ∧ g = e.target := by
      rw [hin]
      refine (B.inside_target_iff he hr).trans (or_congr_left (and_congr_right fun hs => ?_))
      rw [B.mem_exited he hr, not_and_not_right]
      exact imp_iff_right hs
    rw [hcases]
    split
    · rename_i henters
      simp [henters, or_comm]
    · rename_i henters
      simp [henters]

/-- From the inside outwards, the loops around the target of an edge are those around its source
without the ones left, and its own loop before them if the edge enters it. -/
theorem headersOf_target : ∃ rest, G.loops.headersOf e.source = e.label.exited ++ rest ∧
    G.loops.headersOf e.target = if e.label.enters then e.target :: rest else rest := by
  have hrt : G.graph.Reaches G.entry e.target := hr.step ⟨e, he, rfl, rfl⟩
  obtain ⟨rest, hsource, hin, hperm⟩ := B.headersOf_cross he hr
  have hpair := (B.loops.headersOf_spec B.closed B.entry_lt hr).1
  rw [hsource] at hpair
  have hrest := (List.pairwise_append.mp hpair).2.1
  refine ⟨rest, hsource, hperm.eq_of_pairwise (fun h h' _ _ H H' => ?_)
    (B.loops.headersOf_spec B.closed B.entry_lt hrt).1 ?_⟩
  · exact B.loops.inside_antisymm B.closed B.entry_lt H.1 H'.1
  · split
    · rename_i henters
      refine List.pairwise_cons.mpr ⟨fun g hg => ⟨((hin g).mp hg).2, ?_⟩, hrest⟩
      rintro rfl
      exact ((B.enters_iff he hr).mp henters).2 ((hin _).mp hg).1
    · exact hrest

/-- An edge closes one level of nesting for each loop that it leaves and opens one if it enters a
loop. -/
theorem depthAt_cross : ∃ n, G.loops.depthAt e.source = n + e.label.exited.length ∧
    G.loops.depthAt e.target = n + e.label.enters.toNat ∧
    ∀ g, G.loops.Inside g e.source → G.loops.Inside g e.target → G.loops.depthAt g ≤ n := by
  have hrt : G.graph.Reaches G.entry e.target := hr.step ⟨e, he, rfl, rfl⟩
  obtain ⟨rest, hsource, hin, htarget⟩ := B.headersOf_cross he hr
  refine ⟨rest.length, ?_, ?_, fun g hs ht => ?_⟩
  · rw [B.loops.depthAt_eq B.closed B.entry_lt hr, hsource, List.length_append, Nat.add_comm]
  · rw [B.loops.depthAt_eq B.closed B.entry_lt hrt, htarget.length_eq]
    cases e.label.enters <;> rfl
  · have hg := B.loops.reaches_of_inside B.closed B.entry_lt hs
    refine B.loops.depthAt_le_length B.closed B.entry_lt hg fun k hk => (hin k).mpr ?_
    exact ⟨B.loops.inside_trans B.closed B.entry_lt hk hs,
      B.loops.inside_trans B.closed B.entry_lt hk ht⟩

end Built

end FlowGraph

end MissBound
