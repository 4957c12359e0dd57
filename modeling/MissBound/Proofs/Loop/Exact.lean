import MissBound.Proofs.Digraph.Cycle
import MissBound.Proofs.Loop.Forest

/-!
The loops of a graph, told by its walks alone. A back edge leads to a node that lies on every walk
to its source, and the nodes of a loop are those that lead to such a source without meeting the
header. The loop forest is shown to hold just these loops, and to nest them as their nodes are
nested.
-/

namespace MissBound

namespace Digraph

variable {α β : Type} {g : Digraph α β} {root h b n : Nat}

/-- The edge from `n` to `h` is a back edge: `n` can be reached, and through `h` only. -/
structure ClosesLoop (g : Digraph α β) (root n h : Nat) : Prop where
  adjacent : g.Adjacent n h
  reaches : g.Reaches root n
  dominates : g.Dominates root h n

/-- The nodes of the loop of `h`, none if no back edge leads to `h`. -/
def loopNodes (g : Digraph α β) (root h : Nat) : Set Nat :=
  {b | ∃ n, g.ClosesLoop root n h ∧ (b = h ∨ ∃ w, g.Walk b n w ∧ h ∉ w)}

/-- The nodes of the loop of `h` that can be reached. -/
def reachableLoopNodes (g : Digraph α β) (root h : Nat) : Set Nat :=
  {b ∈ g.loopNodes root h | g.Reaches root b}

theorem ClosesLoop.mem_loopNodes (hn : g.ClosesLoop root n h) : h ∈ g.loopNodes root h :=
  ⟨n, hn, .inl rfl⟩

end Digraph

namespace NaturalLoop

variable {α β : Type} {g : Digraph α β} {h n : Nat} {latches : List Nat}

/-- A body holds the header and the nodes that lead to a latch without meeting the header. -/
theorem mem_bodyOf (hg : g.Closed) (hh : h < g.nodeCount) (hlt : ∀ n ∈ latches, n < g.nodeCount) :
    n ∈ bodyOf g h latches ↔ n = h ∨ ∃ m ∈ latches, ∃ w, g.Walk n m w ∧ h ∉ w := by
  obtain ⟨t, f, hf, hmem⟩ := explored_bodyOf hg hh hlt
  have hseen : ∀ {m}, m ∈ t.seen → m ≠ h → m ∈ f := fun hm hne =>
    (hf.mem_seen.mp hm).resolve_right fun hs => hne (List.mem_singleton.mp hs)
  rw [hmem, or_comm]
  refine or_congr_right ⟨fun hn => ?_, ?_⟩
  · refine hf.least (fun n => ∃ m ∈ latches, ∃ w, g.Walk n m w ∧ h ∉ w) ?_ ?_ n hn
    · intro r hr hrs
      refine ⟨r, hr, [r], .start, fun hmem => hrs ?_⟩
      exact List.mem_singleton.mpr (List.mem_singleton.mp hmem).symm
    · rintro m ⟨k, hk, w, hw, havoid⟩ p hp hps
      refine ⟨k, hk, w ++ [p], hw.prepend (Digraph.mem_predecessors.mp hp), ?_⟩
      simp only [List.mem_append, List.mem_singleton, not_or] at hps ⊢
      exact ⟨havoid, Ne.symm hps⟩
  · rintro ⟨m, hm, w, hw, havoid⟩
    have hmf : m ∈ f := hseen (hf.found m hm) fun heq => havoid (heq ▸ hw.mem_target)
    clear hm
    -- backwards along the walk, each node is met from the one behind it
    induction hw with
    | start => exact hmf
    | @step k m w hw hkm ih =>
      have havoid := fun hmem => havoid (List.mem_cons_of_mem m hmem)
      have hkh : k ≠ h := fun heq => havoid (heq ▸ hw.mem_target)
      exact ih havoid (hseen (hf.closed m hmf k (Digraph.mem_predecessors.mpr hkm)) hkh)

end NaturalLoop

namespace LoopForest

variable {α β : Type} {g : Digraph α β} {entry h h' b n p : Nat} {f : LoopForest}

/-- The loop of `p` is the one directly around the loop of `h`. -/
def Encloses (f : LoopForest) (p h : Nat) : Prop :=
  ∃ l ∈ f.loops, l.header = h ∧ l.parent = some p

/-- `f` is the forest of the loops of `g`. -/
structure Exact (g : Digraph α β) (entry : Nat) (f : LoopForest) : Prop where
  /-- There is one loop for each node to which a back edge leads. -/
  nodup_headers : (f.loops.map (·.header)).Nodup
  mem_headers : ∀ h, h ∈ f.loops.map (·.header) ↔ ∃ n, g.ClosesLoop entry n h
  mem_latches : ∀ l ∈ f.loops, ∀ n, n ∈ l.latches ↔ g.ClosesLoop entry n l.header
  mem_body : ∀ l ∈ f.loops, ∀ b, b ∈ l.body ↔ b ∈ g.loopNodes entry l.header
  /-- Where they can be reached, two loops are apart or one lies strictly inside the other. -/
  laminar : ∀ h h', h ≠ h' →
    Disjoint (g.reachableLoopNodes entry h) (g.reachableLoopNodes entry h') ∨
    g.reachableLoopNodes entry h ⊂ g.reachableLoopNodes entry h' ∨
    g.reachableLoopNodes entry h' ⊂ g.reachableLoopNodes entry h
  /-- The parent is the smallest other loop around the header. -/
  parent_eq_some : ∀ l ∈ f.loops, ∀ p, l.parent = some p ↔
    ∃ k ∈ f.loops, k.header = p ∧ p ≠ l.header ∧ l.header ∈ k.body ∧
      ∀ k' ∈ f.loops, k'.header ≠ l.header → l.header ∈ k'.body → k'.header = p ∨ k.size < k'.size
  parent_eq_none : ∀ l ∈ f.loops, l.parent = none ↔
    ∀ k ∈ f.loops, l.header ∈ k.body → k.header = l.header
  acyclic : ∀ h, ¬Relation.TransGen f.Encloses h h
  /-- The headers around a block are listed innermost first. -/
  mem_headersOf : ∀ b, g.Reaches entry b → ∀ h, h ∈ f.headersOf b ↔ b ∈ g.loopNodes entry h
  headersOf_nested : ∀ b, g.Reaches entry b →
    (f.headersOf b).Pairwise fun h h' => g.loopNodes entry h ⊂ g.loopNodes entry h'
  innermostHeader?_eq : ∀ b, g.Reaches entry b → f.innermostHeader? b = (f.headersOf b).head?
  depthAt_eq : ∀ b, g.Reaches entry b → f.depthAt b = (f.headersOf b).length

namespace Describes

variable (hg : g.Closed) (he : entry < g.nodeCount) (D : Describes g entry f)

include D in
theorem mem_detect {l : Loop} (hl : l ∈ f.loops) :
    l.toNaturalLoop ∈ NaturalLoop.detect g (.of g entry) :=
  D.natural ▸ List.mem_map.mpr ⟨l, hl, rfl⟩

include hg he D

theorem closesLoop_iff {l : Loop} (hl : l ∈ f.loops) :
    n ∈ l.latches ↔ g.ClosesLoop entry n l.header := by
  rw [NaturalLoop.mem_latches hg he (D.mem_detect hl)]
  exact ⟨fun ⟨h₁, h₂, h₃⟩ => ⟨h₁, h₂, h₃⟩, fun h => ⟨h.adjacent, h.reaches, h.dominates⟩⟩

theorem exists_closesLoop {l : Loop} (hl : l ∈ f.loops) : ∃ n, g.ClosesLoop entry n l.header := by
  obtain ⟨n, hn⟩ := NaturalLoop.exists_latch hg he (D.mem_detect hl)
  refine ⟨n, (D.closesLoop_iff hg he hl).mp ?_⟩
  exact (NaturalLoop.mem_latches hg he (D.mem_detect hl)).mpr hn

theorem exists_loop (hn : g.ClosesLoop entry n h) : ∃ l ∈ f.loops, l.header = h := by
  obtain ⟨k, hk, rfl⟩ := NaturalLoop.exists_detect hg he hn.adjacent hn.reaches hn.dominates
  rw [← D.natural] at hk
  obtain ⟨l, hl, rfl⟩ := List.mem_map.mp hk
  exact ⟨l, hl, rfl⟩

theorem mem_body_iff {l : Loop} (hl : l ∈ f.loops) :
    b ∈ l.body ↔ b ∈ g.loopNodes entry l.header := by
  have hlt : ∀ n ∈ l.latches, n < g.nodeCount := fun n hn =>
    (hg.lt ((D.closesLoop_iff hg he hl).mp hn).adjacent).1
  obtain ⟨n, hn⟩ := D.exists_closesLoop hg he hl
  rw [NaturalLoop.body_eq (D.mem_detect hl),
    NaturalLoop.mem_bodyOf hg (hg.lt hn.adjacent).2 hlt]
  constructor
  · rintro (rfl | ⟨m, hm, hw⟩)
    · exact hn.mem_loopNodes
    · exact ⟨m, (D.closesLoop_iff hg he hl).mp hm, .inr hw⟩
  · rintro ⟨m, hm, hb⟩
    exact hb.imp_right fun hw => ⟨m, (D.closesLoop_iff hg he hl).mpr hm, hw⟩

theorem inside_iff_mem : f.Inside h b ↔ b ∈ g.loopNodes entry h := by
  rw [D.inside_iff]
  constructor
  · rintro ⟨l, hl, rfl, hb⟩
    exact (D.mem_body_iff hg he hl).mp hb
  · rintro ⟨n, hn, hb⟩
    obtain ⟨l, hl, rfl⟩ := D.exists_loop hg he hn
    exact ⟨l, hl, rfl, (D.mem_body_iff hg he hl).mpr ⟨n, hn, hb⟩⟩

/-- A loop that holds the header of another one holds all its nodes. -/
theorem loopNodes_subset (h₁ : f.Inside h' h) : g.loopNodes entry h ⊆ g.loopNodes entry h' := by
  intro b hb
  rw [← D.inside_iff_mem hg he] at hb ⊢
  exact D.inside_trans hg he h₁ hb

theorem header_mem_loopNodes (h₁ : f.Inside h b) : h ∈ g.loopNodes entry h :=
  (D.inside_iff_mem hg he).mp (D.inside_self hg he (D.isHeader_of_inside h₁))

theorem header_notMem_loopNodes (h₁ : f.Inside h' h) (hne : h ≠ h') :
    h' ∉ g.loopNodes entry h := fun hmem =>
  hne (D.inside_antisymm hg he h₁ ((D.inside_iff_mem hg he).mpr hmem))

theorem loopNodes_ssubset (h₁ : f.Inside h' h) (hne : h ≠ h') :
    g.loopNodes entry h ⊂ g.loopNodes entry h' := by
  apply (Set.ssubset_iff_of_subset (D.loopNodes_subset hg he h₁)).mpr
  exact ⟨h', D.header_mem_loopNodes hg he h₁, D.header_notMem_loopNodes hg he h₁ hne⟩

theorem reachableLoopNodes_ssubset (h₁ : f.Inside h' h) (hne : h ≠ h') :
    g.reachableLoopNodes entry h ⊂ g.reachableLoopNodes entry h' := by
  have hsub : g.reachableLoopNodes entry h ⊆ g.reachableLoopNodes entry h' := fun b hb =>
    ⟨D.loopNodes_subset hg he h₁ hb.1, hb.2⟩
  apply (Set.ssubset_iff_of_subset hsub).mpr
  refine ⟨h', ⟨D.header_mem_loopNodes hg he h₁, D.reaches_of_inside hg he h₁⟩, fun hmem => ?_⟩
  exact D.header_notMem_loopNodes hg he h₁ hne hmem.1

theorem laminar (hne : h ≠ h') :
    Disjoint (g.reachableLoopNodes entry h) (g.reachableLoopNodes entry h') ∨
    g.reachableLoopNodes entry h ⊂ g.reachableLoopNodes entry h' ∨
    g.reachableLoopNodes entry h' ⊂ g.reachableLoopNodes entry h := by
  rw [or_iff_not_imp_left, Set.not_disjoint_iff]
  rintro ⟨b, ⟨hb, hr⟩, hb', -⟩
  rw [← D.inside_iff_mem hg he] at hb hb'
  rcases D.inside_total hg he hr hb hb' with hin | hin
  · exact .inr (D.reachableLoopNodes_ssubset hg he hin (Ne.symm hne))
  · exact .inl (D.reachableLoopNodes_ssubset hg he hin hne)

/-- No two loops around a header have the same size. -/
theorem parent_eq_some {l : Loop} (hl : l ∈ f.loops) : l.parent = some p ↔
    ∃ k ∈ f.loops, k.header = p ∧ p ≠ l.header ∧ l.header ∈ k.body ∧
      ∀ k' ∈ f.loops, k'.header ≠ l.header → l.header ∈ k'.body →
        k'.header = p ∨ k.size < k'.size := by
  obtain ⟨hsome, hnone⟩ := D.parent_spec hl
  constructor
  · intro hp
    obtain ⟨k, hk, rfl, hne, hmem, hmin⟩ := hsome p hp
    refine ⟨k, hk, rfl, hne, hmem, fun k' hk' hne' hmem' => or_iff_not_imp_left.mpr fun hkk => ?_⟩
    have hle := hmin k' hk' hne' hmem'
    have L := D.isLoop hg he hl
    rcases (D.isLoop hg he hk).nested hg he (D.isLoop hg he hk') L.reachable hmem hmem' with
      heq | hw | hw
    · exact absurd heq.symm hkk
    · exact hw.size_lt (D.isLoop hg he hk) (D.isLoop hg he hk')
    · have hlt := hw.size_lt (D.isLoop hg he hk') (D.isLoop hg he hk)
      exact absurd hle (Nat.not_le_of_lt hlt)
  · rintro ⟨k, hk, rfl, hne, hmem, hmin⟩
    cases hp : l.parent with
    | none => exact absurd (hnone hp k hk hmem) hne
    | some q =>
      obtain ⟨k', hk', rfl, hne', hmem', hle⟩ := hsome q hp
      rcases hmin k' hk' hne' hmem' with heq | hlt
      · rw [heq]
      · exact absurd (hle k hk hne hmem) (Nat.not_le_of_lt hlt)

theorem parent_eq_none {l : Loop} (hl : l ∈ f.loops) : l.parent = none ↔
    ∀ k ∈ f.loops, l.header ∈ k.body → k.header = l.header := by
  refine ⟨(D.parent_spec hl).2, fun hall => Option.eq_none_iff_forall_ne_some.mpr fun p hp => ?_⟩
  obtain ⟨k, hk, rfl, hne, hmem, -⟩ := (D.parent_eq_some hg he hl).mp hp
  exact hne (hall k hk hmem)

theorem around_lt_of_encloses (h₁ : f.Encloses p h) : f.around p < f.around h := by
  obtain ⟨l, hl, rfl, hp⟩ := h₁
  obtain ⟨k, hk, rfl, hne, hmem, -⟩ := (D.parent_eq_some hg he hl).mp hp
  apply D.around_lt hg he (D.inside_iff.mpr ⟨k, hk, rfl, hmem⟩) (Ne.symm hne)
  exact D.isHeader_iff.mpr ⟨l, hl, rfl⟩

/-- Outwards the loops get fewer, so that no loop is around itself. -/
theorem around_lt_of_transGen (h₁ : Relation.TransGen f.Encloses p h) :
    f.around p < f.around h := by
  induction h₁ with
  | single h₁ => exact D.around_lt_of_encloses hg he h₁
  | tail _ h₁ ih => exact ih.trans (D.around_lt_of_encloses hg he h₁)

theorem exact : f.Exact g entry where
  nodup_headers := List.pairwise_map.mpr (D.headers_sorted.imp Nat.ne_of_lt)
  mem_headers h := by
    rw [List.mem_map]
    constructor
    · rintro ⟨l, hl, rfl⟩
      exact D.exists_closesLoop hg he hl
    · rintro ⟨n, hn⟩
      exact D.exists_loop hg he hn
  mem_latches _ hl _ := D.closesLoop_iff hg he hl
  mem_body _ hl _ := D.mem_body_iff hg he hl
  laminar _ _ hne := D.laminar hg he hne
  parent_eq_some _ hl _ := D.parent_eq_some hg he hl
  parent_eq_none _ hl := D.parent_eq_none hg he hl
  acyclic _ hh := Nat.lt_irrefl _ (D.around_lt_of_transGen hg he hh)
  mem_headersOf _ hr h := ((D.headersOf_spec hg he hr).2 h).trans (D.inside_iff_mem hg he)
  headersOf_nested _ hr :=
    (D.headersOf_spec hg he hr).1.imp fun hin => D.loopNodes_ssubset hg he hin.1 hin.2
  innermostHeader?_eq _ _ := head?_headersOf.symm
  depthAt_eq _ hr := D.depthAt_eq hg he hr

end Describes

/-- The forest of a graph holds the loops that its back edges close, and nests them as their nodes
are nested. -/
theorem forest_exact (hg : g.Closed) (he : entry < g.nodeCount) :
    (of g (.of g entry)).Exact g entry := describes_of.exact hg he

/-- A loop in a loop, the outer one with two latches, and behind them a cycle with two entries. A
node that cannot be reached leads into the inner loop. -/
def nestedLoops : Digraph Unit Unit :=
  ⟨List.replicate 8 (), [⟨0, 1, ()⟩, ⟨1, 2, ()⟩, ⟨2, 3, ()⟩, ⟨3, 2, ()⟩, ⟨3, 1, ()⟩, ⟨2, 1, ()⟩,
    ⟨1, 4, ()⟩, ⟨4, 5, ()⟩, ⟨4, 6, ()⟩, ⟨5, 6, ()⟩, ⟨6, 5, ()⟩, ⟨7, 3, ()⟩]⟩

/-- The cycle with two entries is no loop, and the node that cannot be reached counts as one of the
inner loop. -/
theorem forest_exact_nested :
    nestedLoops.ClosesLoop 0 2 1 ∧ nestedLoops.ClosesLoop 0 3 1 ∧
    nestedLoops.loopNodes 0 2 ⊂ nestedLoops.loopNodes 0 1 ∧ 7 ∈ nestedLoops.loopNodes 0 2 ∧
    (∀ n, ¬nestedLoops.ClosesLoop 0 n 5) ∧ ∀ n, ¬nestedLoops.ClosesLoop 0 n 6 := by
  have hg : nestedLoops.Closed := by decide
  have he : 0 < nestedLoops.nodeCount := by decide
  have E := forest_exact hg he
  obtain ⟨l, hl, hh, hl₂, hl₃⟩ : ∃ l ∈ (of nestedLoops (.of nestedLoops 0)).loops, l.header = 1 ∧
      2 ∈ l.latches ∧ 3 ∈ l.latches := by decide
  obtain ⟨k, hk, hh', hk₇⟩ : ∃ k ∈ (of nestedLoops (.of nestedLoops 0)).loops, k.header = 2 ∧
      7 ∈ k.body := by decide
  have h₂ := hh ▸ (E.mem_latches l hl 2).mp hl₂
  have h₃ := hh ▸ (E.mem_latches l hl 3).mp hl₃
  have hnest := E.headersOf_nested 3 h₃.reaches
  have hheaders : (of nestedLoops (.of nestedLoops 0)).headersOf 3 = [2, 1] := by decide
  rw [hheaders, List.pairwise_pair] at hnest
  refine ⟨h₂, h₃, hnest, hh' ▸ (E.mem_body k hk 7).mp hk₇, fun n hn => ?_, fun n hn => ?_⟩
  · exact absurd ((E.mem_headers 5).mpr ⟨n, hn⟩) (by decide)
  · exact absurd ((E.mem_headers 6).mpr ⟨n, hn⟩) (by decide)

end LoopForest

end MissBound
