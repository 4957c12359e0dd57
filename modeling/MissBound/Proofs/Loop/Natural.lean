import MissBound.Loop.Natural
import MissBound.Proofs.Digraph.Dominator

/-!
Natural loops. A loop can be entered at its header only, the header dominates its nodes, and of two
loops that share a reachable node one lies inside the other.
-/

namespace MissBound.NaturalLoop

variable {α β : Type} {g : Digraph α β} {entry h b m n : Nat} {l l' : NaturalLoop}

/-- What makes `l` the natural loop of its header. -/
structure IsLoop (g : Digraph α β) (entry : Nat) (l : NaturalLoop) : Prop where
  reachable : g.Reaches entry l.header
  header_mem : l.header ∈ l.body
  latch_mem : ∀ n, g.Adjacent n l.header → g.Reaches entry n → g.Dominates entry l.header n →
    n ∈ l.body
  dominates : ∀ n ∈ l.body, g.Dominates entry l.header n
  pred_mem : ∀ n ∈ l.body, n ≠ l.header → ∀ m, g.Adjacent m n → m ∈ l.body
  /-- The body is the least such set: it grows from the latches backwards. -/
  least : ∀ P : Nat → Prop,
    (∀ n ∈ l.body, g.Adjacent n l.header → P n) →
    (∀ n ∈ l.body, n ≠ l.header → P n → ∀ m, g.Adjacent m n → P m) →
    ∀ n ∈ l.body, n ≠ l.header → P n
  sorted : l.body.Pairwise (· < ·)

section
variable (hg : g.Closed) (he : entry < g.nodeCount)

include hg he in
theorem mem_backEdges : (n, h) ∈ backEdges g (.of g entry) ↔
    g.Adjacent n h ∧ g.Reaches entry n ∧ g.Dominates entry h n := by
  rw [backEdges, List.mem_flatMap]
  constructor
  · rintro ⟨k, -, hk⟩
    obtain ⟨h', hh, heq⟩ := List.mem_map.mp hk
    obtain ⟨hs, hd⟩ := List.mem_filter.mp hh
    cases heq
    exact ⟨Digraph.mem_successors.mp hs, (DominatorTree.dominates_of hg he).mp hd⟩
  · rintro ⟨hadj, hd⟩
    refine ⟨n, List.mem_range.mpr (hg.lt hadj).1, List.mem_map.mpr ⟨h, ?_, rfl⟩⟩
    exact List.mem_filter.mpr
      ⟨Digraph.mem_successors.mpr hadj, (DominatorTree.dominates_of hg he).mpr hd⟩

include hg in
/-- The search for a body goes backwards from the latches and stops at the header. -/
theorem explored_bodyOf {latches : List Nat} (hh : h < g.nodeCount)
    (hlt : ∀ n ∈ latches, n < g.nodeCount) : ∃ t f,
    Search.Explored g.predecessors latches ⟨[h], []⟩ t f ∧
      ∀ n, n ∈ bodyOf g h latches ↔ n ∈ f ∨ n = h := by
  have hs : ∀ m ∈ [h], m < g.nodeCount := fun m hm => List.mem_singleton.mp hm ▸ hh
  obtain ⟨f, hf⟩ := Search.explored_foldl hg.predecessors_lt latches ⟨[h], []⟩ hlt
    (List.nodup_singleton h) hs
  refine ⟨_, f, hf, fun n => ?_⟩
  have hseen := hf.mem_seen (m := n)
  rw [List.mem_singleton] at hseen
  rw [bodyOf, List.mem_filter, List.mem_range, List.contains_iff_mem, hseen]
  exact and_iff_right_of_imp fun hn => hf.lt hg.predecessors_lt hlt hs n (hseen.mpr hn)

include hg in
/-- The body of a loop, given some of the latches. -/
theorem isLoop_bodyOf {latches : List Nat} (hr : g.Reaches entry h) (hh : h < g.nodeCount)
    (hl : ∀ n, n ∈ latches ↔ g.Adjacent n h ∧ g.Reaches entry n ∧ g.Dominates entry h n) :
    IsLoop g entry ⟨h, latches, bodyOf g h latches⟩ := by
  obtain ⟨t, f, hf, hmem⟩ := explored_bodyOf hg hh fun n hn => (hg.lt ((hl n).mp hn).1).1
  have hlatch : ∀ n ∈ latches, n ∈ bodyOf g h latches := fun n hn =>
    (hmem n).mpr ((hf.mem_seen.mp (hf.found n hn)).imp_right List.mem_singleton.mp)
  have hpred : ∀ n ∈ bodyOf g h latches, n ≠ h → ∀ m, g.Adjacent m n → m ∈ bodyOf g h latches := by
    intro n hn hne m hmn
    have hn := ((hmem n).mp hn).resolve_right hne
    have := hf.mem_seen.mp (hf.closed n hn m (Digraph.mem_predecessors.mpr hmn))
    exact (hmem m).mpr (this.imp_right List.mem_singleton.mp)
  -- the search never crosses the header, which stands in the list of nodes seen
  have hleast : ∀ P : Nat → Prop, (∀ n ∈ latches, n ≠ h → P n) →
      (∀ n ∈ bodyOf g h latches, n ≠ h → P n → ∀ m, g.Adjacent m n → P m) →
      ∀ n ∈ bodyOf g h latches, n ≠ h → P n := by
    intro P hroots hstep n hn hne
    have hn := ((hmem n).mp hn).resolve_right hne
    refine (hf.least (fun n => n ∈ bodyOf g h latches ∧ n ≠ h ∧ P n) ?_ ?_ n hn).2.2
    · intro r hr hrh
      have hrh : r ≠ h := fun h => hrh (List.mem_singleton.mpr h)
      exact ⟨hlatch r hr, hrh, hroots r hr hrh⟩
    · rintro m ⟨hm, hmh, hP⟩ k hk hkh
      have hk := Digraph.mem_predecessors.mp hk
      exact ⟨hpred m hm hmh k hk, fun h => hkh (List.mem_singleton.mpr h), hstep m hm hmh hP k hk⟩
  refine ⟨hr, (hmem h).mpr (.inr rfl), ?_, ?_, hpred, ?_, (List.pairwise_lt_range).filter _⟩
  · exact fun n hadj hn hd => hlatch n ((hl n).mpr ⟨hadj, hn, hd⟩)
  · intro n hn
    by_cases hne : n = h
    · exact hne ▸ .refl
    · refine hleast (g.Dominates entry h) (fun r hr _ => ((hl r).mp hr).2.2) ?_ n hn hne
      exact fun m _ hm hP k hk => hP.pred hm.symm hk
  · exact fun P hroots => hleast P fun r hr _ => hroots r (hlatch r hr) ((hl r).mp hr).1

omit hg he in
theorem body_eq (hl : l ∈ detect g (.of g entry)) : l.body = bodyOf g l.header l.latches := by
  obtain ⟨h, -, rfl⟩ := List.mem_map.mp hl
  rfl

include hg he

/-- The latches of a loop are the sources of the back edges to its header. -/
theorem mem_latches (hl : l ∈ detect g (.of g entry)) : n ∈ l.latches ↔
    g.Adjacent n l.header ∧ g.Reaches entry n ∧ g.Dominates entry l.header n := by
  obtain ⟨h, -, rfl⟩ := List.mem_map.mp hl
  rw [← mem_backEdges hg he, List.mem_map]
  constructor
  · rintro ⟨⟨n, h'⟩, hmem, rfl⟩
    obtain ⟨hback, heq⟩ := List.mem_filter.mp hmem
    cases beq_iff_eq.mp heq
    exact hback
  · exact fun hmem => ⟨(n, _), List.mem_filter.mpr ⟨hmem, beq_iff_eq.mpr rfl⟩, rfl⟩

/-- Every back edge leads to the header of a loop. -/
theorem exists_detect (hadj : g.Adjacent n h) (hr : g.Reaches entry n)
    (hd : g.Dominates entry h n) : ∃ l ∈ detect g (.of g entry), l.header = h := by
  refine ⟨_, List.mem_map.mpr ⟨h, List.mem_filter.mpr ⟨?_, ?_⟩, rfl⟩, rfl⟩
  · exact List.mem_range.mpr (hg.lt hadj).2
  · exact List.any_eq_true.mpr ⟨(n, h), (mem_backEdges hg he).mpr ⟨hadj, hr, hd⟩, by simp⟩

/-- Some back edge leads to the header of every loop. -/
theorem exists_latch (hl : l ∈ detect g (.of g entry)) :
    ∃ n, g.Adjacent n l.header ∧ g.Reaches entry n ∧ g.Dominates entry l.header n := by
  obtain ⟨h, hh, rfl⟩ := List.mem_map.mp hl
  obtain ⟨⟨n, h'⟩, hback, hn⟩ := List.any_eq_true.mp (List.mem_filter.mp hh).2
  cases beq_iff_eq.mp hn
  exact ⟨n, (mem_backEdges hg he).mp hback⟩

theorem isLoop_detect (hl : l ∈ detect g (.of g entry)) : IsLoop g entry l := by
  obtain ⟨n, hadj, hr, hd⟩ := exists_latch hg he hl
  have L := isLoop_bodyOf hg (hd.reaches hr) (hg.lt hadj).2 fun n => mem_latches hg he hl
  rwa [← body_eq hl] at L

omit hg he in
theorem detect_sorted : (detect g (.of g entry)).Pairwise (·.header < ·.header) :=
  List.pairwise_map.mpr ((List.pairwise_lt_range).filter _)

end

/-- The loop `l` lies strictly inside the loop `l'`. -/
structure Within (g : Digraph α β) (entry : Nat) (l l' : NaturalLoop) : Prop where
  subset : ∀ n ∈ l.body, n ∈ l'.body
  header_notMem : l'.header ∉ l.body
  dominates : g.Dominates entry l'.header l.header

namespace Within

theorem size_lt (L : IsLoop g entry l) (L' : IsLoop g entry l') (h : Within g entry l l') :
    l.size < l'.size := by
  have hd : (l'.header :: l.body).Nodup :=
    List.nodup_cons.mpr ⟨h.header_notMem, L.sorted.imp Nat.ne_of_lt⟩
  have hsub : (l'.header :: l.body).Subperm l'.body := hd.subperm fun n hn =>
    (List.mem_cons.mp hn).elim (fun heq => heq ▸ L'.header_mem) (h.subset n)
  have := hsub.length_le
  simp only [List.length_cons] at this
  exact this

end Within

namespace IsLoop

/-- A loop that shares a node with one whose header dominates its own lies inside it. -/
theorem within (L : IsLoop g entry l) (L' : IsLoop g entry l') (hb : g.Reaches entry b)
    (h : b ∈ l.body) (h' : b ∈ l'.body) (hd : g.Dominates entry l'.header l.header)
    (hne : l.header ≠ l'.header) : Within g entry l l' := by
  have hnot : l'.header ∉ l.body := fun hmem =>
    hne (Digraph.Dominates.antisymm L'.reachable (L.dominates _ hmem) hd)
  -- the walk from the inner header to the shared node stays in both loops
  have hheader : l.header ∈ l'.body := by
    obtain ⟨w, hw⟩ := hb
    obtain ⟨v, hv, -, hback⟩ := hw.since (L.dominates b h w hw)
    have hboth := hback (fun x => x ∈ l.body ∧ x ∈ l'.body) ⟨h, h'⟩ fun x y hy hyl hxy =>
      ⟨L.pred_mem y hy.1 hyl x hxy, L'.pred_mem y hy.2 (fun heq => hnot (heq ▸ hy.1)) x hxy⟩
    exact (hboth _ hv.mem_root).2
  refine ⟨fun n hn => ?_, hnot, hd⟩
  by_cases hnh : n = l.header
  · exact hnh ▸ hheader
  · refine L.least (· ∈ l'.body) (fun m _ hm => L'.pred_mem _ hheader hne m hm) ?_ n hn hnh
    exact fun m hm _ hm' k hk => L'.pred_mem m hm' (fun heq => hnot (heq ▸ hm)) k hk

theorem nested (hg : g.Closed) (he : entry < g.nodeCount) (L : IsLoop g entry l)
    (L' : IsLoop g entry l') (hb : g.Reaches entry b) (h : b ∈ l.body) (h' : b ∈ l'.body) :
    l.header = l'.header ∨ Within g entry l l' ∨ Within g entry l' l := by
  by_cases hne : l.header = l'.header
  · exact .inl hne
  · refine .inr ?_
    rcases DominatorTree.dominates_total hg he hb (L.dominates b h) (L'.dominates b h') with hd | hd
    · exact .inr (L'.within L hb h' h hd (Ne.symm hne))
    · exact .inl (L.within L' hb h h' hd hne)

end IsLoop

end MissBound.NaturalLoop
