import MissBound.Proofs.Lru.Nesting
import MissBound.Proofs.Lru.WellFormed

/-!
Levels from the outside to the inside. The level of an inner loop starts later than those around it
and sees no use that they do not see, so that a line is nowhere older than further outside. A line
that has been evicted in the run of a loop has therefore been evicted in the runs of all loops
around it, and the level that is closed where a loop is left tells nothing new.
-/

namespace MissBound

namespace Age.Levels

variable {as bs : List Nat} {ways used depth : Nat}

theorem pairwise_fresh : (fresh depth).Pairwise (· ≥ ·) :=
  List.pairwise_replicate.mpr (.inr (Nat.le_refl 0))

theorem pairwise_step (h : as.Pairwise (· ≥ ·)) : (step ways used as).Pairwise (· ≥ ·) :=
  h.map _ fun _ _ hle => step_le_step (Nat.le_refl used) hle

/-- A use of the line leaves the levels that it was evicted from, which are the outer ones. -/
theorem pairwise_touch (h : as.Pairwise (· ≥ ·)) : (touch ways as).Pairwise (· ≥ ·) := by
  refine h.map _ fun a b hle => ?_
  split <;> split <;> omega

/-- Levels of one side only lie inside those of both. -/
theorem pairwise_join (ha : as.Pairwise (· ≥ ·)) (hb : bs.Pairwise (· ≥ ·)) :
    (join as bs).Pairwise (· ≥ ·) := by
  fun_induction join as bs with
  | case1 a as b bs ih =>
    obtain ⟨ha, has⟩ := List.pairwise_cons.mp ha
    obtain ⟨hb, hbs⟩ := List.pairwise_cons.mp hb
    refine List.pairwise_cons.mpr ⟨fun n hn => ?_, ih has hbs⟩
    rcases mem_join hn with hn | hn
    · exact Nat.le_trans (ha n hn) (Nat.le_max_left a b)
    · exact Nat.le_trans (hb n hn) (Nat.le_max_right a b)
  | case2 bs => exact hb
  | case3 as => exact ha

theorem pairwise_enter (h : as.Pairwise (· ≥ ·)) : (enter as).Pairwise (· ≥ ·) := by
  refine List.pairwise_append.mpr ⟨h, List.pairwise_singleton .., fun a _ b hb => ?_⟩
  exact List.mem_singleton.mp hb ▸ Nat.zero_le a

/-- The level that is closed leaves no trace in the one around it. -/
theorem leave_eq_dropLast (h : as.Pairwise (· ≥ ·)) (hlen : 2 ≤ as.length) :
    leave as = as.dropLast := by
  fun_induction leave as with
  | case1 => cases hlen
  | case2 a => exact absurd hlen (Nat.lt_irrefl 1)
  | case3 a b =>
    have hle := (List.pairwise_cons.mp h).1 b List.mem_cons_self
    exact congrArg (fun n => [n]) (Nat.max_eq_left hle)
  | case4 a b c rest ih =>
    exact congrArg (a :: ·) (ih (List.pairwise_cons.mp h).2 (Nat.le_add_left ..))

theorem pairwise_leave (h : as.Pairwise (· ≥ ·)) : (leave as).Pairwise (· ≥ ·) := by
  fun_induction leave as with
  | case1 => exact h
  | case2 a => exact h
  | case3 a b => exact List.pairwise_singleton ..
  | case4 a b c rest ih =>
    obtain ⟨ha, hrest⟩ := List.pairwise_cons.mp h
    exact List.pairwise_cons.mpr ⟨fun n hn => ha n (mem_leave hn), ih hrest⟩

end Age.Levels

/-- No line is older in the run of a loop than in those of the loops around it. -/
def SetState.Descends (s : SetState) : Prop := ∀ l ∈ s.lines, l.persistence.Pairwise (· ≥ ·)

namespace SetDomain

variable {D : SetDomain} {G : FlowGraph} {table : AccessTable} {s t : SetState} {l : Line}
  {a : DataUse} {visits header source : Nat}

theorem descends_update (hs : s.Descends) : (D.update s a).Descends := by
  rcases update_cases D a with ⟨-, heq⟩ | ⟨-, -, heq⟩ | ⟨-, -, -, heq⟩ <;> rw [heq]
  · exact hs
  · intro l hl
    obtain ⟨m, hm, rfl⟩ := List.mem_map.mp hl
    exact Age.Levels.pairwise_step (hs m hm)
  · intro l hl
    rcases mem_use hl with ⟨m, hm, -, rfl⟩ | ⟨m, hm, -, rfl⟩ | ⟨-, rfl⟩
    · exact Age.Levels.pairwise_touch (hs m hm)
    · exact Age.Levels.pairwise_step (hs m hm)
    · exact Age.Levels.pairwise_fresh

theorem descends_join (hs : s.Descends) (ht : t.Descends) : (D.join s t).Descends := by
  cases s with
  | bottom => exact ht
  | known xs =>
    cases t with
    | bottom => exact hs
    | known ys =>
      intro l hl
      rcases mem_joinLines hl with ⟨x, hx, y, hy, -, rfl⟩ | ⟨x, hx, -, rfl⟩ | ⟨y, hy, -, rfl⟩
      · exact Age.Levels.pairwise_join (hs x hx) (ht y hy)
      · exact hs x hx
      · exact ht y hy

theorem descends_enter (hs : s.Descends) : s.enter.Descends := by
  intro l hl
  obtain ⟨m, hm, rfl⟩ := List.mem_map.mp hl
  exact Age.Levels.pairwise_enter (hs m hm)

theorem descends_leave (hs : s.Descends) : (D.leave s header source).Descends := by
  cases s with
  | bottom => exact hs
  | known ls =>
    refine List.foldlRecOn (motive := fun acc => (SetState.known acc).Descends) _ _
      (fun _ => nofun) fun acc hacc x hx l hl => ?_
    obtain ⟨m, hm, hleave⟩ := List.mem_filterMap.mp hx
    have hx : x.persistence.Pairwise (· ≥ ·) := by
      rw [persistence_leaveLine? hleave]
      exact Age.Levels.pairwise_leave (hs m hm)
    rcases mem_insertJoining hl with rfl | hl | ⟨k, hk, -, rfl⟩
    · exact hx
    · exact hacc l hl
    · exact Age.Levels.pairwise_join (hacc k hk) hx

theorem descends_back (hs : s.Descends) : (D.back s).Descends := by
  cases s with
  | bottom => exact hs
  | known ls => exact fun l hl => hs l (List.mem_of_mem_filter hl)

theorem Reached.descends (h : D.Reached s) : s.Descends := by
  induction h with
  | bottom => exact fun _ => nofun
  | empty => exact fun _ => nofun
  | update a _ ih => exact descends_update ih
  | join _ _ ihs iht => exact descends_join ihs iht
  | enter _ ih => exact descends_enter ih
  | leave header source _ ih => exact descends_leave ih
  | back _ ih => exact descends_back ih

/-! The states of the analysis are made by these operations. -/

theorem Reached.foldl_accesses (h : D.Reached s) (accesses : List Access) :
    D.Reached (accesses.foldl (fun s a => D.update s a.toDataUse) s) :=
  List.foldlRecOn _ _ h fun _ h a _ => h.update a.toDataUse

theorem Reached.foldl_leave (h : D.Reached s) (headers : List Nat) :
    D.Reached (headers.foldl (fun s h => D.leave s h source) s) :=
  List.foldlRecOn _ _ h fun _ h header _ => h.leave header source

theorem Reached.joinAll {arrivals : List (Arrival SetState)}
    (h : ∀ a ∈ arrivals, D.Reached a.state) :
    D.Reached (Analysis.joinAll .bottom D.join arrivals) :=
  List.foldlRecOn _ _ .bottom fun _ hs a ha => hs.join (h a ha)

theorem Reached.transfer (h : D.Reached s) (b : Nat) : D.Reached (D.transfer table b s) := by
  cases s with
  | bottom => exact .bottom
  | known ls => exact h.foldl_accesses (table.block b)

theorem Reached.propagate (h : D.Reached s) (e : Edge Crossing) : D.Reached (D.propagate e s) := by
  have hleft : D.Reached (e.label.exited.foldl (fun s h => D.leave s h e.source) s) :=
    h.foldl_leave e.label.exited
  unfold SetDomain.propagate
  simp only
  split
  · exact hleft.back
  · split
    · exact hleft.enter
    · exact hleft

theorem reached_arrivals {onEdges : List SetState} {b : Nat} (h : ∀ (e : Edge Crossing) (i : Nat),
      G.graph.edges[i]? = some e → D.Reached (onEdges[i]?.getD .bottom)) :
    ∀ a ∈ Progress.arrivals (D.analysis table) G onEdges b, D.Reached a.state := by
  intro a ha
  rcases List.mem_append.mp ha with ha | ha
  · split at ha
    · cases List.mem_singleton.mp ha
      exact .empty
    · cases ha
  · obtain ⟨⟨e, i⟩, hmem, rfl⟩ := List.mem_map.mp ha
    exact h e i (Progress.mem_incoming.mp hmem).1

theorem keeps_reached : Progress.Keeps (D.analysis table) G (fun _ => D.Reached)
    fun _ => D.Reached where
  bottom_input _ := .bottom
  bottom_edge _ _ := .bottom
  input _ _ _ _ _ hedges := .joinAll (reached_arrivals hedges)
  edge e _ _ _ hs := (hs.transfer e.source).propagate e

/-- The states that the analysis of a set computes on its way, `visits` visits after its start. -/
inductive Computed (D : SetDomain) (table : AccessTable) (G : FlowGraph) (visits : Nat) :
    SetState → Prop
  /-- Some of the states that arrive at a block are joined. -/
  | joined {b : Nat} {earlier later : List (Arrival SetState)} :
    Progress.arrivals (D.analysis table) G ((D.analysis table).after G visits).onEdges b =
      earlier ++ later →
    Computed D table G visits (Analysis.joinAll .bottom D.join earlier)
  /-- Some of the accesses of a block are done. -/
  | used {b : Nat} {done rest : List Access} : table.block b = done ++ rest →
    Computed D table G visits (done.foldl (fun s a => D.update s a.toDataUse)
      (((D.analysis table).after G visits).inputAt (D.analysis table) b))
  /-- Some of the loops that an edge leaves are closed. -/
  | left {e : Edge Crossing} {done rest : List Nat} : e ∈ G.graph.edges →
    e.label.exited = done ++ rest →
    Computed D table G visits (done.foldl (fun s h => D.leave s h e.source)
      (D.transfer table e.source
        (((D.analysis table).after G visits).inputAt (D.analysis table) e.source)))
  /-- An edge is crossed. -/
  | crossed {e : Edge Crossing} : e ∈ G.graph.edges →
    Computed D table G visits (D.propagate e (D.transfer table e.source
      (((D.analysis table).after G visits).inputAt (D.analysis table) e.source)))

theorem Computed.reached (h : D.Computed table G visits s) (B : G.Built) : D.Reached s := by
  have K : Progress.Keeps (D.analysis table) G (fun _ => D.Reached) fun _ => D.Reached :=
    keeps_reached
  have C := Progress.consistent_after B K visits
  cases h with
  | joined heq =>
    exact .joinAll fun a ha => reached_arrivals C.edges a (heq ▸ List.mem_append_left _ ha)
  | used _ => exact (C.inputs _).foldl_accesses _
  | left _ _ => exact ((C.inputs _).transfer _).foldl_leave _
  | crossed _ => exact ((C.inputs _).transfer _).propagate _

/-- In every state that the analysis of a set computes, the levels of a line do not increase from
the outermost to the innermost. A line that is evicted at one level is evicted at all levels around
it, and closing the innermost level changes no other one. -/
theorem levels_descend {blocks : List Block} {edges : List (Nat × Nat)}
    {bounds : List (Nat × LoopBound)} {entry : Nat}
    (hG : FlowGraph.build blocks edges bounds entry = .ok G) (h : D.Computed table G visits s)
    (hl : l ∈ s.lines) :
    l.persistence.Pairwise (· ≥ ·) ∧
    (∀ (i j n : Nat), i ≤ j → l.persistence[j]? = some n → Age.isAlive D.ways n = false →
      ∃ m, l.persistence[i]? = some m ∧ Age.isAlive D.ways m = false) ∧
    (2 ≤ l.persistence.length → Age.Levels.leave l.persistence = l.persistence.dropLast) := by
  have hpair := (h.reached (FlowGraph.built_of_build hG)).descends l hl
  refine ⟨hpair, fun i j n hij hj hdead => ?_, Age.Levels.leave_eq_dropLast hpair⟩
  obtain ⟨hjlen, rfl⟩ := List.getElem?_eq_some_iff.mp hj
  have hilen : i < l.persistence.length := Nat.lt_of_le_of_lt hij hjlen
  refine ⟨l.persistence[i], List.getElem?_eq_getElem hilen, ?_⟩
  rcases Nat.eq_or_lt_of_le hij with rfl | hlt
  · exact hdead
  · have hle : l.persistence[j] ≤ l.persistence[i] :=
      List.pairwise_iff_getElem.mp hpair i j hilen hjlen hlt
    simp only [Age.isAlive, decide_eq_false_iff_not, Nat.not_lt] at hdead ⊢
    exact Nat.le_trans hdead hle

/-- Two loads before the loops and one in the outer loop. -/
def descentTable : AccessTable :=
  ⟨[[⟨⟨0, .const 0x2000, true⟩, 0, .load, .uint32, none⟩,
      ⟨⟨0, .const 0x3000, true⟩, 0, .load, .uint32, none⟩],
    [⟨⟨1, .const 0x4000, true⟩, 4, .load, .uint32, none⟩], [], [], []]⟩

/-- On the edge to the inner loop, the line loaded first has been evicted, but not since the outer
loop was entered. -/
theorem levels_descend_evicted :
    let s := siblingsDomain.propagate ⟨1, 2, ⟨false, [], true⟩⟩
      (siblingsDomain.transfer descentTable 1
        (((siblingsDomain.analysis descentTable).after siblingsGraph 2).inputAt
          (siblingsDomain.analysis descentTable) 1))
    let l : Line := ⟨.const 0x2000, 0, 2, 2, [2, 1, 0]⟩
    l ∈ s.lines ∧ l.persistence.Pairwise (· ≥ ·) ∧ Age.Levels.leave l.persistence = [2, 1] := by
  have hbuild : FlowGraph.build [⟨0, []⟩, ⟨4, []⟩, ⟨8, []⟩, ⟨12, []⟩, ⟨16, []⟩]
      [(0, 1), (1, 2), (2, 2), (2, 1), (1, 3), (3, 3), (3, 4)]
      [(1, ⟨some 3, some 3⟩), (2, ⟨some 2, some 2⟩), (3, ⟨some 4, some 4⟩)] 0 =
      .ok siblingsGraph := rfl
  intro s l
  have hs : siblingsDomain.Computed descentTable siblingsGraph 2 s := .crossed (by decide)
  have hl : l ∈ s.lines := by decide +kernel
  obtain ⟨hpair, -, hleave⟩ := levels_descend hbuild hs hl
  exact ⟨hl, hpair, hleave (by decide)⟩

end SetDomain

end MissBound
