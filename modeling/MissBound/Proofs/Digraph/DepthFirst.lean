import MissBound.Proofs.Digraph.Recursion
import MissBound.Proofs.Digraph.Walk

/-!
What a depth-first search finds, whatever it starts from: everything that the roots lead to through
unseen nodes, each node once, and each before the nodes that were met from it. An edge leads to a
node that is finished before its source, unless it closes a cycle. The reverse post-order of a graph
is the case without seen nodes.
-/

namespace MissBound

namespace Search

/-- Exploring `roots` along `next` turns `s` into `t`, finishing the nodes of `f`. -/
structure Explored (next : Nat → List Nat) (roots : List Nat) (s t : Search) (f : List Nat) :
    Prop where
  seen : t.seen.Perm (f ++ s.seen)
  finished : t.finished = f ++ s.finished
  fresh : s.seen.Nodup → (f ++ s.seen).Nodup
  found : ∀ r ∈ roots, r ∈ t.seen
  closed : ∀ m ∈ f, ∀ k ∈ next m, k ∈ t.seen
  /-- Nothing is finished but what the roots lead to through unseen nodes. -/
  least : ∀ P : Nat → Prop, (∀ r ∈ roots, r ∉ s.seen → P r) →
    (∀ m, P m → ∀ k ∈ next m, k ∉ s.seen → P k) → ∀ m ∈ f, P m
  /-- A node that is no root was met from one that is finished later. -/
  parent : ∀ m ∈ f, m ∈ roots ∨ ∃ p, [p, m].Sublist f ∧ m ∈ next p
  /-- A neighbour that is finished later than its source leads back to it. -/
  back : ∀ m ∈ f, ∀ k ∈ next m, k ∈ s.seen ∨ [m, k].Sublist f ∨
    Relation.ReflTransGen (fun m k => k ∈ next m) k m

namespace Explored

variable {next : Nat → List Nat} {roots roots' : List Nat} {s t u : Search} {f f' : List Nat}
  {n : Nat}

theorem mem_seen (h : Explored next roots s t f) {m : Nat} : m ∈ t.seen ↔ m ∈ f ∨ m ∈ s.seen := by
  rw [h.seen.mem_iff, List.mem_append]

theorem nodup (h : Explored next roots s t f) (hs : s.seen.Nodup) : t.seen.Nodup :=
  h.seen.nodup_iff.mpr (h.fresh hs)

theorem length_seen (h : Explored next roots s t f) : t.seen.length = f.length + s.seen.length := by
  rw [h.seen.length_eq, List.length_append]

theorem of_seen (h : ∀ r ∈ roots, r ∈ s.seen) : Explored next roots s s [] where
  seen := .refl _
  finished := rfl
  fresh hs := hs
  found := h
  closed _ hm := by cases hm
  least _ _ _ _ hm := by cases hm
  parent _ hm := by cases hm
  back _ hm := by cases hm

theorem append (h : Explored next roots s t f) (h' : Explored next roots' t u f') :
    Explored next (roots ++ roots') s u (f' ++ f) where
  seen := by
    rw [List.append_assoc]
    exact h'.seen.trans (h.seen.append_left f')
  finished := by rw [h'.finished, h.finished, List.append_assoc]
  fresh hs := by
    rw [List.append_assoc]
    exact (h.seen.append_left f').nodup_iff.mp (h'.fresh (h.nodup hs))
  found r hr := by
    rcases List.mem_append.mp hr with hr | hr
    · exact h'.mem_seen.mpr (.inr (h.found r hr))
    · exact h'.found r hr
  closed m hm k hk := by
    rcases List.mem_append.mp hm with hm | hm
    · exact h'.closed m hm k hk
    · exact h'.mem_seen.mpr (.inr (h.closed m hm k hk))
  least P hroots hstep m hm := by
    have hsub : ∀ k, k ∉ t.seen → k ∉ s.seen := fun k hk hs => hk (h.mem_seen.mpr (.inr hs))
    rcases List.mem_append.mp hm with hm | hm
    · exact h'.least P (fun r hr hn => hroots r (List.mem_append_right _ hr) (hsub r hn))
        (fun m hm k hk hn => hstep m hm k hk (hsub k hn)) m hm
    · exact h.least P (fun r hr hn => hroots r (List.mem_append_left _ hr) hn) hstep m hm
  parent m hm := by
    rcases List.mem_append.mp hm with hm | hm
    · rcases h'.parent m hm with hr | ⟨p, hp, hpm⟩
      · exact .inl (List.mem_append_right _ hr)
      · exact .inr ⟨p, hp.trans (List.sublist_append_left _ _), hpm⟩
    · rcases h.parent m hm with hr | ⟨p, hp, hpm⟩
      · exact .inl (List.mem_append_left _ hr)
      · exact .inr ⟨p, hp.trans (List.sublist_append_right _ _), hpm⟩
  back m hm k hk := by
    rcases List.mem_append.mp hm with hm | hm
    · rcases h'.back m hm k hk with hseen | hsub | hcycle
      · rcases h.mem_seen.mp hseen with hf | hseen
        · have hpair : [m, k].Sublist (f' ++ f) :=
            (List.singleton_sublist.mpr hm).append (List.singleton_sublist.mpr hf)
          exact .inr (.inl hpair)
        · exact .inl hseen
      · exact .inr (.inl (hsub.trans (List.sublist_append_left _ _)))
      · exact .inr (.inr hcycle)
    · rcases h.back m hm k hk with hseen | hsub | hcycle
      · exact .inl hseen
      · exact .inr (.inl (hsub.trans (List.sublist_append_right _ _)))
      · exact .inr (.inr hcycle)

/-- An unseen node is marked, then its neighbours are explored, then it is finished. -/
theorem node (hn : n ∉ s.seen)
    (h : Explored next (next n) { s with seen := n :: s.seen } t f) :
    Explored next [n] s { t with finished := n :: t.finished } (n :: f) where
  seen := h.seen.trans List.perm_middle
  finished := by simp [h.finished]
  fresh hs := List.perm_middle.nodup_iff.mp (h.fresh (List.nodup_cons.mpr ⟨hn, hs⟩))
  found r hr := by
    cases List.mem_singleton.mp hr
    exact h.mem_seen.mpr (.inr List.mem_cons_self)
  closed m hm k hk := by
    rcases List.mem_cons.mp hm with rfl | hm
    · exact h.found k hk
    · exact h.closed m hm k hk
  least P hroots hstep m hm := by
    have hPn : P n := hroots n (List.mem_singleton_self n) hn
    rcases List.mem_cons.mp hm with rfl | hm
    · exact hPn
    · exact h.least P
        (fun r hr hs => hstep n hPn r hr fun hr' => hs (List.mem_cons_of_mem _ hr'))
        (fun m hm k hk hs => hstep m hm k hk fun hk' => hs (List.mem_cons_of_mem _ hk')) m hm
  parent m hm := by
    rcases List.mem_cons.mp hm with rfl | hm
    · exact .inl (List.mem_singleton_self m)
    · rcases h.parent m hm with hr | ⟨p, hp, hpm⟩
      · exact .inr ⟨n, (List.singleton_sublist.mpr hm).cons_cons n, hr⟩
      · exact .inr ⟨p, hp.cons n, hpm⟩
  back m hm k hk := by
    -- all that is finished inside was met from the node itself
    have hinner : ∀ m ∈ f, Relation.ReflTransGen (fun m k => k ∈ next m) n m :=
      h.least _ (fun r hr _ => .single hr) fun m hm r hr _ => hm.tail hr
    rcases List.mem_cons.mp hm with rfl | hmf
    · rcases h.mem_seen.mp (h.found k hk) with hf | hseen
      · exact .inr (.inl ((List.singleton_sublist.mpr hf).cons_cons m))
      · rcases List.mem_cons.mp hseen with rfl | hseen
        · exact .inr (.inr .refl)
        · exact .inl hseen
    · rcases h.back m hmf k hk with hseen | hsub | hcycle
      · rcases List.mem_cons.mp hseen with rfl | hseen
        · exact .inr (.inr (hinner m hmf))
        · exact .inl hseen
      · exact .inr (.inl (hsub.cons n))
      · exact .inr (.inr hcycle)

end Explored

theorem DepthFirst.explored {next : Nat → List Nat} {roots : List Nat} {s t : Search}
    (h : DepthFirst next roots s t) : ∃ f, Explored next roots s t f := by
  induction h with
  | nil => exact ⟨[], .of_seen (List.forall_mem_nil _)⟩
  | @skip n roots s t hn _ ih =>
    obtain ⟨f, hf⟩ := ih
    have hself : Explored next [n] s s [] := .of_seen fun r hr => List.mem_singleton.mp hr ▸ hn
    exact ⟨_, hself.append hf⟩
  | visit hn _ _ ihinner ih =>
    obtain ⟨f, hf⟩ := ihinner
    obtain ⟨f', hf'⟩ := ih
    exact ⟨_, (Explored.node hn hf).append hf'⟩

section
variable {next : Nat → List Nat} {nodes : Nat}
  (hnext : ∀ m < nodes, ∀ k ∈ next m, k < nodes)

theorem length_le_of_lt {seen : List Nat} (hd : seen.Nodup) (hlt : ∀ m ∈ seen, m < nodes) :
    seen.length ≤ nodes := by
  have hsub : seen.Subperm (List.range nodes) :=
    hd.subperm fun m hm => List.mem_range.mpr (hlt m hm)
  simpa using hsub.length_le

/-- Once as many nodes are seen as there are, every node is seen. -/
theorem mem_of_length_le {seen : List Nat} {n : Nat} (hn : n < nodes) (hd : seen.Nodup)
    (hlt : ∀ m ∈ seen, m < nodes) (hlen : nodes ≤ seen.length) : n ∈ seen := by
  have hsub : seen.Subperm (List.range nodes) :=
    hd.subperm fun m hm => List.mem_range.mpr (hlt m hm)
  have hperm := hsub.perm_of_length_le (by simpa using hlen)
  exact hperm.mem_iff.mpr (List.mem_range.mpr hn)

theorem Explored.lt {roots : List Nat} {s t : Search} {f : List Nat}
    (hnext : ∀ m < nodes, ∀ k ∈ next m, k < nodes) (h : Explored next roots s t f)
    (hroots : ∀ r ∈ roots, r < nodes) (hs : ∀ m ∈ s.seen, m < nodes) : ∀ m ∈ t.seen, m < nodes := by
  intro m hm
  rcases h.mem_seen.mp hm with hm | hm
  · exact h.least (· < nodes) (fun r hr _ => hroots r hr) (fun m hm k hk _ => hnext m hm k hk) m hm
  · exact hs m hm

include hnext in
/-- A search whose depth makes up for the nodes not yet seen is never cut off. -/
theorem depthFirst_explore (depth : Nat) : ∀ (n : Nat) (s : Search), n < nodes →
    s.seen.Nodup → (∀ m ∈ s.seen, m < nodes) → nodes ≤ depth + s.seen.length →
    DepthFirst next [n] s (explore next depth n s) := by
  induction depth with
  | zero =>
    intro n s hn hd hlt hlen
    exact .skip (mem_of_length_le hn hd hlt (by omega)) .nil
  | succ depth ih =>
    intro n s hn hd hlt hlen
    by_cases hseen : n ∈ s.seen
    · simp only [explore, hseen, if_true]
      exact .skip hseen .nil
    · have hfold : ∀ (cs : List Nat) (s : Search), (∀ c ∈ cs, c < nodes) → s.seen.Nodup →
          (∀ m ∈ s.seen, m < nodes) → nodes ≤ depth + s.seen.length →
          DepthFirst next cs s (cs.foldl (fun s m => explore next depth m s) s) := by
        intro cs
        induction cs with
        | nil => exact fun s _ _ _ _ => .nil
        | cons c cs ihcs =>
          intro s hcs hd hlt hlen
          have hc := hcs c List.mem_cons_self
          have h := ih c s hc hd hlt hlen
          obtain ⟨f, hf⟩ := h.explored
          refine h.append (ihcs _ (fun c hc => hcs c (List.mem_cons_of_mem _ hc)) (hf.nodup hd)
            (hf.lt hnext (fun r hr => by cases List.mem_singleton.mp hr; exact hc) hlt) ?_)
          rw [hf.length_seen]
          omega
      simp only [explore, hseen, if_false]
      refine .visit hseen (hfold (next n) _ (hnext n hn) (List.nodup_cons.mpr ⟨hseen, hd⟩) ?_ ?_)
        .nil
      · exact fun m hm => (List.mem_cons.mp hm).elim (fun h => h ▸ hn) (hlt m)
      · simp only [List.length_cons]
        omega

include hnext in
/-- Exploring several roots one after the other. -/
theorem explored_foldl (roots : List Nat) : ∀ s : Search, (∀ r ∈ roots, r < nodes) →
    s.seen.Nodup → (∀ m ∈ s.seen, m < nodes) →
    ∃ f, Explored next roots s (roots.foldl (fun s n => explore next nodes n s) s) f := by
  induction roots with
  | nil => exact fun s _ _ _ => ⟨[], .of_seen fun r hr => by cases hr⟩
  | cons r roots ih =>
    intro s hroots hd hlt
    have hr := hroots r List.mem_cons_self
    obtain ⟨f, hf⟩ := (depthFirst_explore hnext nodes r s hr hd hlt (by omega)).explored
    obtain ⟨f', hf'⟩ := ih _ (fun r hr => hroots r (List.mem_cons_of_mem _ hr)) (hf.nodup hd)
      (hf.lt hnext (fun x hx => by cases List.mem_singleton.mp hx; exact hr) hlt)
    exact ⟨_, hf.append hf'⟩

end

end Search

namespace Digraph

variable {α β : Type} {g : Digraph α β} {root m n : Nat}

theorem Closed.successors_lt (hg : g.Closed) :
    ∀ m < g.nodeCount, ∀ k ∈ g.successors m, k < g.nodeCount :=
  fun _ _ _ hk => (hg.lt (mem_successors.mp hk)).2

theorem Closed.predecessors_lt (hg : g.Closed) :
    ∀ m < g.nodeCount, ∀ k ∈ g.predecessors m, k < g.nodeCount :=
  fun _ _ _ hk => (hg.lt (mem_predecessors.mp hk)).1

/-- Nodes named once each have no more outgoing edges than the graph has edges. -/
theorem load_successors_le {nodes : List Nat} (hd : nodes.Nodup) :
    Search.load g.successors nodes ≤ nodes.length + g.edgeCount := by
  let sources : Multiset Nat := g.edges.map (·.source)
  have hcount : ∀ n, (g.successors n).length = sources.count n := by
    intro n
    simp only [sources, successors, Multiset.coe_count, List.count, List.countP_eq_length_filter,
      List.filter_map, List.length_map]
    rfl
  have hedges : (nodes.map fun n => (g.successors n).length).sum ≤ g.edgeCount :=
    calc (nodes.map fun n => (g.successors n).length).sum
      _ = ∑ n ∈ nodes.toFinset, sources.count n := by
        rw [List.sum_toFinset _ hd]
        simp only [hcount]
      _ ≤ ∑ n ∈ nodes.toFinset ∪ sources.toFinset, sources.count n :=
        Finset.sum_le_sum_of_subset Finset.subset_union_left
      _ = sources.card := Multiset.sum_count_eq_card fun n hn =>
        Finset.mem_union_right _ (Multiset.mem_toFinset.mpr hn)
      _ = g.edgeCount := by simp [sources, edgeCount]
  have hload : Search.load g.successors nodes =
      nodes.length + (nodes.map fun n => (g.successors n).length).sum := by
    simp [Search.load, List.sum_map_add]
  rw [hload]
  exact Nat.add_le_add_left hedges _

section
variable (hg : g.Closed) (hroot : root < g.nodeCount)
include hg hroot

/-- The stack is drained before its steps run out, so the order is that of the recursion. -/
theorem exists_depthFirst : ∃ t, Search.DepthFirst g.successors [root] .start t ∧
    g.postorder root = t.finished.reverse := by
  have h := Search.depthFirst_explore hg.successors_lt g.nodeCount root .start hroot
    List.nodup_nil (List.forall_mem_nil _) (Nat.le_add_right ..)
  refine ⟨_, h, ?_⟩
  obtain ⟨f, hf⟩ := h.explored
  have hfinished := hf.finished.trans (List.append_nil f)
  have hd : f.Nodup := (List.nodup_append.mp (hf.fresh List.nodup_nil)).1
  have hlt : ∀ m ∈ f, m < g.nodeCount := fun m hm =>
    hf.lt hg.successors_lt (fun r hr => List.mem_singleton.mp hr ▸ hroot) (List.forall_mem_nil _) m
      (hf.mem_seen.mpr (.inl hm))
  have hlen := Search.length_le_of_lt hd hlt
  rw [postorder, if_pos hroot, h.drain_eq]
  rw [hfinished]
  have := load_successors_le (g := g) hd
  omega

theorem explored_reversePostorder :
    ∃ t, Search.Explored g.successors [root] .start t (g.reversePostorder root) := by
  obtain ⟨t, ht, horder⟩ := exists_depthFirst hg hroot
  obtain ⟨f, hf⟩ := ht.explored
  refine ⟨t, ?_⟩
  rwa [reversePostorder, horder, List.reverse_reverse, hf.finished.trans (List.append_nil f)]

theorem nodup_reversePostorder : (g.reversePostorder root).Nodup := by
  obtain ⟨t, h⟩ := explored_reversePostorder hg hroot
  exact (List.nodup_append.mp (h.fresh List.nodup_nil)).1

theorem mem_reversePostorder : n ∈ g.reversePostorder root ↔ g.Reaches root n := by
  obtain ⟨t, h⟩ := explored_reversePostorder hg hroot
  have hseen : ∀ {m}, m ∈ g.reversePostorder root ↔ m ∈ t.seen := by
    intro m
    rw [h.mem_seen]
    simp [Search.start]
  constructor
  · refine h.least (g.Reaches root) (fun r hr _ => ?_) (fun m hm k hk _ => ?_) n
    · cases List.mem_singleton.mp hr
      exact .refl
    · exact hm.step (mem_successors.mp hk)
  · rintro ⟨w, hw⟩
    induction hw with
    | start => exact hseen.mpr (h.found root (List.mem_singleton_self root))
    | step _ hmn ih => exact hseen.mpr (h.closed _ ih _ (mem_successors.mpr hmn))

theorem reversePostorder_lt (h : n ∈ g.reversePostorder root) : n < g.nodeCount := by
  obtain ⟨w, hw⟩ := (mem_reversePostorder hg hroot).mp h
  cases hw with
  | start => exact hroot
  | step _ hmn => exact (hg.lt hmn).2

theorem reversePostorder_eq_cons : ∃ rest, g.reversePostorder root = root :: rest := by
  obtain ⟨t, ht, horder⟩ := exists_depthFirst hg hroot
  rw [reversePostorder, horder, List.reverse_reverse]
  cases ht with
  | skip hseen => cases hseen
  | visit _ _ hrest =>
    cases hrest
    exact ⟨_, rfl⟩

/-- Every node but the root has a predecessor that comes before it. -/
theorem exists_pred_before (h : n ∈ g.reversePostorder root) (hn : n ≠ root) :
    ∃ p, [p, n].Sublist (g.reversePostorder root) ∧ g.Adjacent p n := by
  obtain ⟨t, ht⟩ := explored_reversePostorder hg hroot
  rcases ht.parent n h with hr | ⟨p, hp, hpn⟩
  · exact absurd (List.mem_singleton.mp hr) hn
  · exact ⟨p, hp, mem_successors.mp hpn⟩

end

end Digraph

end MissBound
