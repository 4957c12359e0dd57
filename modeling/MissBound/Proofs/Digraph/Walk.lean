import MissBound.Digraph.DepthFirst

/-!
Walks in a graph. They say what the searches and the dominator tree compute: a node is reachable if
some walk leads to it, and dominated by the nodes that lie on all of these walks.
-/

namespace MissBound.Digraph

variable {α β : Type} {g : Digraph α β} {root k m n : Nat} {v w : List Nat}

/-- Some edge leads from `m` to `n`. -/
def Adjacent (g : Digraph α β) (m n : Nat) : Prop :=
  ∃ e ∈ g.edges, e.source = m ∧ e.target = n

/-- Every edge joins two nodes of the graph. -/
def Closed (g : Digraph α β) : Prop :=
  ∀ e ∈ g.edges, e.source < g.nodeCount ∧ e.target < g.nodeCount

instance : Decidable g.Closed :=
  inferInstanceAs (Decidable (∀ e ∈ g.edges, e.source < g.nodeCount ∧ e.target < g.nodeCount))

/-- A walk from `root` to a node, as the nodes that it meets, the latest first. -/
inductive Walk (g : Digraph α β) (root : Nat) : Nat → List Nat → Prop
  | start : Walk g root root [root]
  | step {m n : Nat} {w : List Nat} : Walk g root m w → g.Adjacent m n → Walk g root n (n :: w)

def Reaches (g : Digraph α β) (root n : Nat) : Prop := ∃ w, g.Walk root n w

/-- Every walk from `root` to `n` meets `m`. -/
def Dominates (g : Digraph α β) (root m n : Nat) : Prop := ∀ w, g.Walk root n w → m ∈ w

theorem mem_successors : n ∈ g.successors m ↔ g.Adjacent m n := by
  simp only [successors, Adjacent, List.mem_map, List.mem_filter, beq_iff_eq]
  constructor
  · rintro ⟨e, ⟨he, hs⟩, ht⟩
    exact ⟨e, he, hs, ht⟩
  · rintro ⟨e, he, hs, ht⟩
    exact ⟨e, ⟨he, hs⟩, ht⟩

theorem mem_predecessors : m ∈ g.predecessors n ↔ g.Adjacent m n := by
  simp only [predecessors, Adjacent, List.mem_map, List.mem_filter, beq_iff_eq]
  constructor
  · rintro ⟨e, ⟨he, ht⟩, hs⟩
    exact ⟨e, he, hs, ht⟩
  · rintro ⟨e, he, hs, ht⟩
    exact ⟨e, ⟨he, ht⟩, hs⟩

theorem Closed.lt (hg : g.Closed) (h : g.Adjacent m n) : m < g.nodeCount ∧ n < g.nodeCount := by
  obtain ⟨e, he, rfl, rfl⟩ := h
  exact hg e he

namespace Walk

theorem mem_target (h : g.Walk root n w) : n ∈ w := by
  cases h <;> exact List.mem_cons_self

theorem mem_root (h : g.Walk root n w) : root ∈ w := by
  induction h with
  | start => exact List.mem_cons_self
  | step _ _ ih => exact List.mem_cons_of_mem _ ih

/-- The part of a walk up to a node that it meets. -/
theorem upto (h : g.Walk root n w) (hk : k ∈ w) : ∃ u v, w = u ++ v ∧ g.Walk root k v := by
  induction h with
  | start =>
    cases List.mem_singleton.mp hk
    exact ⟨[], _, rfl, .start⟩
  | @step m n w h hmn ih =>
    rcases List.mem_cons.mp hk with rfl | hk
    · exact ⟨[], _, rfl, .step h hmn⟩
    · obtain ⟨u, v, rfl, hv⟩ := ih hk
      exact ⟨n :: u, v, rfl, hv⟩

/-- The part of a walk from the last time on that it meets `k`. -/
theorem since (h : g.Walk root n w) (hk : k ∈ w) :
    ∃ v, g.Walk k n v ∧ (∀ x ∈ v, x ∈ w) ∧
      ∀ P : Nat → Prop, P n → (∀ x y, P y → y ≠ k → g.Adjacent x y → P x) → ∀ x ∈ v, P x := by
  induction h with
  | start =>
    cases List.mem_singleton.mp hk
    refine ⟨_, .start, fun _ hx => hx, fun P hP _ x hx => ?_⟩
    cases List.mem_singleton.mp hx
    exact hP
  | @step m n w h hmn ih =>
    by_cases hkn : k = n
    · subst hkn
      refine ⟨[k], .start, fun x hx => ?_, fun P hP _ x hx => ?_⟩
      · exact List.mem_cons.mpr (.inl (List.mem_singleton.mp hx))
      · cases List.mem_singleton.mp hx
        exact hP
    · obtain ⟨v, hv, hsub, hback⟩ := ih ((List.mem_cons.mp hk).resolve_left hkn)
      refine ⟨n :: v, .step hv hmn, fun x hx => ?_, fun P hP hstep x hx => ?_⟩
      · exact List.mem_cons.mpr ((List.mem_cons.mp hx).imp_right (hsub x))
      · rcases List.mem_cons.mp hx with rfl | hx
        · exact hP
        · exact hback P (hstep _ _ hP (Ne.symm hkn) hmn) hstep x hx

end Walk

namespace Reaches

theorem refl : g.Reaches root root := ⟨_, .start⟩

theorem step (h : g.Reaches root m) (hmn : g.Adjacent m n) : g.Reaches root n := by
  obtain ⟨w, hw⟩ := h
  exact ⟨_, hw.step hmn⟩

end Reaches

namespace Dominates

theorem refl : g.Dominates root n n := fun _ h => h.mem_target

theorem reaches (h : g.Dominates root m n) (hn : g.Reaches root n) : g.Reaches root m := by
  obtain ⟨w, hw⟩ := hn
  obtain ⟨-, v, -, hv⟩ := hw.upto (h w hw)
  exact ⟨v, hv⟩

/-- A strict dominator of a node dominates every node before it. -/
theorem pred (h : g.Dominates root k n) (hkn : k ≠ n) (hmn : g.Adjacent m n) :
    g.Dominates root k m := by
  intro w hw
  exact (List.mem_cons.mp (h _ (hw.step hmn))).resolve_left hkn

theorem antisymm (hr : g.Reaches root n) (h₁ : g.Dominates root m n)
    (h₂ : g.Dominates root n m) : m = n := by
  -- a shortest walk to `n` would have to pass both nodes first
  suffices H : ∀ w : List Nat, ∀ x y, g.Dominates root x y → g.Dominates root y x →
      g.Walk root y w → x = y by
    obtain ⟨w, hw⟩ := hr
    exact H w m n h₁ h₂ hw
  intro w
  induction h : w.length using Nat.strongRecOn generalizing w with
  | _ l ih =>
    intro x y hxy hyx hw
    by_cases hne : x = y
    · exact hne
    · obtain ⟨u, v, rfl, hv⟩ := hw.upto (hxy w hw)
      have hu : u ≠ [] := by
        rintro rfl
        have h₁ := hw; have h₂ := hv
        cases h₁ <;> cases h₂ <;> exact hne rfl
      have hlen : v.length < l := by
        have := List.length_pos_iff.mpr hu
        simp only [List.length_append] at h
        omega
      exact (ih _ hlen v rfl y x hyx hxy hv).symm

end Dominates

end MissBound.Digraph
