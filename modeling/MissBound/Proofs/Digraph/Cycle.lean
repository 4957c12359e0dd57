import Mathlib
import MissBound.Proofs.Digraph.Walk

/-!
Nodes that cut all cycles. A walk that avoids them cannot come back, so that the remaining nodes can
be ranked.
-/

namespace MissBound.Digraph

variable {α β : Type} {g : Digraph α β} {root m n k : Nat} {w : List Nat} {C : Nat → Prop}

/-- Every cycle that can be reached passes through a node in `C`. -/
def Cuts (g : Digraph α β) (root : Nat) (C : Nat → Prop) : Prop :=
  ∀ n w, g.Reaches root n → g.Walk n n w → 1 < w.length → ∃ k ∈ w, C k

theorem Walk.prepend (hmn : g.Adjacent m n) (h : g.Walk n k w) : g.Walk m k (w ++ [m]) := by
  induction h with
  | start => exact .step .start hmn
  | step _ hadj ih => exact ih.step hadj

/-- If edges lead upwards outside of `C`, no cycle avoids `C`. -/
theorem cuts_of_rank (rank : Nat → Nat)
    (h : ∀ e ∈ g.edges, C e.target ∨ rank e.source < rank e.target) : g.Cuts root C := by
  have hup : ∀ {m n w}, g.Walk m n w → (∀ k ∈ w, ¬C k) → rank m + w.length ≤ rank n + 1 := by
    intro m n w hw
    induction hw with
    | start => exact fun _ => Nat.le_refl _
    | @step k n w _ hadj ih =>
      intro havoid
      obtain ⟨e, he, rfl, rfl⟩ := hadj
      have hlt := (h e he).resolve_left (havoid _ List.mem_cons_self)
      have hle := ih fun k hk => havoid k (List.mem_cons_of_mem _ hk)
      rw [List.length_cons]
      omega
  intro n w _ hw hlen
  by_contra havoid
  have := hup hw fun k hk hC => havoid ⟨k, hk, hC⟩
  omega

open Classical in
/-- The nodes that walks from `n` meet without passing through `C`. -/
noncomputable def avoiding (g : Digraph α β) (C : Nat → Prop) (n : Nat) : Finset Nat :=
  (Finset.range g.nodeCount).filter fun k => ∃ w, g.Walk n k w ∧ ∀ x ∈ w, ¬C x

theorem mem_avoiding : k ∈ g.avoiding C n ↔
    k < g.nodeCount ∧ ∃ w, g.Walk n k w ∧ ∀ x ∈ w, ¬C x := by
  simp [avoiding]

/-- Along an edge outside of `C`, the source cannot be met any more. -/
theorem Cuts.avoiding_ssubset (h : g.Cuts root C) (hg : g.Closed) (hr : g.Reaches root m)
    (hmn : g.Adjacent m n) (hm : ¬C m) : g.avoiding C n ⊂ g.avoiding C m := by
  have havoid : ∀ w : List Nat, (∀ x ∈ w, ¬C x) → ∀ x ∈ w ++ [m], ¬C x := by
    intro w hw
    rw [List.forall_mem_append, List.forall_mem_singleton]
    exact ⟨hw, hm⟩
  have hsub : g.avoiding C n ⊆ g.avoiding C m := by
    intro k hk
    obtain ⟨hlt, w, hw, hC⟩ := mem_avoiding.mp hk
    exact mem_avoiding.mpr ⟨hlt, _, hw.prepend hmn, havoid w hC⟩
  apply (Finset.ssubset_iff_of_subset hsub).mpr
  refine ⟨m, mem_avoiding.mpr ⟨(hg.lt hmn).1, [m], .start, havoid [] (by simp)⟩, fun hmem => ?_⟩
  obtain ⟨-, w, hw, hC⟩ := mem_avoiding.mp hmem
  have hlen : 1 < (w ++ [m]).length := by
    rw [List.length_append]
    exact Nat.succ_lt_succ (List.length_pos_of_mem hw.mem_target)
  obtain ⟨x, hx, hcut⟩ := h m _ hr (hw.prepend hmn) hlen
  exact havoid w hC x hx hcut

end MissBound.Digraph
