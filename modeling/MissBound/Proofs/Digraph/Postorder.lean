import MissBound.Proofs.Digraph.Immediate

/-!
The post-order of a graph. It lists what can be reached, each node once, as the recursive search
leaves it; an edge leads to an earlier node, or its target leads back to its source.
-/

namespace MissBound.Digraph

variable {α β : Type} {g : Digraph α β} {root m n : Nat}

theorem reaches_of_reflTransGen (h : Relation.ReflTransGen (fun m k => k ∈ g.successors m) m n) :
    g.Reaches m n := by
  induction h with
  | refl => exact .refl
  | tail _ hstep ih => exact ih.step (mem_successors.mp hstep)

section
variable (hg : g.Closed) (hroot : root < g.nodeCount)
include hg hroot

theorem nodup_postorder : (g.postorder root).Nodup :=
  List.nodup_reverse.mp (nodup_reversePostorder hg hroot)

theorem mem_postorder : n ∈ g.postorder root ↔ g.Reaches root n := by
  rw [← mem_reversePostorder hg hroot, reversePostorder, List.mem_reverse]

/-- An edge leads to a node that is left earlier, unless it closes a cycle. -/
theorem before_or_reaches (hm : g.Reaches root m) (hmn : g.Adjacent m n) :
    (g.postorder root).idxOf n < (g.postorder root).idxOf m ∨ g.Reaches n m := by
  obtain ⟨t, ht⟩ := explored_reversePostorder hg hroot
  have hmem := (mem_reversePostorder hg hroot).mpr hm
  rcases ht.back m hmem n (mem_successors.mpr hmn) with hseen | hsub | hcycle
  · cases hseen
  · have hsub : [n, m].Sublist (g.postorder root) := by simpa [reversePostorder] using hsub.reverse
    exact .inl (idxOf_lt_of_sublist (nodup_postorder hg hroot) hsub)
  · exact .inr (reaches_of_reflTransGen hcycle)

/-- The recursive search has one result, and the post-order is the order in which it leaves the
nodes. -/
theorem postorder_exact :
    ((g.postorder root).Nodup ∧ ∀ n, n ∈ g.postorder root ↔ g.Reaches root n) ∧
    (∃ t, Search.DepthFirst g.successors [root] .start t ∧ g.postorder root = t.finished.reverse ∧
      ∀ u, Search.DepthFirst g.successors [root] .start u → u = t) ∧
    (∀ u v, g.Reaches root u → g.Reaches root v → g.Adjacent u v →
      (g.postorder root).idxOf v < (g.postorder root).idxOf u ∨ g.Reaches v u) ∧
    g.reversePostorder root = (g.postorder root).reverse ∧
    (g.reversePostorder root).head? = some root := by
  refine ⟨⟨nodup_postorder hg hroot, fun n => mem_postorder hg hroot⟩, ?_,
    fun u v hu _ huv => before_or_reaches hg hroot hu huv, rfl, ?_⟩
  · obtain ⟨t, ht, horder⟩ := exists_depthFirst hg hroot
    exact ⟨t, ht, horder, fun u hu => hu.unique ht⟩
  · obtain ⟨rest, hrest⟩ := reversePostorder_eq_cons hg hroot
    rw [hrest]
    rfl

end

/-- A cycle with two entries, an edge from a node to itself and two parallel edges. The node of the
cycle that is left first leads to the other one, which is left later and leads back to it. -/
theorem postorder_exact_two_entries :
    DominatorTree.twoEntries.postorder 0 = [3, 2, 1, 0] ∧
    (∃ t, Search.DepthFirst DominatorTree.twoEntries.successors [0] .start t ∧
      t.finished = [0, 1, 2, 3]) ∧
    DominatorTree.twoEntries.Adjacent 2 1 ∧ DominatorTree.twoEntries.Reaches 1 2 := by
  have horder : DominatorTree.twoEntries.postorder 0 = [3, 2, 1, 0] := by decide
  have hg : DominatorTree.twoEntries.Closed := by decide
  have hroot : 0 < DominatorTree.twoEntries.nodeCount := by decide
  obtain ⟨⟨-, hmem⟩, ⟨t, ht, hleft, -⟩, hback, -⟩ := postorder_exact hg hroot
  have hedge : DominatorTree.twoEntries.Adjacent 2 1 := mem_successors.mp (by decide)
  refine ⟨horder, ⟨t, ht, ?_⟩, hedge, ?_⟩
  · rw [← List.reverse_reverse t.finished, ← hleft, horder]
    rfl
  · exact (hback 2 1 ((hmem 2).mp (by decide)) ((hmem 1).mp (by decide)) hedge).resolve_left
      (by decide)

end MissBound.Digraph
