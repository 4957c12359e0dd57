import MissBound.Proofs.Digraph.Dominator

/-!
What a dominator tree answers. The links of the tree lead to the closest strict dominators, so that
the depth of a node counts its strict dominators.
-/

namespace MissBound

namespace Digraph

variable {α β : Type}

/-- `m` dominates `n` and is another node. -/
def StrictlyDominates (g : Digraph α β) (root m n : Nat) : Prop :=
  g.Dominates root m n ∧ m ≠ n

/-- `m` is the strict dominator of `n` that all others dominate. -/
structure ImmediatelyDominates (g : Digraph α β) (root m n : Nat) : Prop where
  strict : g.StrictlyDominates root m n
  closest : ∀ k, g.StrictlyDominates root k n → k ≠ m → g.Dominates root k m

end Digraph

namespace DominatorTree

variable {α β : Type} {g : Digraph α β} {entry : Nat} {order : List Nat}
  {parents : List (Option Nat)} {d n p : Nat}

/-- The strict dominators of a node are the dominators of its parent. -/
theorem Represents.strictlyDominates_iff (T : Represents g entry order parents)
    (hp : parent? parents n = some p) (hne : n ≠ entry) :
    g.StrictlyDominates entry d n ↔ g.Dominates entry d p := by
  have hplaced : Placed parents n := by simp [Placed, hp]
  have hn := (T.placed_iff n).mp hplaced
  have hp' := (T.placed_iff p).mp (T.rooted.placed n p hp)
  constructor
  · rintro ⟨hd, hdn⟩
    rcases ((T.climbs_iff n hn d).mpr hd).cases_head with rfl | ⟨q, hq, hqd⟩
    · exact absurd rfl hdn
    · cases hp.symm.trans hq
      exact (T.climbs_iff p hp' d).mp hqd
  · intro hd
    have hpd := (T.climbs_iff p hp' d).mpr hd
    refine ⟨(T.climbs_iff n hn d).mp (.head hp hpd), ?_⟩
    rintro rfl
    -- the parent would stand before and behind the node
    have hle := T.rooted.le_of_climbs hpd
    have hlt := T.rooted.lt d p hp hne
    omega

theorem Represents.immediatelyDominates (T : Represents g entry order parents)
    (hp : parent? parents n = some p) (hne : n ≠ entry) : g.ImmediatelyDominates entry p n where
  strict := (T.strictlyDominates_iff hp hne).mpr .refl
  closest _ hk _ := (T.strictlyDominates_iff hp hne).mp hk

section
variable (hg : g.Closed) (he : entry < g.nodeCount)
include hg he

theorem immediate?_eq_none :
    (of g entry).immediate? n = none ↔ n = entry ∨ ¬g.Reaches entry n := by
  change (if n = entry then none else parent? (of g entry).parents n) = none ↔ _
  rw [ite_eq_left_iff, ← (represents_of hg he).placed_iff n, Placed, Option.isSome_iff_ne_none,
    not_not, or_iff_not_imp_left]

theorem immediatelyDominates_of (h : (of g entry).immediate? n = some d) :
    g.ImmediatelyDominates entry d n := by
  obtain ⟨hne, hp⟩ := Option.ite_none_left_eq_some.mp h
  exact (represents_of hg he).immediatelyDominates hp hne

/-- The depth of a node is the number of its strict dominators. -/
theorem exists_strictDominators (hn : g.Reaches entry n) : ∃ s : Finset Nat,
    (∀ d, d ∈ s ↔ g.StrictlyDominates entry d n) ∧ (of g entry).depth n = s.card := by
  have T := represents_of hg he
  have M := measured_of hg he
  -- the induction climbs the tree: the parent joins its own strict dominators
  induction hk : (g.reversePostorder entry).idxOf n using Nat.strongRecOn generalizing n with
  | _ k ih =>
    by_cases hne : n = entry
    · subst hne
      refine ⟨∅, fun d => ⟨fun hd => absurd hd (Finset.notMem_empty d), fun hd => ?_⟩, M.root⟩
      exact absurd (List.mem_singleton.mp (hd.1 _ .start)) hd.2
    · obtain ⟨p, hp⟩ := Option.isSome_iff_exists.mp ((T.placed_iff n).mpr hn)
      have hpr := (T.placed_iff p).mp (T.rooted.placed n p hp)
      obtain ⟨s, hs, hdepth⟩ := ih _ (hk ▸ T.rooted.lt n p hp hne) hpr rfl
      have hps : p ∉ s := fun hmem => ((hs p).mp hmem).2 rfl
      refine ⟨insert p s, fun d => ?_, ?_⟩
      · rw [T.strictlyDominates_iff hp hne, Finset.mem_insert, hs, Digraph.StrictlyDominates]
        by_cases hdp : d = p
        · subst hdp
          simp [Digraph.Dominates.refl]
        · simp [hdp]
      · rw [Finset.card_insert_of_notMem hps, ← hdepth]
        exact M.succ n p hp hne (T.rooted.mem n p hp)

/-- The dominator tree of a graph tells reachable nodes from others and dominators from others.
Every reachable node but the entry is linked to its immediate dominator, and as deep as it has
strict dominators. -/
theorem tree_exact :
    (∀ n, (of g entry).isReachable n = true ↔ g.Reaches entry n) ∧
    (∀ a b, (of g entry).dominates a b = true ↔ g.Reaches entry b ∧ g.Dominates entry a b) ∧
    (∀ n, (of g entry).immediate? n = none ↔ n = entry ∨ ¬g.Reaches entry n) ∧
    (∀ n d, (of g entry).immediate? n = some d → g.ImmediatelyDominates entry d n) ∧
    ∀ n, g.Reaches entry n → ∃ s : Finset Nat,
      (∀ d, d ∈ s ↔ g.StrictlyDominates entry d n) ∧ (of g entry).depth n = s.card :=
  ⟨fun _ => isReachable_of hg he, fun _ _ => dominates_of hg he, fun _ => immediate?_eq_none hg he,
    fun _ _ => immediatelyDominates_of hg he, fun _ => exists_strictDominators hg he⟩

end

/-- A cycle that can be entered at both its nodes, one of which has an edge to itself. A node behind
it is reached over two parallel edges, and over one from a node that cannot be reached. -/
def twoEntries : Digraph Unit Unit :=
  ⟨List.replicate 5 (), [⟨0, 1, ()⟩, ⟨0, 2, ()⟩, ⟨1, 2, ()⟩, ⟨2, 1, ()⟩, ⟨1, 1, ()⟩, ⟨2, 3, ()⟩,
    ⟨2, 3, ()⟩, ⟨4, 3, ()⟩]⟩

/-- Of the cycle only the node left last dominates the one behind it. -/
theorem tree_exact_two_entries :
    twoEntries.ImmediatelyDominates 0 2 3 ∧ ¬twoEntries.Dominates 0 1 3 ∧
    (∃ s : Finset Nat, (∀ d, d ∈ s ↔ twoEntries.StrictlyDominates 0 d 3) ∧ s.card = 2) ∧
    ¬twoEntries.Reaches 0 4 := by
  have hg : twoEntries.Closed := by decide
  have he : 0 < twoEntries.nodeCount := by decide
  obtain ⟨hreach, hdom, -, himm, hdepth⟩ := tree_exact hg he
  have hr : twoEntries.Reaches 0 3 := (hreach 3).mp (by decide)
  obtain ⟨s, hs, hcard⟩ := hdepth 3 hr
  refine ⟨himm 3 2 (by decide), fun h => ?_, ⟨s, hs, hcard.symm.trans (by decide)⟩, fun h => ?_⟩
  · exact absurd ((hdom 1 3).mpr ⟨hr, h⟩) (by decide)
  · exact absurd ((hreach 4).mpr h) (by decide)

end DominatorTree

end MissBound
