import MissBound.Proofs.Digraph.Dominator

/-!
The iteration for immediate dominators ends. Whenever two chains are climbed in its course, they
have a node in common and the climb comes to it. An improvement that changes a candidate moves it
towards the entry, so that the sum of the places of all candidates falls with every pass that
changes something.
-/

namespace MissBound.DominatorTree

variable {α β : Type} {g : Digraph α β} {entry : Nat} {order rest : List Nat}
  {parents : List (Option Nat)} {a b c n : Nat} {s t u : Nat × Nat}

/-- One step up two chains, from the later of the two nodes that they have come to. -/
inductive Ascends (order : List Nat) (parents : List (Option Nat)) : Nat × Nat → Nat × Nat → Prop
  | left {a b p : Nat} (hlt : order.idxOf b < order.idxOf a) (hp : parent? parents a = some p) :
    Ascends order parents (a, b) (p, b)
  | right {a b p : Nat} (hlt : order.idxOf a < order.idxOf b) (hp : parent? parents b = some p) :
    Ascends order parents (a, b) (a, p)

namespace Ascends

theorem unique (h : Ascends order parents s t) (h' : Ascends order parents s u) : t = u := by
  cases h with
  | left hlt hp =>
    cases h' with
    | left _ hq => rw [Option.some.inj (hp.symm.trans hq)]
    | right hgt _ => exact absurd hgt (Nat.lt_asymm hlt)
  | right hlt hp =>
    cases h' with
    | left hgt _ => exact absurd hgt (Nat.lt_asymm hlt)
    | right _ hq => rw [Option.some.inj (hp.symm.trans hq)]

/-- At a common node the climb is over. -/
theorem eq_of_common (h : Relation.ReflTransGen (Ascends order parents) (c, c) t) : t = (c, c) := by
  rcases h.cases_head with h | ⟨u, hu, -⟩
  · exact h.symm
  · cases hu <;> exact absurd ‹_› (Nat.lt_irrefl _)

end Ascends

section
variable (R : Rooted entry order parents) (hhead : ∃ rest, order = entry :: rest)
include R hhead

theorem ascends_meet (steps : Nat) : ∀ a b, Placed parents a → Placed parents b →
    order.idxOf a + order.idxOf b < steps → Relation.ReflTransGen (Ascends order parents) (a, b)
      (meet order parents steps a b, meet order parents steps a b) := by
  induction steps with
  | zero => intro a b _ _ h; omega
  | succ steps ih =>
    intro a b ha hb hlen
    by_cases hab : a = b
    · subst hab
      simp only [meet, if_true]
      exact .refl
    · rcases meet_cases R hhead ha hb hab steps with ⟨p, hp, hlt, hpa, heq⟩ | ⟨p, hp, hlt, hpb, heq⟩
      · rw [heq]
        exact .head (.left hlt hp) (ih p b (R.placed a p hp) hb (by omega))
      · rw [heq]
        exact .head (.right hlt hp) (ih a p ha (R.placed b p hp) (by omega))

/-- However far two chains have been climbed, the climb goes on to their meet. -/
theorem ascends_common (ha : Placed parents a) (hb : Placed parents b) :
    let c := meet order parents (2 * order.length) a b
    Placed parents c ∧ ∀ s, Relation.ReflTransGen (Ascends order parents) (a, b) s →
      Relation.ReflTransGen (Ascends order parents) s (c, c) := by
  have hla := List.idxOf_lt_length_of_mem (R.mem_of_placed ha)
  have hlb := List.idxOf_lt_length_of_mem (R.mem_of_placed hb)
  have hlen : order.idxOf a + order.idxOf b < 2 * order.length := by omega
  refine ⟨(meet_spec R hhead _ a b ha hb hlen).1, fun s hs => ?_⟩
  have hmeet := ascends_meet R hhead _ a b ha hb hlen
  have hunique : Relator.RightUnique (Ascends order parents) := fun _ _ _ => Ascends.unique
  rcases hs.total_of_right_unique hunique hmeet with h | h
  · exact h
  · rw [Ascends.eq_of_common h]

end

/-- The candidates before the first pass. -/
def initial (g : Digraph α β) (entry : Nat) : List (Option Nat) :=
  (List.replicate g.nodeCount none).set entry (some entry)

/-- The iteration comes to have the candidates `parents`, with the nodes `rest` to come in its
pass. -/
inductive Moment (g : Digraph α β) (entry : Nat) : List (Option Nat) → List Nat → Prop
  | start : Moment g entry (initial g entry) ((g.reversePostorder entry).drop 1)
  | improve {parents : List (Option Nat)} {n : Nat} {rest : List Nat}
    (h : Moment g entry parents (n :: rest)) :
    Moment g entry (improve g (g.reversePostorder entry) parents n) rest
  | again {parents : List (Option Nat)} (h : Moment g entry parents []) :
    Moment g entry parents ((g.reversePostorder entry).drop 1)

namespace Moment

theorem foldl (h : Moment g entry parents rest) :
    Moment g entry
      (rest.foldl (DominatorTree.improve g (g.reversePostorder entry)) parents) [] := by
  induction rest generalizing parents with
  | nil => exact h
  | cons n rest ih => exact ih h.improve

theorem iterate (k : Nat) : Moment g entry
    ((pass g (g.reversePostorder entry))^[k] (initial g entry))
    ((g.reversePostorder entry).drop 1) := by
  induction k with
  | zero => exact .start
  | succ k ih =>
    rw [Function.iterate_succ_apply']
    exact ih.foldl.again

end Moment

/-- The iteration for the immediate dominators below `entry` comes to an end. -/
structure Terminates (g : Digraph α β) (entry : Nat) : Prop where
  /-- Chains are climbed to a common node. -/
  common : ∀ parents rest, Moment g entry parents rest → ∀ a b, Placed parents a →
    Placed parents b →
    let order := g.reversePostorder entry
    let c := meet order parents (2 * order.length) a b
    Placed parents c ∧ ∀ s, Relation.ReflTransGen (Ascends order parents) (a, b) s →
      Relation.ReflTransGen (Ascends order parents) s (c, c)
  improve_lt : ∀ parents n rest, Moment g entry parents (n :: rest) →
    let order := g.reversePostorder entry
    improve g order parents n ≠ parents →
      weight g.nodeCount order (improve g order parents n) < weight g.nodeCount order parents
  pass_lt : let order := g.reversePostorder entry
    ∀ parents, Moment g entry parents (order.drop 1) → pass g order parents ≠ parents →
      weight g.nodeCount order (pass g order parents) < weight g.nodeCount order parents
  /-- Every pass but the last one changes something, and the last one leaves the tree. -/
  ends : let order := g.reversePostorder entry
    let after k := (pass g order)^[k] (initial g entry)
    ∃ k ≤ weight g.nodeCount order (initial g entry), (∀ j < k, pass g order (after j) ≠ after j) ∧
      pass g order (after k) = after k ∧ (of g entry).parents = after k

section
variable (O : g.Ordered entry order)
include O

/-- Passes end before the rounds are used up. -/
theorem settle_eq_iterate {missing : Nat} (hmissing : order.length ≤ missing) (rounds : Nat) :
    ∀ parents : List (Option Nat), Sweep g entry order parents 1 →
    (∀ n ∈ order, n < parents.length) → weight missing order parents < rounds →
    ∃ k ≤ weight missing order parents,
      (∀ j < k, pass g order ((pass g order)^[j] parents) ≠ (pass g order)^[j] parents) ∧
      pass g order ((pass g order)^[k] parents) = (pass g order)^[k] parents ∧
      settle g order rounds parents = (pass g order)^[k] parents := by
  induction rounds with
  | zero => intro _ _ _ h; omega
  | succ rounds ih =>
    intro parents S hlen hw
    obtain ⟨S', hor⟩ := S.pass O hmissing hlen
    simp only [settle]
    split
    · rename_i heq
      exact ⟨0, Nat.zero_le _, fun j hj => absurd hj (Nat.not_lt_zero j), heq, rfl⟩
    · rename_i hne
      have hlt := hor.resolve_left fun h => hne h.1
      have hlen' : ∀ n ∈ order, n < (pass g order parents).length := by
        rw [length_pass]
        exact hlen
      obtain ⟨k, hk, hchange, hfixed, heq⟩ := ih _ S'.again hlen' (by omega)
      refine ⟨k + 1, by omega, fun j hj => ?_, hfixed, heq⟩
      cases j with
      | zero => exact hne
      | succ j => exact hchange j (Nat.lt_of_succ_lt_succ hj)

end

section
variable (hg : g.Closed) (he : entry < g.nodeCount)
include hg he

theorem lt_length_initial : ∀ n ∈ g.reversePostorder entry, n < (initial g entry).length := by
  rw [initial, List.length_set, List.length_replicate]
  exact fun n => Digraph.reversePostorder_lt hg he

/-- At every moment a sweep is on its way. -/
theorem Moment.sweep (h : Moment g entry parents rest) : ∃ done,
    g.reversePostorder entry = done ++ rest ∧ done ≠ [] ∧
      Sweep g entry (g.reversePostorder entry) parents done.length ∧
      ∀ n ∈ g.reversePostorder entry, n < parents.length := by
  have O := Digraph.ordered_reversePostorder hg he
  obtain ⟨tail, ht⟩ := O.head
  have hfirst : g.reversePostorder entry = [entry] ++ (g.reversePostorder entry).drop 1 := by
    rw [ht]
    rfl
  have hne : [entry] ≠ [] := List.cons_ne_nil _ _
  induction h with
  | start => exact ⟨[entry], hfirst, hne, .start O g.nodeCount he, lt_length_initial hg he⟩
  | @improve parents n rest _ ih =>
    obtain ⟨done, ho, hdone, S, hlen⟩ := ih
    obtain ⟨S', -⟩ := S.improve_next O (Nat.le_refl _) ho hdone hlen
    refine ⟨done ++ [n], ho.trans (List.append_cons ..), by simp, S', ?_⟩
    rw [length_improve]
    exact hlen
  | again _ ih =>
    obtain ⟨done, ho, -, S, hlen⟩ := ih
    rw [← List.append_nil done, ← ho] at S
    exact ⟨[entry], hfirst, hne, S.again, hlen⟩

end

/-- From an entry that is no node nothing is reached, and the only pass has nothing to do. -/
theorem terminates_of_le (he : g.nodeCount ≤ entry) : Terminates g entry := by
  have horder : g.reversePostorder entry = [] := by
    rw [Digraph.reversePostorder, Digraph.postorder, if_neg (Nat.not_lt.mpr he)]
    rfl
  have hnone : ∀ n, ¬Placed (initial g entry) n := by
    intro n
    have hinitial : initial g entry = List.replicate g.nodeCount none :=
      List.set_eq_of_length_le (by simpa using he)
    rw [Placed, parent?, hinitial, List.getElem?_replicate]
    split <;> exact Bool.false_ne_true
  have hmoment : ∀ {parents rest}, Moment g entry parents rest →
      parents = initial g entry ∧ rest = [] := by
    intro parents rest h
    induction h with
    | start => exact ⟨rfl, by rw [horder]; rfl⟩
    | improve _ ih => cases ih.2
    | again _ ih => exact ⟨ih.1, by rw [horder]; rfl⟩
  have hpass : ∀ parents, pass g (g.reversePostorder entry) parents = parents := by
    rw [horder]
    exact fun _ => rfl
  refine ⟨fun parents rest h a b ha _ => ?_, fun parents n rest h => ?_, fun parents _ h => ?_,
    0, Nat.zero_le _, fun j hj => absurd hj (Nat.not_lt_zero j), hpass _, ?_⟩
  · exact absurd ((hmoment h).1 ▸ ha) (hnone a)
  · cases (hmoment h).2
  · exact absurd (hpass parents) h
  · exact if_pos (hpass _)

/-- Whatever the graph and the entry, the iteration ends: chains are climbed to a common node, and a
pass that changes a candidate lets the sum of the places of the candidates fall. -/
theorem iteration_terminates (hg : g.Closed) (entry : Nat) : Terminates g entry := by
  rcases Nat.lt_or_ge entry g.nodeCount with he | he
  · have O := Digraph.ordered_reversePostorder hg he
    have hmissing := length_reversePostorder_le hg he
    have S₀ : Sweep g entry _ (initial g entry) 1 := .start O g.nodeCount he
    refine ⟨fun parents rest h a b ha hb => ?_, fun parents n rest h hne => ?_,
      fun parents h hne => ?_, ?_⟩
    · obtain ⟨_, -, -, S, -⟩ := h.sweep hg he
      exact ascends_common S.rooted O.head ha hb
    · obtain ⟨done, ho, hdone, S, hlen⟩ := h.sweep hg he
      exact (S.improve_next O hmissing ho hdone hlen).2.resolve_left fun h => hne h.1
    · obtain ⟨done, ho, hdone, S, hlen⟩ := h.sweep hg he
      exact (Sweep.foldl_improve O hmissing _ done parents ho hdone S hlen).2.resolve_left
        fun h => hne h.1
    · have hw := weight_le S₀.rooted hmissing
      have hsq := Nat.mul_le_mul_right g.nodeCount hmissing
      exact settle_eq_iterate O hmissing (g.nodeCount * g.nodeCount + 1) _ S₀
        (lt_length_initial hg he) (by omega)
  · exact terminates_of_le he

/-- A cycle that is entered at both its nodes, over one node each, and from a node that cannot be
reached. -/
def crossedCycle : Digraph Unit Unit :=
  ⟨List.replicate 6 (), [⟨0, 1, ()⟩, ⟨0, 2, ()⟩, ⟨1, 3, ()⟩, ⟨2, 4, ()⟩, ⟨3, 4, ()⟩, ⟨4, 3, ()⟩,
    ⟨5, 3, ()⟩]⟩

/-- The first pass comes to one node of the cycle before the other one has a candidate, and the
second pass corrects it. -/
theorem iteration_terminates_crossed_cycle :
    let order := crossedCycle.reversePostorder 0
    let once := pass crossedCycle order (initial crossedCycle 0)
    let twice := pass crossedCycle order once
    parent? once 3 = some 1 ∧ parent? twice 3 = some 0 ∧
    Relation.ReflTransGen (Ascends order once) (4, 1) (0, 0) ∧
    weight 6 order once < weight 6 order (initial crossedCycle 0) ∧
    weight 6 order twice < weight 6 order once ∧ (of crossedCycle 0).parents = twice := by
  have T := iteration_terminates (g := crossedCycle) (by decide) 0
  have hfirst : Moment crossedCycle 0 _ _ := .iterate 0
  have hsecond : Moment crossedCycle 0 _ _ := .iterate 1
  obtain ⟨k, -, hchange, hfixed, htree⟩ := T.ends
  have hk : k = 2 := by
    rcases Nat.lt_trichotomy k 2 with hlt | heq | hgt
    · exact absurd hfixed (by interval_cases k <;> decide)
    · exact heq
    · exact absurd (by decide) (hchange 2 hgt)
  subst hk
  exact ⟨by decide, by decide, (T.common _ _ hsecond 4 1 rfl rfl).2 _ .refl,
    T.pass_lt _ hfirst (by decide), T.pass_lt _ hsecond (by decide), htree⟩

end MissBound.DominatorTree
