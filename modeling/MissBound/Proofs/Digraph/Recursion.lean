import Mathlib
import MissBound.Digraph.DepthFirst

/-!
Depth-first search as a recursion: each root in turn is passed over if it was seen, and otherwise
marked, searched through along its neighbours and left. A stack of tasks does the same. The tasks
that a node puts on the stack are done before what lies below them, and a neighbour that was left
out there, or is seen by the time its turn comes, would have been passed over.
-/

namespace MissBound.Search

variable {next : Nat → List Nat} {roots roots' : List Nat} {s t u : Search}

/-- The recursive search from some roots, one after the other, turns `s` into `t`. -/
inductive DepthFirst (next : Nat → List Nat) : List Nat → Search → Search → Prop
  | nil {s : Search} : DepthFirst next [] s s
  | skip {n : Nat} {roots : List Nat} {s t : Search} : n ∈ s.seen →
    DepthFirst next roots s t → DepthFirst next (n :: roots) s t
  | visit {n : Nat} {roots : List Nat} {s t u : Search} : n ∉ s.seen →
    DepthFirst next (next n) ⟨n :: s.seen, s.finished⟩ t →
    DepthFirst next roots ⟨t.seen, n :: t.finished⟩ u → DepthFirst next (n :: roots) s u

namespace DepthFirst

theorem append (h : DepthFirst next roots s t) (h' : DepthFirst next roots' t u) :
    DepthFirst next (roots ++ roots') s u := by
  induction h with
  | nil => exact h'
  | skip hn _ ih => exact .skip hn (ih h')
  | visit hn hinner _ _ ih => exact .visit hn hinner (ih h')

theorem unique (h : DepthFirst next roots s t) (h' : DepthFirst next roots s u) : t = u := by
  induction h generalizing u with
  | nil =>
    cases h'
    rfl
  | skip hn _ ih =>
    cases h' with
    | skip _ h' => exact ih h'
    | visit hn' => exact absurd hn hn'
  | visit hn _ _ ihinner ih =>
    cases h' with
    | skip hn' => exact absurd hn' hn
    | visit _ hinner h' =>
      cases ihinner hinner
      exact ih h'

theorem mem_seen (h : DepthFirst next roots s t) {m : Nat} (hm : m ∈ s.seen) : m ∈ t.seen := by
  induction h with
  | nil => exact hm
  | skip _ _ ih => exact ih hm
  | visit _ _ _ ihinner ih => exact ih (ihinner (List.mem_cons_of_mem _ hm))

end DepthFirst

/-- How many tasks some nodes put on the stack. -/
def load (next : Nat → List Nat) (nodes : List Nat) : Nat :=
  (nodes.map fun n => 1 + (next n).length).sum

@[simp] theorem load_cons {n : Nat} {nodes : List Nat} :
    load next (n :: nodes) = 1 + (next n).length + load next nodes := by
  simp [load]

@[simp] theorem drain_nil {steps : Nat} : drain next steps [] s = s := by
  cases steps <;> rfl

theorem drain_enter_seen {n steps : Nat} {stack : List Task} (hn : n ∈ s.seen) :
    drain next (steps + 1) (.enter n :: stack) s = drain next steps stack s := by
  simp [drain, perform, hn]

theorem drain_enter {n steps : Nat} {stack : List Task} (hn : n ∉ s.seen) :
    drain next (steps + 1) (.enter n :: stack) s = drain next steps
      (((next n).filter fun m => m ∉ n :: s.seen).map .enter ++ .leave n :: stack)
      ⟨n :: s.seen, s.finished⟩ := by
  simp [drain, perform, hn]

theorem drain_leave {n steps : Nat} {stack : List Task} :
    drain next (steps + 1) (.leave n :: stack) s = drain next steps stack
      ⟨s.seen, n :: s.finished⟩ := rfl

/-- Entering roots on top of a stack does what the recursion does and leaves the rest of the stack.
Some roots that have been seen may be missing. -/
theorem DepthFirst.drain (h : DepthFirst next roots s t) : ∀ missing : List Nat,
    (∀ m ∈ missing, m ∈ s.seen) →
    ∃ k, k + load next s.finished ≤ roots.length + load next t.finished ∧
      ∀ steps stack,
        drain next (k + steps) ((roots.filter fun m => m ∉ missing).map .enter ++ stack) s =
          drain next steps stack t := by
  induction h with
  | nil =>
    intro missing _
    exact ⟨0, by simp, fun steps stack => by simp⟩
  | @skip n roots s t hn _ ih =>
    intro missing hmissing
    obtain ⟨k, hk, hdrain⟩ := ih missing hmissing
    by_cases hm : n ∈ missing
    · refine ⟨k, ?_, fun steps stack => ?_⟩
      · rw [List.length_cons]
        omega
      · rw [List.filter_cons_of_neg (by simpa using hm)]
        exact hdrain steps stack
    · refine ⟨k + 1, ?_, fun steps stack => ?_⟩
      · rw [List.length_cons]
        omega
      · rw [List.filter_cons_of_pos (by simpa using hm), List.map_cons, List.cons_append,
          Nat.add_right_comm, drain_enter_seen hn]
        exact hdrain steps stack
  | @visit n roots s t u hn hinner _ ihinner ih =>
    intro missing hmissing
    obtain ⟨k, hk, hdrain⟩ := ihinner (n :: s.seen) fun _ hm => hm
    obtain ⟨k', hk', hdrain'⟩ := ih missing fun m hm =>
      hinner.mem_seen (List.mem_cons_of_mem _ (hmissing m hm))
    have hm : n ∉ missing := fun h => hn (hmissing n h)
    -- the root is entered, its neighbours are searched, the root is left, and the others follow
    refine ⟨(k + (k' + 1)) + 1, ?_, fun steps stack => ?_⟩
    · simp only [load_cons] at hk hk'
      rw [List.length_cons]
      omega
    · rw [List.filter_cons_of_pos (by simpa using hm), List.map_cons, List.cons_append,
        Nat.add_right_comm, drain_enter hn, Nat.add_assoc, hdrain, Nat.add_right_comm, drain_leave]
      exact hdrain' steps stack

/-- A stack with one root, drained far enough. -/
theorem DepthFirst.drain_eq {root steps : Nat} (h : DepthFirst next [root] .start t)
    (hsteps : 1 + load next t.finished ≤ steps) :
    Search.drain next steps [.enter root] .start = t := by
  obtain ⟨k, hk, hdrain⟩ := h.drain [] (List.forall_mem_nil _)
  have hk : k ≤ 1 + load next t.finished := Nat.le_trans (Nat.le_add_right ..) hk
  obtain ⟨rest, rfl⟩ := Nat.exists_eq_add_of_le (Nat.le_trans hk hsteps)
  have := hdrain rest []
  simpa using this

end MissBound.Search
