import MissBound.Proofs.Digraph.Immediate
import MissBound.Proofs.Lru.Order
import MissBound.Proofs.Program.Labels

/-!
The order of headers and the order of values that comes from it. Sorted lists of terms and of lines,
and their merging, rest on both being total: any two things compare in one way only, and the same if
they are swapped.
-/

namespace MissBound

/-- The comparison is that of a total order, whose strict part is where it gives `.lt`. -/
structure TotallyOrders {α : Type} (cmp : α → α → Ordering) : Prop where
  eq_iff : ∀ a b, cmp a b = .eq ↔ a = b
  swap : ∀ a b, cmp b a = (cmp a b).swap
  trans : ∀ a b c, cmp a b = .lt → cmp b c = .lt → cmp a c = .lt

theorem totallyOrders_of {α : Type} {cmp : α → α → Ordering} [Std.TransCmp cmp]
    (heq : ∀ {a b}, cmp a b = .eq → a = b) : TotallyOrders cmp where
  eq_iff _ _ := ⟨heq, fun h => h ▸ Std.ReflCmp.compare_self⟩
  swap _ _ := Std.OrientedCmp.eq_swap
  trans _ _ _ := Std.TransCmp.lt_trans

namespace Symbolic

variable {L : LoopForest} {v : Symbolic} {xs ys : List Term} {t : Term} {c d : UInt32}

theorem bottom_compare (h : v ≠ bottom) : compare L bottom v = .lt := if_neg (Ne.symm h)

theorem compare_top (h : v ≠ top) : compare L v top = .lt := by
  cases v with
  | bottom => exact bottom_compare Symbolic.noConfusion
  | affine e => rfl
  | top => exact absurd rfl h

theorem compareLex_append : List.compareLex (Term.compare L) xs (xs ++ t :: ys) = .lt := by
  induction xs with
  | nil => rfl
  | cons x xs ih =>
    have hx : Term.compare L x x = .eq := Std.ReflCmp.compare_self
    rw [List.cons_append, List.compareLex_cons_cons, hx, ih]
    rfl

/-- Of two expressions, one of which goes on where the other ends, the shorter comes first. -/
theorem compare_append : compare L (affine ⟨xs, c⟩) (affine ⟨xs ++ t :: ys, d⟩) = .lt := by
  have hterms : List.compareLex (Term.compare L) (affine ⟨xs, c⟩).terms
      (affine ⟨xs ++ t :: ys, d⟩).terms = .lt := compareLex_append
  rw [compare_eq, hterms]
  rfl

end Symbolic

namespace FlowGraph

variable {blocks : List Block} {edges : List (Nat × Nat)} {bounds : List (Nat × LoopBound)}
  {entry : Nat} {G : FlowGraph}

/-- Whatever the graph, its nodes are totally ordered, a reachable one before those that strictly
dominate it, and so are the values of its analysis: the unreached value comes first, the unknown one
last, and in between an expression before those that continue it. -/
theorem values_totally_ordered (hG : build blocks edges bounds entry = .ok G) :
    (TotallyOrders G.loops.compareHeaders ∧
      ∀ a b, G.graph.Reaches G.entry b → G.graph.StrictlyDominates G.entry a b →
        G.loops.compareHeaders b a = .lt) ∧
    TotallyOrders (Symbolic.compare G.loops) ∧
    (∀ v, v ≠ .bottom → Symbolic.compare G.loops .bottom v = .lt) ∧
    (∀ v, v ≠ .top → Symbolic.compare G.loops v .top = .lt) ∧
    ∀ xs t ys c d,
      Symbolic.compare G.loops (.affine ⟨xs, c⟩) (.affine ⟨xs ++ t :: ys, d⟩) = .lt := by
  have B := built_of_build hG
  refine ⟨⟨totallyOrders_of G.loops.compareHeaders_eq.mp, fun a b hr hd => ?_⟩,
    totallyOrders_of Symbolic.eq_of_compare, fun _ => Symbolic.bottom_compare,
    fun _ => Symbolic.compare_top, fun _ _ _ _ _ => Symbolic.compare_append⟩
  exact B.loops.compareHeaders_of_dominates B.closed B.entry_lt hr hd.1 hd.2

/-- The inner of two loops is headed by the node with the greater number, and yet comes first; so
does a value that changes with it. -/
theorem values_totally_ordered_leap :
    leapGraph.graph.StrictlyDominates 0 1 2 ∧ leapGraph.loops.compareHeaders 2 1 = .lt ∧
    (Symbolic.compare leapGraph.loops .bottom (.affine ⟨[⟨4, 2⟩], 0x100⟩) = .lt ∧
      Symbolic.compare leapGraph.loops (.affine ⟨[⟨4, 2⟩], 0x100⟩) (.affine ⟨[⟨4, 1⟩], 0x100⟩) =
        .lt ∧
      Symbolic.compare leapGraph.loops .bottom (.affine ⟨[⟨4, 1⟩], 0x100⟩) = .lt) ∧
    Symbolic.compare leapGraph.loops (.affine ⟨[⟨4, 1⟩], 0x100⟩) .top = .lt := by
  have hG : build [⟨0, []⟩, ⟨4, []⟩, ⟨8, []⟩, ⟨12, []⟩, ⟨16, []⟩, ⟨20, []⟩]
      [(0, 1), (1, 2), (2, 2), (2, 1), (2, 3), (3, 3), (3, 4), (3, 5), (4, 5), (5, 4)]
      [(3, ⟨some 1, some 4⟩)] 0 = .ok leapGraph := rfl
  have B := built_of_build hG
  obtain ⟨hr, hd⟩ := (DominatorTree.dominates_of B.closed B.entry_lt (a := 1) (b := 2)).mp
    (B.dominators ▸ by decide)
  obtain ⟨⟨-, hheaders⟩, hvalues, hbottom, htop, -⟩ := values_totally_ordered hG
  have hfirst := hbottom (.affine ⟨[⟨4, 2⟩], 0x100⟩) Symbolic.noConfusion
  have hnext : Symbolic.compare leapGraph.loops (.affine ⟨[⟨4, 2⟩], 0x100⟩)
      (.affine ⟨[⟨4, 1⟩], 0x100⟩) = .lt := by decide
  exact ⟨⟨hd, by decide⟩, hheaders 1 2 hr ⟨hd, by decide⟩,
    ⟨hfirst, hnext, hvalues.trans _ _ _ hfirst hnext⟩, htop _ Symbolic.noConfusion⟩

end FlowGraph

end MissBound
