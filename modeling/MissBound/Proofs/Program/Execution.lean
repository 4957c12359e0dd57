import MissBound.Machine.Access
import MissBound.Proofs.Lru.Concrete
import MissBound.Proofs.Program.Crossing

/-!
Runs of a program against a concrete cache. A run serves the accesses of a block one by one and then
follows an edge; the counter of a loop tells how often the run has come back to its header since it
entered the loop, and respects the bounds of the loop.
-/

namespace MissBound

/-- The address that an access uses at the given counters; any one if it is not known. -/
inductive DataUse.Touches (a : DataUse) (counter : Nat → Nat) : Nat → Prop
  | affine {e : Affine} : a.reference = .affine e → Touches a counter (e.eval counter).toNat
  | top {address : Nat} : a.reference = .top → address < 2 ^ 32 → Touches a counter address

theorem DataUse.Touches.eq_eval {a : DataUse} {counter : Nat → Nat} {address : Nat} {e : Affine}
    (h : a.Touches counter address) (ha : a.reference = .affine e) :
    address = (e.eval counter).toNat := by
  cases h with
  | affine h =>
    cases ha.symm.trans h
    rfl
  | top h => cases ha.symm.trans h

namespace FlowGraph

variable (G : FlowGraph)

/-- The counters after following `e`: a back edge counts an iteration of the loop of its target,
any other edge starts the loop afresh. -/
def count (e : Edge Crossing) (counter : Nat → Nat) : Nat → Nat :=
  Function.update counter e.target
    (if G.loops.Inside e.target e.source then counter e.target + 1 else 0)

/-- The loop of `h` may run its header once more. -/
def Admits (h : Nat) (counter : Nat → Nat) : Prop :=
  ∀ n, G.loops.maxIteration? h = some n → counter h < n

/-- The loops that `e` leaves have run their headers as often as an exact bound demands. -/
def Completes (e : Edge Crossing) (counter : Nat → Nat) : Prop :=
  ∀ h, G.loops.Inside h e.source → ¬G.loops.Inside h e.target →
    ∀ n, (G.loops.boundOf h).exactCount? = some n → counter h + 1 = n

instance (h : Nat) (counter : Nat → Nat) : Decidable (G.Admits h counter) :=
  decidable_of_iff (∀ n ∈ G.loops.maxIteration? h, counter h < n) Iff.rfl

instance (e : Edge Crossing) (counter : Nat → Nat) : Decidable (G.Completes e counter) :=
  decidable_of_iff (∀ l ∈ G.loops.loops, G.loops.Inside l.header e.source →
      ¬G.loops.Inside l.header e.target →
      ∀ n ∈ (G.loops.boundOf l.header).exactCount?, counter l.header + 1 = n) <| by
    refine ⟨fun H h hs ht n hn => ?_, fun H l _ hs ht n hn => H _ hs ht n hn⟩
    have ⟨l, hl, _⟩ := hs
    have heq : l.header = h := by simpa using List.find?_some hl
    subst heq
    exact H l (List.mem_of_find?_eq_some hl) hs ht n hn

end FlowGraph

/-- A moment of a run, with `served` accesses of the current block behind it. -/
structure Situation (g : Geometry) where
  block : Nat
  served : Nat
  counter : Nat → Nat
  content : CacheContent g

/-- The use of an address by the access at position `index` of a block. -/
structure Event where
  block : Nat
  index : Nat
  counter : Nat → Nat
  address : Nat
  hit : Bool

section
variable (G : FlowGraph) (table : AccessTable) {g : Geometry}

/-- One step of a run, with the use of the cache that it makes. -/
inductive Step : Situation g → Option Event → Situation g → Prop
  | serve {b k address : Nat} {counter : Nat → Nat} {content : CacheContent g} {a : Access} :
    (table.block b)[k]? = some a → a.cached = true → a.Touches counter address →
    Step ⟨b, k, counter, content⟩ (some ⟨b, k, counter, address, content.hits address⟩)
      ⟨b, k + 1, counter, content.touch address⟩
  | bypass {b k : Nat} {counter : Nat → Nat} {content : CacheContent g} {a : Access} :
    (table.block b)[k]? = some a → a.cached = false →
    Step ⟨b, k, counter, content⟩ none ⟨b, k + 1, counter, content⟩
  | follow {k : Nat} {e : Edge Crossing} {counter : Nat → Nat} {content : CacheContent g} :
    (table.block e.source).length = k → e ∈ G.graph.edges → G.Completes e counter →
    G.Admits e.target (G.count e counter) →
    Step ⟨e.source, k, counter, content⟩ none ⟨e.target, 0, G.count e counter, content⟩

/-- Steps one after the other, with the uses that they make, the latest first. -/
inductive Steps (s : Situation g) : List Event → Situation g → Prop
  | refl : Steps s [] s
  | tail {es : List Event} {o : Option Event} {t u : Situation g} :
    Steps s es t → Step G table t o u → Steps s (o.toList ++ es) u

/-- The moment before the first access of the program. -/
structure Situation.Initial (s : Situation g) : Prop where
  block : s.block = G.entry
  served : s.served = 0
  counter : s.counter = fun _ => 0
  admits : G.Admits G.entry s.counter

/-- What holds at every moment of a run. -/
structure Situation.Valid (s : Situation g) : Prop where
  reaches : G.graph.Reaches G.entry s.block
  served_le : s.served ≤ (table.block s.block).length
  admits : ∀ h, G.loops.Inside h s.block → G.Admits h s.counter

variable {G table} {s t : Situation g} {o : Option Event} {es : List Event}

theorem FlowGraph.count_of_ne {e : Edge Crossing} {counter : Nat → Nat} {h : Nat}
    (hne : h ≠ e.target) : G.count e counter h = counter h :=
  Function.update_of_ne hne ..

theorem Situation.Initial.valid (B : G.Built) (h : s.Initial G) : s.Valid G table where
  reaches := h.block ▸ .refl
  served_le := h.served ▸ Nat.zero_le _
  admits k hk := by
    rw [h.block] at hk
    exact B.eq_entry_of_inside hk ▸ h.admits

theorem Situation.Valid.step (B : G.Built) (V : s.Valid G table) (h : Step G table s o t) :
    t.Valid G table := by
  cases h with
  | serve hget hc ht =>
    exact ⟨V.reaches, Nat.succ_le_of_lt (List.getElem?_eq_some_iff.mp hget).1, V.admits⟩
  | bypass hget hc =>
    exact ⟨V.reaches, Nat.succ_le_of_lt (List.getElem?_eq_some_iff.mp hget).1, V.admits⟩
  | @follow k e counter content hk he hcomplete hadmits =>
    refine ⟨V.reaches.step ⟨e, he, rfl, rfl⟩, Nat.zero_le _, fun h hin => ?_⟩
    by_cases hne : h = e.target
    · exact hne ▸ hadmits
    · have hs : G.loops.Inside h e.source := by
        by_contra hs
        exact hne (B.eq_target_of_inside he hin hs)
      intro n hn
      change G.count e counter h < n
      rw [FlowGraph.count_of_ne hne]
      exact V.admits h hs n hn

/-- What every step keeps, a run keeps. -/
theorem Steps.induction {P : List Event → Situation g → Prop} (h : Steps G table s es t)
    (hs : P [] s) (hstep : ∀ es o u v, Steps G table s es u → P es u → Step G table u o v →
      P (o.toList ++ es) v) : P es t := by
  induction h with
  | refl => exact hs
  | tail h hstep' ih => exact hstep _ _ _ _ h ih hstep'

theorem Steps.valid (B : G.Built) (h : Steps G table s es t) (V : s.Valid G table) :
    t.Valid G table :=
  h.induction (P := fun _ t => t.Valid G table) V fun _ _ _ _ _ V h => V.step B h

theorem Steps.trans {u : Situation g} {es' : List Event} (h : Steps G table s es t)
    (h' : Steps G table t es' u) : Steps G table s (es' ++ es) u := by
  induction h' with
  | refl => exact h
  | tail _ hstep ih => exact List.append_assoc .. ▸ ih.tail hstep

end

end MissBound
