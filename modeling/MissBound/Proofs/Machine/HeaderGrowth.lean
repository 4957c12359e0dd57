import MissBound.Proofs.Machine.Resolution
import MissBound.Proofs.Symbolic.Semilattice

/-!
The inputs of a loop header from visit to visit. Whatever arrives, also if it is less than before,
the next input lies above the last one, register by register and cell by cell; so each of them
changes only as often as a value can gain terms, and once more to become unknown.
-/

namespace MissBound

/-- How often a value differs from the one before it. -/
def changes {α : Type} [DecidableEq α] (l : List α) : Nat :=
  (l.zip l.tail).countP fun p => p.1 ≠ p.2

section
variable {α : Type} [DecidableEq α] {m : α → Nat} {a b : α} {l : List α}

theorem changes_cons_cons : changes (a :: b :: l) = changes (b :: l) + if a ≠ b then 1 else 0 := by
  simp [changes, List.countP_cons]

/-- Where each change lowers a measure, it bounds how many there are. -/
theorem changes_le (h : (a :: l).IsChain (Lowers m)) : changes (a :: l) ≤ m a := by
  induction l generalizing a with
  | nil => exact Nat.zero_le _
  | cons b l ih =>
    obtain ⟨hab, h⟩ := List.isChain_cons_cons.mp h
    have hle := ih h
    rw [changes_cons_cons]
    rcases hab with rfl | hlt
    · simpa using hle
    · split <;> omega

end

namespace Symbolic

variable {L : LoopForest} {P : Nat → Prop} {v w : Symbolic} {l : List Symbolic}

theorem Below.join_eq (hv : v.Proper L P) (hw : w.Proper L P) (h : v.Below w) : v.join L w = w :=
  (h.join hv hw hw hw.below_self).antisymm (proper_join hv hw) hw (below_join hv hw)

theorem slack_le : v.slack ≤ maxTerms + 1 := by
  cases v with
  | affine => exact Nat.sub_le ..
  | _ => exact Nat.zero_le _

/-- A value that only grows does so once for each term that it can gain, and once to become
unknown. -/
theorem changes_le_of_below (hproper : ∀ v ∈ l, v.Proper L P) (h : l.IsChain Below) :
    changes l ≤ maxTerms + 1 := by
  cases l with
  | nil => exact Nat.zero_le _
  | cons v l =>
    refine Nat.le_trans (changes_le (m := slack) ?_) slack_le
    exact h.imp_of_mem_imp fun v w hv hw hvw => hvw.lowers (hproper v hv) (hproper w hw)

end Symbolic

namespace State

variable {L : LoopForest} {P : Nat → Prop} {s t u : State}

/-- Every register and every cell of the second state lies above that of the first. -/
structure Below (s t : State) : Prop where
  register (r : Register) : (s.register r).Below (t.register r)
  cell (k : Nat) : (s.memory.cells.get k).Below (t.memory.cells.get k)

theorem Proper.cell (hs : s.Proper L P) {k : Nat} : (s.memory.cells.get k).Proper L P :=
  Facts.Proper.get hs.memory

theorem Proper.below_self (hs : s.Proper L P) : s.Below s :=
  ⟨fun _ => hs.register.below_self, fun _ => hs.cell.below_self⟩

theorem Below.trans (h₁ : s.Below t) (h₂ : t.Below u) : s.Below u :=
  ⟨fun r => (h₁.register r).trans (h₂.register r), fun k => (h₁.cell k).trans (h₂.cell k)⟩

theorem Proper.below_widen {h : Nat} (hs : s.Proper L P) (ht : t.Proper L P) (hP : P h) :
    s.Below (s.combine (Symbolic.widen L h) t) :=
  ⟨hs.registers.below_widen ht.registers hP, Facts.Proper.below_widen hs.memory ht.memory hP⟩

theorem Proper.below_join (hs : s.Proper L P) (ht : t.Proper L P) :
    t.Below (s.combine (Symbolic.join L) t) :=
  ⟨hs.registers.below_join ht.registers, Facts.Proper.below_join hs.memory ht.memory⟩

end State

namespace Resolution

variable {G : FlowGraph} {h : Nat} {P : Nat → Prop} {previous : Option State}
  {arrivals : List (Arrival (Option State))} {calls : List (List (Arrival (Option State)))}

/-- A header that has been reached stays so, and its next state lies above. -/
def Grows (a b : Option State) : Prop := ∀ s ∈ a, ∃ t ∈ b, s.Below t

section
variable (hh : G.loops.isHeader h = true) (hP : P h) (hprev : Scoped G.loops P previous)
include hP hprev

theorem scoped_input (harrivals : ∀ a ∈ arrivals, Scoped G.loops P a.state) :
    Scoped G.loops P (input G h previous arrivals) :=
  every_input (fun _ _ hs ht => hs.join ht) (fun _ _ _ hs ht =>
    ⟨hs.combine ht fun _ _ => Symbolic.proper_join,
      hs.combine ht fun _ _ => Symbolic.proper_widen hP⟩)
    hprev harrivals

include hh

theorem grows_input (harrivals : ∀ a ∈ arrivals, Scoped G.loops P a.state) :
    Grows previous (input G h previous arrivals) := by
  rintro s ⟨⟩
  obtain ⟨t, ht, -, hbelow⟩ := rises_input (R := State.Below) hh (fun _ hs => hs.below_self)
    (fun _ _ _ => .trans) (fun _ _ hs ht => hs.join ht)
    (fun _ _ hs ht => ⟨hs.combine ht fun _ _ => Symbolic.proper_widen hP, hs.below_widen ht hP⟩)
    (fun _ _ hs ht => ⟨hs.combine ht fun _ _ => Symbolic.proper_join, hs.below_join ht⟩)
    (hprev s rfl) harrivals
  exact ⟨t, ht, hbelow⟩

theorem isChain_inputs (hcalls : ∀ arrivals ∈ calls, ∀ a ∈ arrivals, Scoped G.loops P a.state) :
    (calls.scanl (input G h) previous).IsChain Grows ∧
      ∀ a ∈ calls.scanl (input G h) previous, Scoped G.loops P a := by
  induction calls generalizing previous with
  | nil => exact ⟨.singleton _, by simpa using hprev⟩
  | cons arrivals calls ih =>
    obtain ⟨harrivals, hcalls⟩ := List.forall_mem_cons.mp hcalls
    obtain ⟨hchain, hscoped⟩ := ih (scoped_input hP hprev harrivals) hcalls
    rw [List.scanl_cons]
    refine ⟨List.isChain_cons.mpr ⟨?_, hchain⟩, List.forall_mem_cons.mpr ⟨hprev, hscoped⟩⟩
    rw [List.head?_scanl]
    rintro _ ⟨⟩
    exact grows_input hh hP hprev harrivals

end

/-- The states of a header, from the first one on, lie one above the other. -/
theorem isChain_reduceOption {inputs : List (Option State)} (hchain : inputs.IsChain Grows) :
    inputs.reduceOption.IsChain State.Below := by
  induction inputs with
  | nil => exact .nil
  | cons a inputs ih =>
    obtain ⟨hhead, htail⟩ := List.isChain_cons.mp hchain
    cases a with
    | none => exact ih htail
    | some s =>
      rw [List.reduceOption_cons_of_some]
      refine List.isChain_cons.mpr ⟨?_, ih htail⟩
      cases inputs with
      | nil => rintro _ ⟨⟩
      | cons b inputs =>
        obtain ⟨t, rfl, hbelow⟩ := hhead b rfl s rfl
        rintro _ ⟨⟩
        exact hbelow

/-- However the states that arrive at a loop header change from visit to visit, what its input knows
of a register or a cell only grows, and changes at most `maxTerms + 1` times once the header is
reached. -/
theorem header_inputs_grow (hh : G.loops.isHeader h = true)
    (hcalls : ∀ arrivals ∈ calls, ∀ a ∈ arrivals,
      Every (State.Proper G.loops fun _ => True) a.state) :
    let inputs := calls.scanl (input G h) none
    (inputs.IsChain fun a b => ∀ s ∈ a, ∃ t ∈ b,
      (∀ r, (s.register r).join G.loops (t.register r) = t.register r) ∧
      ∀ k, ((s.memory.get? k).getD .top).join G.loops ((t.memory.get? k).getD .top) =
        (t.memory.get? k).getD .top) ∧
    (∀ r, changes (inputs.reduceOption.map fun s => s.register r) ≤ maxTerms + 1) ∧
    ∀ k, changes (inputs.reduceOption.map fun s => (s.memory.get? k).getD .top) ≤ maxTerms + 1 := by
  intro inputs
  obtain ⟨hchain, hscoped⟩ := isChain_inputs (P := fun _ => True) hh trivial every_none hcalls
  have hproper : ∀ s ∈ inputs.reduceOption, s.Proper G.loops fun _ => True := fun s hs =>
    hscoped _ (List.reduceOption_mem_iff.mp hs) s rfl
  have hstates := isChain_reduceOption hchain
  refine ⟨hchain.imp_of_mem_imp fun a b ha hb hab s hs => ?_, fun r => ?_, fun k => ?_⟩
  · obtain ⟨t, ht, hbelow⟩ := hab s hs
    have hsproper := hscoped a ha s hs
    have htproper := hscoped b hb t ht
    exact ⟨t, ht, fun r => (hbelow.register r).join_eq hsproper.register htproper.register,
      fun k => (hbelow.cell k).join_eq hsproper.cell htproper.cell⟩
  · refine Symbolic.changes_le_of_below (List.forall_mem_map.mpr fun s hs =>
      (hproper s hs).register) ?_
    exact (List.isChain_map _).mpr (hstates.imp fun _ _ h => h.register r)
  · refine Symbolic.changes_le_of_below (List.forall_mem_map.mpr fun s hs => (hproper s hs).cell) ?_
    exact (List.isChain_map _).mpr (hstates.imp fun _ _ h => h.cell k)

/-- Seven loops of one block each, one after the other. -/
def rowGraph : FlowGraph where
  graph := ⟨(List.range 8).map fun n => ⟨4 * n, []⟩, (List.range' 1 7).flatMap fun n =>
    [⟨n - 1, n, ⟨false, if n = 1 then [] else [n - 1], true⟩⟩, ⟨n, n, ⟨true, [], false⟩⟩]⟩
  entry := 0
  dominators := ⟨0, (List.range 8).map fun n => some (n - 1), List.range 8⟩
  loops := Symbolic.loopRow

/-- A state that knows one register and one cell. -/
def knowing (e : Affine) : State :=
  ⟨Facts.empty.set (.machine 2) (.affine e), Memory.empty.store 256 (.affine e)⟩

theorem proper_knowing {L : LoopForest} {e : Affine} (he : e.Proper L P) : (knowing e).Proper L P :=
  ⟨Facts.proper_empty.set (.affine he), Memory.proper_empty.store (.affine he)⟩

/-- What enters the last loop and what comes back to it, visit by visit. It is not reached at first;
then it comes back one stride ahead, is entered with more and more counters, with fewer again, and
in the end with another constant. -/
def rowValues : List (Option Affine × Option Affine) :=
  [(none, none), (some ⟨[], 0⟩, none), (some ⟨[], 0⟩, some ⟨[], 4⟩)] ++
  (List.range' 1 6).map (fun n => (some (Symbolic.counterSum n), none)) ++
  [(some (Symbolic.counterSum 2), none), (some ⟨[], 8⟩, none)]

def rowCalls : List (List (Arrival (Option State))) := rowValues.map fun p =>
  [⟨some ⟨6, 7, ⟨false, [6], true⟩⟩, p.1.map knowing⟩,
    ⟨some ⟨7, 7, ⟨true, [], false⟩⟩, p.2.map knowing⟩]

theorem every_rowCalls : ∀ arrivals ∈ rowCalls, ∀ a ∈ arrivals,
    Every (State.Proper rowGraph.loops fun _ => True) a.state := by
  have hvalues : ∀ p ∈ rowValues, (∀ e ∈ p.1, e.Proper rowGraph.loops fun _ => True) ∧
      ∀ e ∈ p.2, e.Proper rowGraph.loops fun _ => True := by decide +kernel
  refine List.forall_mem_map.mpr fun p hp => ?_
  obtain ⟨hentering, hback⟩ := hvalues p hp
  rw [List.forall_mem_cons, List.forall_mem_singleton]
  constructor
  · intro s hs
    obtain ⟨e, he, rfl⟩ := Option.map_eq_some_iff.mp hs
    exact proper_knowing (hentering e he)
  · intro s hs
    obtain ⟨e, he, rfl⟩ := Option.map_eq_some_iff.mp hs
    exact proper_knowing (hback e he)

/-- The last of seven loops takes all the changes that it can. -/
theorem header_inputs_grow_row :
    FlowGraph.build ((List.range 8).map fun n => ⟨4 * n, []⟩)
      ((List.range' 1 7).flatMap fun n => [(n - 1, n), (n, n)]) [] 0 = .ok rowGraph ∧
    rowGraph.loops.isHeader 7 = true ∧
    (∀ arrivals ∈ rowCalls, ∀ a ∈ arrivals,
      Every (State.Proper rowGraph.loops fun _ => True) a.state) ∧
    let states := (rowCalls.scanl (input rowGraph 7) none).reduceOption
    (changes (states.map fun s => s.register (.machine 2)) = maxTerms + 1 ∧
      changes (states.map fun s => (s.memory.get? 256).getD .top) = maxTerms + 1) ∧
    (∀ r, changes (states.map fun s => s.register r) ≤ maxTerms + 1) ∧
    ∀ k, changes (states.map fun s => (s.memory.get? k).getD .top) ≤ maxTerms + 1 := by
  have hh : rowGraph.loops.isHeader 7 = true := rfl
  obtain ⟨-, hregisters, hcells⟩ := header_inputs_grow hh every_rowCalls
  exact ⟨rfl, hh, every_rowCalls, by decide +kernel, hregisters, hcells⟩

end Resolution

end MissBound
