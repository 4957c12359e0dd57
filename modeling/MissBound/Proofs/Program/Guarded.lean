import MissBound.Proofs.Machine.Access
import MissBound.Proofs.Machine.Runs
import MissBound.Proofs.Program.Crossing

/-!
Runs of programs with conditional operations. A guard whose condition fails skips the operations
after it, loads and stores included, so that a run performs only some of the memory operations of
the blocks that it visits.
-/

namespace MissBound

namespace MicroOp

variable {op : MicroOp} {ops : List MicroOp} {flags : List Bool} {cond : Register} {n : Nat}

/-- Which of the memory operations of an instruction are performed in some run of it. -/
def Performs (ops : List MicroOp) (flags : List Bool) : Prop :=
  ∃ x log y, FreeRuns ops x log y ∧ log.map Option.isSome = flags

/-- Nothing that a machine holds keeps it from running on. -/
theorem Runs.replay {x y : Machine} {log : List (Option Nat)} (h : FreeRuns ops x log y)
    (x' : Machine) :
    ∃ log' y', FreeRuns ops x' log' y' ∧ log'.map Option.isSome = log.map Option.isSome := by
  induction h generalizing x' with
  | done => exact ⟨_, _, .done, rfl⟩
  | @next op _ x _ _ _ heff _ ih =>
    obtain ⟨y', heff'⟩ := exists_effect op x'
    obtain ⟨log', z', hrun, hlog⟩ := ih y'
    refine ⟨_, z', .next heff' hrun, ?_⟩
    have hrecord : (op.record x').map Option.isSome = (op.record x).map Option.isSome := by
      cases op <;> rfl
    rw [List.map_append, List.map_append, hrecord, hlog]
  | skip _ _ ih =>
    obtain ⟨log', y', hrun, hlog⟩ := ih x'
    refine ⟨_, y', .skip trivial hrun, ?_⟩
    rw [List.map_append, List.map_append, hlog]
  | stop => exact ⟨_, x', .stop trivial, rfl⟩

theorem map_isSome_omitted :
    (omitted ops).map Option.isSome = List.replicate (ops.countP isMemory) false :=
  List.map_replicate

namespace Performs

theorem length_eq (h : Performs ops flags) : flags.length = ops.countP isMemory := by
  obtain ⟨x, log, y, hrun, rfl⟩ := h
  rw [List.length_map, hrun.length_eq]

theorem done : Performs [] [] := ⟨⟨fun _ => 0, fun _ => 0, fun _ => 4⟩, [], _, .done, rfl⟩

/-- An operation that is performed. -/
theorem next (op : MicroOp) (h : Performs ops flags) :
    Performs (op :: ops) (List.replicate (if op.isMemory then 1 else 0) true ++ flags) := by
  obtain ⟨x, log, y, hrun, rfl⟩ := h
  obtain ⟨x', heff⟩ := exists_effect op x
  obtain ⟨log', y', hrun', hlog⟩ := hrun.replay x'
  refine ⟨x, _, y', .next heff hrun', ?_⟩
  rw [List.map_append, hlog]
  cases op <;> rfl

theorem memory (hop : op.isMemory = true) (h : Performs ops flags) :
    Performs (op :: ops) (true :: flags) := by
  have hnext := h.next op
  rwa [if_pos hop] at hnext

/-- Any other operation, a guard whose condition holds included. -/
theorem other (hop : op.isMemory = false) (h : Performs ops flags) :
    Performs (op :: ops) flags := by
  have hnext := h.next op
  rwa [hop] at hnext

/-- A guard whose condition fails. -/
theorem skip (h : Performs (ops.drop n) flags) : Performs (.guarded cond n :: ops)
    (List.replicate ((ops.take n).countP isMemory) false ++ flags) := by
  obtain ⟨x, log, y, hrun, rfl⟩ := h
  refine ⟨x, _, y, .skip trivial hrun, ?_⟩
  rw [List.map_append, map_isSome_omitted]

end Performs

end MicroOp

/-- Which of the memory operations of some instructions are performed. -/
inductive Instruction.Performs : List Instruction → List Bool → Prop
  | done : Performs [] []
  | next {i : Instruction} {rest : List Instruction} {done later : List Bool} :
    MicroOp.Performs i.ops done → Performs rest later → Performs (i :: rest) (done ++ later)

theorem Instruction.Performs.single {i : Instruction} {done : List Bool}
    (h : MicroOp.Performs i.ops done) : Instruction.Performs [i] done :=
  List.append_nil done ▸ .next h .done

theorem Instruction.Performs.length_eq {is : List Instruction} {done : List Bool}
    (h : Instruction.Performs is done) :
    done.length = (is.map fun i => i.ops.countP MicroOp.isMemory).sum := by
  induction h with
  | done => rfl
  | next hi _ ih => rw [List.length_append, hi.length_eq, ih, List.map_cons, List.sum_cons]

/-- A visit of a block, with which of its memory operations are performed. -/
structure Visit where
  block : Nat
  done : List Bool

/-- The blocks visited by a run from the entry on. -/
structure Route (G : FlowGraph) (visits : List Visit) : Prop where
  entry : ∀ v ∈ visits.head?, v.block = G.entry
  follows : visits.IsChain fun u v => G.graph.Adjacent u.block v.block
  performs : ∀ v ∈ visits, ∃ code, G.block? v.block = some code ∧
    Instruction.Performs code.instructions v.done

theorem Route.reaches {G : FlowGraph} {visits : List Visit} (h : Route G visits) :
    ∀ v ∈ visits, G.graph.Reaches G.entry v.block := by
  refine List.IsChain.induction _ visits h.follows (fun u v huv hu => hu.step huv) fun hne => ?_
  rw [h.entry _ (List.head?_eq_some_head hne)]
  exact .refl

namespace Route

variable {G : FlowGraph} {vs vs' : List Visit} {v : Visit} (h : Route G (vs ++ v :: vs'))
include h

/-- The blocks up to a visit form a path. -/
theorem isChain_blocks : (vs.map (·.block) ++ [v.block]).IsChain G.graph.Adjacent := by
  have hfollows := h.follows
  rw [List.append_cons] at hfollows
  rw [← List.map_singleton, ← List.map_append, List.isChain_map]
  exact hfollows.left_of_append

theorem head?_blocks : (vs.map (·.block) ++ [v.block]).head? = some G.entry := by
  have hentry := h.entry
  cases vs with
  | nil => exact congrArg some (hentry v rfl)
  | cons u vs => exact congrArg some (hentry u rfl)

end Route

/-- No walk leads back to where it started. -/
def Digraph.Acyclic {α β : Type} (g : Digraph α β) : Prop :=
  ∀ e ∈ g.edges, ¬g.Reaches e.target e.source

namespace FlowGraph.Built

variable {G : FlowGraph} {h b : Nat} (B : G.Built) (hacyclic : G.graph.Acyclic)
include B hacyclic

theorem not_inside_of_acyclic : ¬G.loops.Inside h b := by
  intro hin
  obtain ⟨l, hl, -, -⟩ := B.loops.inside_iff.mp hin
  have hdetect := List.mem_map_of_mem (f := (·.toNaturalLoop)) hl
  rw [B.loops.natural] at hdetect
  obtain ⟨n, ⟨e, he, hsource, htarget⟩, ⟨w, hw⟩, hdom⟩ :=
    NaturalLoop.exists_latch B.closed B.entry_lt hdetect
  obtain ⟨v, hv, -, -⟩ := hw.since (hdom w hw)
  exact hacyclic e he ⟨v, hsource ▸ htarget ▸ hv⟩

end FlowGraph.Built

end MissBound
