import MissBound.Proofs.Machine.Fidelity
import MissBound.Proofs.Machine.HeaderValue
import MissBound.Proofs.Program.Guarded

/-!
Whole runs of programs, with registers and memory. In a program without loops whose accesses agree
with a layout, the resolved input of every block describes the machines that enter the block, and
the accesses that a run performs go where they are resolved to go.
-/

namespace MissBound

/-- A visit of a block by a running program. -/
structure Passage where
  block : Nat
  before : Machine
  log : List (Option Nat)
  after : Machine

/-- Which of the memory operations are performed. -/
def Passage.visit (p : Passage) : Visit := ⟨p.block, p.log.map Option.isSome⟩

/-- The passages of a run from the start of the program on. -/
structure Journey (G : FlowGraph) (boot : Boot) (base : UInt32) (tour : List Passage) : Prop where
  entry : ∀ p ∈ tour.head?, p.block = G.entry ∧ boot.Starts base p.before
  follows : tour.IsChain fun p q => G.graph.Adjacent p.block q.block ∧ p.after = q.before
  runs : ∀ p ∈ tour, ∃ code, G.block? p.block = some code ∧
    Instruction.Runs code.instructions p.before p.log p.after

theorem Instruction.Runs.performs {is : List Instruction} {x y : Machine} {log : List (Option Nat)}
    (h : Instruction.Runs is x log y) : Instruction.Performs is (log.map Option.isSome) := by
  induction h with
  | done => exact .done
  | next hi _ _ ih =>
    rw [List.map_append]
    exact .next ⟨_, _, _, hi, rfl⟩ ih

namespace Journey

variable {G : FlowGraph} {boot : Boot} {base : UInt32} {tour : List Passage}

/-- A run that begins in the block of the entry and has not left it yet. -/
theorem single {code : Block} {x y : Machine} {log : List (Option Nat)}
    (hcode : G.block? G.entry = some code) (hx : boot.Starts base x)
    (hrun : Instruction.Runs code.instructions x log y) :
    Journey G boot base [⟨G.entry, x, log, y⟩] where
  entry p hp := by
    cases hp
    exact ⟨rfl, hx⟩
  follows := .singleton _
  runs := List.forall_mem_singleton.mpr ⟨code, hcode, hrun⟩

theorem route (h : Journey G boot base tour) : Route G (tour.map Passage.visit) where
  entry v hv := by
    rw [List.head?_map] at hv
    obtain ⟨p, hp, rfl⟩ := Option.map_eq_some_iff.mp hv
    exact (h.entry p hp).1
  follows := List.isChain_map _ |>.mpr (h.follows.imp fun _ _ hpq => hpq.1)
  performs v hv := by
    obtain ⟨p, hp, rfl⟩ := List.mem_map.mp hv
    obtain ⟨code, hcode, hrun⟩ := h.runs p hp
    exact ⟨code, hcode, hrun.performs⟩

end Journey

namespace Resolution

variable {G : FlowGraph} {boot : Boot} {limits : Limits} {p : Progress (Option State)} {b : Nat}
  {s t : State} {K : Layout} {x : Machine}

/-- A state, if there is one, describes a machine. -/
def Sees (K : Layout) (image : List Segment) (x : Machine) (s : Option State) : Prop :=
  ∃ t ∈ s, K.Models image t x

section
variable {L : LoopForest} {image : List Segment} {a b : Option State}

theorem not_sees_none : ¬Sees K image x none := by
  rintro ⟨t, ht, -⟩
  cases ht

theorem Sees.join (ha : Scoped L (fun _ => False) a) (hb : Scoped L (fun _ => False) b)
    (h : Sees K image x a ∨ Sees K image x b) : Sees K image x (joinStates L a b) := by
  cases a with
  | none => exact h.resolve_left not_sees_none
  | some s =>
    cases b with
    | none => exact h.resolve_right not_sees_none
    | some t =>
      refine ⟨_, rfl, ?_⟩
      rcases h with ⟨_, ⟨⟩, hmodels⟩ | ⟨_, ⟨⟩, hmodels⟩
      · exact hmodels.join_left (ha s rfl) (hb t rfl)
      · exact hmodels.join_right (ha s rfl) (hb t rfl)

theorem Sees.joinAll {arrivals : List (Arrival (Option State))}
    (hscoped : ∀ a ∈ arrivals, Scoped L (fun _ => False) a.state)
    (h : ∃ a ∈ arrivals, Sees K image x a.state) :
    Sees K image x (Analysis.joinAll none (joinStates L) arrivals) := by
  have hfold : ∀ (as : List (Arrival (Option State))) (s : Option State),
      Scoped L (fun _ => False) s → (∀ a ∈ as, Scoped L (fun _ => False) a.state) →
      (Sees K image x s ∨ ∃ a ∈ as, Sees K image x a.state) →
      Sees K image x (as.foldl (fun acc a => joinStates L acc a.state) s) := by
    intro as
    induction as with
    | nil => exact fun s _ _ h => h.resolve_right (by simp)
    | cons a as ih =>
      intro s hs has h
      obtain ⟨ha, has⟩ := List.forall_mem_cons.mp has
      refine ih _ (scoped_joinStates hs ha) has ?_
      rw [List.exists_mem_cons_iff, ← or_assoc] at h
      exact h.imp_left (Sees.join hs ha)
  exact hfold _ _ every_none hscoped (.inr h)

end

section
variable (B : G.Built) (hacyclic : G.graph.Acyclic) (hp : resolve G boot limits = .ok p)
include B hacyclic

/-- Where nothing repeats, nothing is left. -/
theorem propagate_of_acyclic {e : Edge Crossing} {s : Option State} (he : e ∈ G.graph.edges)
    (hr : G.graph.Reaches G.entry e.source) : propagate G e s = s := by
  have hexited : e.label.exited = [] := List.eq_nil_iff_forall_not_mem.mpr fun h hh =>
    B.not_inside_of_acyclic hacyclic ((B.mem_exited he hr).mp hh).1
  rw [propagate, hexited]
  exact Option.map_id'

/-- The state behind a block arrives at the next one. -/
theorem arrives_of_adjacent {code : Block} {c : Nat} (hr : G.graph.Reaches G.entry b)
    (hadj : G.graph.Adjacent b c) (hcode : G.block? b = some code)
    (hs : p.inputs[b]?.join = some s) : ∃ back, Arrives G boot limits p c back
      ((⟨G.loops, boot, limits.cap⟩ : Interpreter).executeBlock s code).1 := by
  obtain ⟨e, he, rfl, rfl⟩ := hadj
  refine ⟨_, .edge he rfl hr ?_⟩
  rw [propagate_of_acyclic B hacyclic he hr, transfer, hcode, hs]
  rfl

include hp

theorem proper_of_acyclic (hs : p.inputs[b]?.join = some s) :
    s.Proper G.loops fun _ => False := by
  obtain ⟨C, -⟩ := consistent_resolve B hp
  refine (C.inputs b s ?_).mono fun h hin => B.not_inside_of_acyclic hacyclic hin
  rw [inputAt_eq rfl, hs]
  rfl

/-- The input of a block describes every machine that one of the arriving states describes. -/
theorem exists_models_of_arrives {back : Bool} (hr : G.graph.Reaches G.entry b)
    (ht : Arrives G boot limits p b back t) (hmodels : K.Models boot.image t x) :
    ∃ s, p.inputs[b]?.join = some s ∧ K.Models boot.image s x := by
  obtain ⟨C, hq⟩ := consistent_resolve B hp
  obtain ⟨a, ha, -, hstate⟩ := ht.mem_arrivals B hp
  obtain ⟨prev, -, hinput⟩ := (C.solved b (B.mem_order.mpr hr) (hq ▸ List.not_mem_nil)).input
  have hscoped : ∀ a ∈ Progress.arrivals
      (analysis G ⟨G.loops, boot, limits.cap⟩ (.ofBoot boot limits.stackBase)) G p.onEdges b,
      Scoped G.loops (fun _ => False) a.state := fun a ha =>
    (scoped_arrivals State.proper_ofBoot C.edges a ha).mono fun h hin =>
      B.not_inside_of_acyclic hacyclic hin
  have hheader : G.loops.isHeader b = false := by
    rw [← Bool.not_eq_true]
    exact fun hh => B.not_inside_of_acyclic hacyclic (B.loops.inside_self B.closed B.entry_lt hh)
  have hside : ∀ keep : Arrival (Option State) → Bool, ∀ a ∈ (Progress.arrivals
      (analysis G ⟨G.loops, boot, limits.cap⟩ (.ofBoot boot limits.stackBase)) G p.onEdges b).filter
        keep, Scoped G.loops (fun _ => False) a.state :=
    fun _ a ha => hscoped a (List.mem_of_mem_filter ha)
  have hsees : Sees K boot.image x a.state := ⟨t, hstate, hmodels⟩
  rw [inputAt_eq rfl] at hinput
  rw [hinput]
  change Sees K boot.image x (input G b prev _)
  simp only [input, hheader, Bool.false_eq_true, if_false]
  apply Sees.join (scoped_joinAll (hside _)) (scoped_joinAll (hside _))
  cases hback : a.isBack with
  | false =>
    exact .inl (.joinAll (hside _) ⟨a, List.mem_filter.mpr ⟨ha, by rw [hback]; rfl⟩, hsees⟩)
  | true => exact .inr (.joinAll (hside _) ⟨a, List.mem_filter.mpr ⟨ha, hback⟩, hsees⟩)

end

end Resolution

namespace Journey

variable {G : FlowGraph} {boot : Boot} {limits : Limits} {p : Progress (Option State)}
  {tour : List Passage} {K : Layout} (B : G.Built) (hacyclic : G.graph.Acyclic)
  (hp : resolve G boot limits = .ok p)
  (horderly : ∀ code ∈ G.graph.nodes, ∀ i ∈ code.instructions, i.Orderly)
  (hwords : ∀ w ∈ boot.words, K.known w.1)
  (hallows : ∀ b code s, G.block? b = some code → p.inputs[b]?.join = some s →
    ∀ e ∈ ((⟨G.loops, boot, limits.cap⟩ : Interpreter).executeBlock s code).2, K.Allows e)
include B hacyclic hp horderly hallows

/-- A visit, from an input that describes the machine before it. -/
theorem executeBlock (h : Journey G boot limits.stackBase tour) {q : Passage} (hq : q ∈ tour)
    {s : State} (hs : p.inputs[q.block]?.join = some s) (hmodels : K.Models boot.image s q.before) :
    ∃ code, G.block? q.block = some code ∧
      K.Models boot.image
        ((⟨G.loops, boot, limits.cap⟩ : Interpreter).executeBlock s code).1 q.after ∧
      List.Forall₂ MemoryEvent.At
        ((⟨G.loops, boot, limits.cap⟩ : Interpreter).executeBlock s code).2 q.log := by
  obtain ⟨code, hcode, hrun⟩ := h.runs q hq
  refine ⟨code, hcode, ?_⟩
  exact hmodels.executeBlock (I := ⟨G.loops, boot, limits.cap⟩)
    (Resolution.proper_of_acyclic B hacyclic hp hs) (horderly _ (List.mem_of_getElem? hcode))
    (hallows _ _ _ hcode hs) hrun

include hwords

/-- The resolved input of every block describes the machines that enter it. -/
theorem models (h : Journey G boot limits.stackBase tour) : ∀ q ∈ tour,
    ∃ s, p.inputs[q.block]?.join = some s ∧ K.Models boot.image s q.before := by
  have hreaches : ∀ q ∈ tour, G.graph.Reaches G.entry q.block := fun q hq =>
    h.route.reaches _ (List.mem_map_of_mem hq)
  have hfollows := h.follows.imp_of_mem_imp
    (S := fun q r => q ∈ tour ∧ r ∈ tour ∧ G.graph.Adjacent q.block r.block ∧ q.after = r.before)
    fun q r hq hr hqr => ⟨hq, hr, hqr⟩
  refine List.IsChain.induction _ tour hfollows ?_ fun hne => ?_
  · rintro q r ⟨hq, hr, hadj, hafter⟩ ⟨s, hs, hmodels⟩
    obtain ⟨code, hcode, hout, -⟩ := h.executeBlock B hacyclic hp horderly hallows hq hs hmodels
    obtain ⟨back, harrives⟩ :=
      Resolution.arrives_of_adjacent B hacyclic (hreaches q hq) hadj hcode hs
    rw [← hafter]
    exact Resolution.exists_models_of_arrives B hacyclic hp (hreaches r hr) harrives hout
  · obtain ⟨hblock, hstarts⟩ := h.entry _ (List.head?_eq_some_head hne)
    rw [hblock]
    exact Resolution.exists_models_of_arrives B hacyclic hp .refl (.start rfl)
      (Layout.models_ofBoot hstarts hwords)

/-- The accesses that are performed go where the interpreter takes them to go. -/
theorem forall₂_at (h : Journey G boot limits.stackBase tour) {q : Passage} (hq : q ∈ tour) :
    ∃ code s, G.block? q.block = some code ∧ p.inputs[q.block]?.join = some s ∧
      List.Forall₂ MemoryEvent.At
        ((⟨G.loops, boot, limits.cap⟩ : Interpreter).executeBlock s code).2 q.log := by
  obtain ⟨s, hs, hmodels⟩ := h.models B hacyclic hp horderly hwords hallows q hq
  obtain ⟨code, hcode, -, hat⟩ := h.executeBlock B hacyclic hp horderly hallows hq hs hmodels
  exact ⟨code, s, hcode, hs, hat⟩

end Journey

end MissBound
