import MissBound.Proofs.Fixpoint.Termination
import MissBound.Proofs.Machine.HeaderGrowth
import MissBound.Proofs.Machine.Written

/-!
Whether address resolution ends. The input of a loop header only grows, and it can grow only so
often; if every cycle passes a header, the worklist runs dry. In a cycle without a header nothing is
widened, and values may alternate for ever.
-/

namespace MissBound

namespace Memory

variable {n : Nat} {m m' : Memory} {f : Symbolic → Symbolic → Symbolic} {L : LoopForest}
  {P : Nat → Prop}

/-- How far written intervals are from all bytes; a store to an unknown address comes last. -/
def unwritten (n : Nat) : List (Nat × Nat) × Bool → Nat
  | (ws, true) => if ws.isEmpty then 0 else 1
  | (ws, false) => 2 + (n * 2 ^ 32 - extent ws)

/-- The second memory has lost all, or keeps the written bytes of the first. -/
def Grows (m m' : Memory) : Prop :=
  m'.havoc = true ∧ m'.written = [] ∨
    m.havoc = false ∧ m'.havoc = false ∧ Covered m.written m'.written

theorem grows_combine : m.Grows (m.combine f m') ∧ m'.Grows (m.combine f m') := by
  by_cases h : m.havoc = true ∨ m'.havoc = true
  · have hlost : (m.combine f m').havoc = true ∧ (m.combine f m').written = [] := by
      simp [combine, mergeWritten, h]
    exact ⟨.inl hlost, .inl hlost⟩
  · simp only [not_or, Bool.not_eq_true] at h
    obtain ⟨hcovered, hcovered'⟩ := covered_mergeWritten h.1 h.2
    have hkept : (m.combine f m').havoc = false := by simp [combine, h]
    exact ⟨.inr ⟨h.1, hkept, hcovered⟩, .inr ⟨h.2, hkept, hcovered'⟩⟩

theorem Grows.lowers (h : m.Grows m') (hm : Intervals n m.written) (hm' : Intervals n m'.written) :
    Lowers (unwritten n) (m.written, m.havoc) (m'.written, m'.havoc) := by
  rcases h with ⟨hlost, hnil⟩ | ⟨hkept, hkept', hcovered⟩
  · rw [hlost, hnil]
    cases hhavoc : m.havoc with
    | false => exact .inr (by simp [unwritten])
    | true =>
      cases hwritten : m.written with
      | nil => exact .inl rfl
      | cons => exact .inr (by simp [unwritten])
  · rw [hkept, hkept']
    rcases hcovered.eq_or_extent_lt hm.sorted hm'.sorted with heq | hlt
    · exact .inl (by rw [heq])
    · have hle := hm'.extent_le
      refine .inr ?_
      simp only [unwritten]
      omega

/-- How often a memory can still grow. -/
def slack (n : Nat) (m : Memory) : Nat := m.cells.slack + unwritten n (m.written, m.havoc)

theorem Proper.lowers (hm : m.Proper L P) (hm' : m'.Proper L P) (hn : Intervals n m.written)
    (hn' : Intervals n m'.written) (hcells : ∀ k, (m.cells.get k).Below (m'.cells.get k))
    (hgrows : m.Grows m') : Lowers (slack n) m m' := by
  refine ((Facts.Proper.lowers hm hm' hcells).add (hgrows.lowers hn hn')).imp ?_ id
  obtain ⟨cells, written, havoc⟩ := m
  obtain ⟨cells', written', havoc'⟩ := m'
  rintro ⟨hcells, hwritten⟩
  cases hcells
  cases hwritten
  rfl

end Memory

namespace State

variable {n : Nat} {s t : State} {f : Symbolic → Symbolic → Symbolic} {L : LoopForest}
  {P : Nat → Prop}

/-- How often a state can still grow. -/
def slack (n : Nat) (s : State) : Nat := s.registers.slack + s.memory.slack n

/-- A state with proper values whose written bytes start below `n`. -/
structure Bounded (L : LoopForest) (P : Nat → Prop) (n : Nat) (s : State) : Prop where
  proper : s.Proper L P
  ranged : s.Ranged n

theorem Bounded.combine (hs : s.Bounded L P n) (ht : t.Bounded L P n)
    (hf : ∀ v w : Symbolic, v.Proper L P → w.Proper L P → (f v w).Proper L P) :
    (s.combine f t).Bounded L P n :=
  ⟨hs.proper.combine ht.proper hf, hs.ranged.merge ht.ranged⟩

theorem Bounded.lowers (hs : s.Bounded L P n) (ht : t.Bounded L P n) (hbelow : s.Below t)
    (hgrows : s.memory.Grows t.memory) : Lowers (slack n) s t := by
  have hregisters := hs.proper.registers.lowers ht.proper.registers hbelow.register
  have hmemory := hs.proper.memory.lowers ht.proper.memory hs.ranged ht.ranged hbelow.cell hgrows
  refine (hregisters.add hmemory).imp ?_ id
  obtain ⟨registers, memory⟩ := s
  obtain ⟨registers', memory'⟩ := t
  rintro ⟨hregisters, hmemory⟩
  cases hregisters
  cases hmemory
  rfl

section
variable (hs : s.Bounded L P n) (ht : t.Bounded L P n)
include hs ht

/-- Widening goes up from the state before. -/
theorem Bounded.lowers_widen {h : Nat} (hP : P h) :
    Lowers (slack n) s (s.combine (Symbolic.widen L h) t) := by
  have hcombined := hs.combine ht fun _ _ => Symbolic.proper_widen hP
  exact hs.lowers hcombined (hs.proper.below_widen ht.proper hP) Memory.grows_combine.1

/-- A join goes up from its second state. -/
theorem Bounded.lowers_join : Lowers (slack n) t (s.combine (Symbolic.join L) t) := by
  have hcombined := hs.combine ht fun _ _ => Symbolic.proper_join
  exact ht.lowers hcombined (hs.proper.below_join ht.proper) Memory.grows_combine.2

end

end State

namespace Resolution

variable {G : FlowGraph} {boot : Boot} {n : Nat}

/-- The input of a header stays as it is or has less room to grow. -/
theorem lowers_input {P : Nat → Prop} {block : Nat} {s : State}
    {arrivals : List (Arrival (Option State))} (hh : G.loops.isHeader block = true) (hP : P block)
    (hs : s.Bounded G.loops P n)
    (harrivals : ∀ a ∈ arrivals, Every (State.Bounded G.loops P n) a.state) :
    ∃ t, input G block (some s) arrivals = some t ∧ Lowers (State.slack n) s t := by
  obtain ⟨t, ht, -, hlowers⟩ := rises_input hh (fun _ _ => .inl rfl) (fun _ _ _ => .trans)
    (fun _ _ hs ht => ⟨hs.proper.join ht.proper, hs.ranged.join ht.ranged⟩)
    (fun _ _ hs ht => ⟨hs.combine ht fun _ _ => Symbolic.proper_widen hP, hs.lowers_widen ht hP⟩)
    (fun _ _ hs ht => ⟨hs.combine ht fun _ _ => Symbolic.proper_join, hs.lowers_join ht⟩) hs
    harrivals
  exact ⟨t, ht, hlowers⟩

/-- How far an input is from its limit; one that is not reached is furthest. -/
def slack (n : Nat) : Option State → ℕ ×ₗ ℕ
  | none => toLex (1, 0)
  | some s => toLex (0, s.slack n)

theorem descends (I : Interpreter) (base : UInt32) (B : G.Built) (hI : I.loops = G.loops)
    (hn : Limited G boot n) :
    Progress.Descends (analysis G I (.ofBoot boot base)) G (fun b => G.loops.isHeader b = true)
      (slack n)
      (fun b s => Scoped G.loops (G.loops.Inside · b) s ∧ Every (State.Ranged n) s)
      (fun e s => Scoped G.loops (fun h => G.loops.Inside h e.source ∧
        G.loops.Inside h e.target) s ∧ Every (State.Ranged n) s) where
  keeps := (keeps_scoped B hI State.proper_ofBoot).and (keeps_ranged hn)
  equal _ _ := beq_iff_eq
  bottom e := by
    change propagate G e (transfer G I e.source none) = none
    simp only [transfer, propagate]
    split <;> rfl
  input b hb hh prev onEdges hprev hedges hne := by
    have hself := B.loops.inside_self B.closed B.entry_lt hh
    have harrivals : ∀ a ∈ Progress.arrivals (analysis G I (.ofBoot boot base)) G onEdges b,
        Every (State.Bounded G.loops (G.loops.Inside · b) n) a.state := by
      refine every_arrivals (fun _ => ⟨State.proper_ofBoot, ranged_ofBoot hn⟩) fun e i hget ht => ?_
      obtain ⟨hscoped, hranged⟩ := hedges e i hget
      exact fun t hmem => ⟨(hscoped t hmem).mono fun _ h => ht ▸ h.2, hranged t hmem⟩
    cases prev with
    | none =>
      obtain ⟨t, ht⟩ := Option.ne_none_iff_exists'.mp hne
      rw [ht]
      exact Prod.Lex.toLex_lt_toLex.mpr (.inl Nat.one_pos)
    | some s =>
      obtain ⟨t, ht, hlowers⟩ := lowers_input (P := (G.loops.Inside · b)) hh hself
        ⟨hprev.1 s rfl, hprev.2 s rfl⟩ harrivals
      have ht : (analysis G I (.ofBoot boot base)).input b (some s) _ = some t := ht
      rw [ht] at hne ⊢
      rcases hlowers with rfl | hlt
      · exact absurd rfl hne
      · exact Prod.Lex.toLex_lt_toLex.mpr (.inr ⟨rfl, hlt⟩)

/-- If every cycle of a program passes a loop header, its addresses are resolved with some number of
visits and with any larger one, whatever is known at the start. -/
theorem resolve_converges {blocks : List Block} {edges : List (Nat × Nat)}
    {bounds : List (Nat × LoopBound)} {entry : Nat} {G : FlowGraph}
    (hG : FlowGraph.build blocks edges bounds entry = .ok G)
    (hcut : G.graph.Cuts G.entry fun b => G.loops.isHeader b = true) (boot : Boot) (cap : Nat)
    (stackBase : UInt32) :
    ∃ n p, ∀ maxVisits, n ≤ maxVisits → resolve G boot ⟨cap, maxVisits, stackBase⟩ = .ok p := by
  have B := FlowGraph.built_of_build hG
  obtain ⟨n, hn⟩ := exists_limited G boot
  exact (descends ⟨G.loops, boot, cap⟩ stackBase B rfl hn).exists_solve B hcut

/-- A pointer moves on by four each time around and its last position is kept; the second block
takes the difference of that position and its last result. -/
def detourBlocks : List Block :=
  [⟨0, [⟨0, [.literal (.machine 0) 0, .move (.machine 2) (.machine 1), .literal (.temporary 0) 4,
      .binary .add (.machine 1) (.machine 1) (.temporary 0)], none⟩]⟩,
    ⟨16, [⟨16, [.binary .sub (.machine 0) (.machine 2) (.machine 0)], none⟩]⟩, ⟨32, []⟩]

/-- The second and the third block form a cycle that is entered at both, with a loop of the second
block alone. -/
def detourGraph : FlowGraph where
  graph := ⟨detourBlocks, [⟨0, 1, ⟨false, [], true⟩⟩, ⟨0, 2, ⟨false, [], false⟩⟩,
    ⟨1, 1, ⟨true, [], false⟩⟩, ⟨1, 2, ⟨false, [1], false⟩⟩, ⟨2, 1, ⟨false, [], true⟩⟩,
    ⟨2, 0, ⟨true, [], false⟩⟩]⟩
  entry := 0
  dominators := ⟨0, [some 0, some 0, some 0], [0, 1, 1]⟩
  loops :=
    ⟨[⟨⟨0, [2], [0, 1, 2]⟩, 0, none, [1], .unknown⟩, ⟨⟨1, [1], [1]⟩, 1, some 0, [], .unknown⟩],
    [0, 1, 1]⟩

def detourBoot : Boot := ⟨.machine 13, [(.machine 1, 0)], [], []⟩

/-- A cycle with two entries does no harm if it has a loop header. -/
theorem resolve_converges_detour :
    FlowGraph.build detourBlocks [(0, 1), (0, 2), (1, 1), (1, 2), (2, 1), (2, 0)] [] 0 =
      .ok detourGraph ∧
    (detourGraph.graph.Cuts 0 fun b => detourGraph.loops.isHeader b = true) ∧
    ∃ n p, ∀ maxVisits, n ≤ maxVisits →
      resolve detourGraph detourBoot ⟨1000, maxVisits, 0x80000000⟩ = .ok p := by
  have hG : FlowGraph.build detourBlocks [(0, 1), (0, 2), (1, 1), (1, 2), (2, 1), (2, 0)] [] 0 =
      .ok detourGraph := rfl
  have hcut : detourGraph.graph.Cuts 0 fun b => detourGraph.loops.isHeader b = true :=
    Digraph.cuts_of_rank id (by decide)
  exact ⟨hG, hcut, resolve_converges hG hcut detourBoot 1000 0x80000000⟩

/-- The same without the loop of the second block. -/
def swingGraph : FlowGraph where
  graph := ⟨detourBlocks, [⟨0, 1, ⟨false, [], false⟩⟩, ⟨0, 2, ⟨false, [], false⟩⟩,
    ⟨1, 2, ⟨false, [], false⟩⟩, ⟨2, 1, ⟨false, [], false⟩⟩, ⟨2, 0, ⟨true, [], false⟩⟩]⟩
  entry := 0
  dominators := ⟨0, [some 0, some 0, some 0], [0, 1, 1]⟩
  loops := ⟨[⟨⟨0, [2], [0, 1, 2]⟩, 0, none, [], .unknown⟩], [0, 1, 1]⟩

def swingAnalysis : Analysis (Option State) :=
  analysis swingGraph ⟨swingGraph.loops, detourBoot, 1000⟩ (.ofBoot detourBoot 0x80000000)

/-- What is known behind the first block, `v` being the difference. -/
def swinging (v : Affine) : State :=
  ⟨⟨[(.machine 0, .affine v), (.machine 1, .affine ⟨[⟨4, 0⟩], 4⟩),
    (.machine 2, .affine ⟨[⟨4, 0⟩], 0⟩), (.machine 13, .const 0x80000000)]⟩, .empty⟩

/-- The progress after seven visits, and again after every six more. -/
def swingProgress : Progress (Option State) where
  inputs :=
    [some ⟨⟨[(.machine 1, .affine ⟨[⟨4, 0⟩], 0⟩), (.machine 13, .const 0x80000000)]⟩, .empty⟩,
    some (swinging ⟨[], 0⟩), some (swinging ⟨[⟨4, 0⟩], 0⟩)]
  outputs := [some (swinging ⟨[], 0⟩), some (swinging ⟨[⟨4, 0⟩], 0⟩), some (swinging ⟨[⟨4, 0⟩], 0⟩)]
  onEdges := [some (swinging ⟨[], 0⟩), some (swinging ⟨[], 0⟩), some (swinging ⟨[⟨4, 0⟩], 0⟩),
    some (swinging ⟨[⟨4, 0⟩], 0⟩), some (swinging ⟨[⟨4, 0⟩], 0⟩)]
  queue := [1, 0]
  visited := [2, 1, 0, 1, 2, 1, 0]

/-- In a cycle without a header a value may swing between two expressions for ever. -/
theorem resolve_diverges_swing :
    FlowGraph.build detourBlocks [(0, 1), (0, 2), (1, 2), (2, 1), (2, 0)] [] 0 = .ok swingGraph ∧
    ∀ maxVisits, resolve swingGraph detourBoot ⟨1000, maxVisits, 0x80000000⟩ =
      .error (.visitLimit maxVisits) := by
  have hG : FlowGraph.build detourBlocks [(0, 1), (0, 2), (1, 2), (2, 1), (2, 0)] [] 0 =
      .ok swingGraph := rfl
  have hreach : Progress.run swingAnalysis swingGraph 7 (.start swingAnalysis swingGraph) =
      swingProgress := rfl
  have hrecur : (Progress.run swingAnalysis swingGraph 6 swingProgress).forget =
      swingProgress.forget := rfl
  exact ⟨hG, Progress.solve_eq_error_of_recurs (FlowGraph.built_of_build hG) (Nat.succ_pos 5) hreach
    nofun hrecur⟩

end Resolution

end MissBound
