import MissBound.Proofs.Machine.Resolution

/-!
The known words of a memory. Writing a word forgets every other that shares a byte with it, and no
other operation adds an address. In every state of address resolution the known words are therefore
disjoint, and the value of each is known.
-/

namespace MissBound

namespace Memory

variable {m m' : Memory} {a b base top step : Nat} {v : Symbolic} {L : LoopForest}

/-- Known words have no byte in common and no unknown value. -/
structure Spaced (m : Memory) : Prop where
  apart : m.cells.Keyed fun a b => a + 4 ≤ b
  known : m.cells.Known

theorem overlaps_iff : overlaps b base top = true ↔ base < b + 4 ∧ b < top + 4 := by
  rw [overlaps, Bool.and_eq_true, decide_eq_true_eq, decide_eq_true_eq]
  omega

theorem get?_store : (m.store a v).get? b =
    if b = a then if v.isTop then none else some v
    else if a < b + 4 ∧ b < a + 4 then none else m.get? b := by
  have hkeep : (b == a || !overlaps b a a) = true ↔ b = a ∨ ¬(a < b + 4 ∧ b < a + 4) := by
    rw [Bool.or_eq_true, beq_iff_eq, Bool.not_eq_true', ← Bool.not_eq_true, overlaps_iff]
  simp only [store, markWritten, get?, Facts.find?_set, Std.LawfulEqCmp.compare_eq_iff_eq]
  split
  · rfl
  · rename_i hne
    rw [Facts.find?_filter fun b => b == a || !overlaps b a a]
    simp only [hkeep, hne, false_or, ite_not]

theorem spaced_empty : empty.Spaced := ⟨.nil, fun e he => (by cases he)⟩

theorem Spaced.sorted (h : m.Spaced) : m.cells.Sorted :=
  h.apart.imp fun hle => Nat.compare_eq_lt.mpr (by omega)

theorem Spaced.store (h : m.Spaced) : (m.store a v).Spaced := by
  refine ⟨?_, Facts.Known.set (Facts.All.filter h.known)⟩
  unfold Memory.store Facts.set
  simp only [markWritten]
  split
  · exact h.apart.filter.filter
  · -- What is left besides the address itself does not overlap it, on either side.
    apply Facts.Keyed.insertEntry h.sorted.filter h.apart.filter
    all_goals
      intro x hx hcmp
      have hkeep := (List.mem_filter.mp hx).2
      rw [Bool.or_eq_true, beq_iff_eq, Bool.not_eq_true', ← Bool.not_eq_true, overlaps_iff] at hkeep
    · have := Nat.compare_eq_lt.mp hcmp
      omega
    · have := Nat.compare_eq_gt.mp hcmp
      omega

theorem spaced_storeAnywhere : m.storeAnywhere.Spaced := ⟨spaced_empty.apart, spaced_empty.known⟩

theorem Spaced.storeRange (h : m.Spaced) : (m.storeRange L base top step v).Spaced := by
  unfold Memory.storeRange
  split
  · exact spaced_storeAnywhere
  · refine ⟨h.apart.filterMap fun e e' he' => ?_, Facts.All.filterMap h.known fun e he e' he' => ?_⟩
    · rcases storeRange_cases he' with rfl | ⟨-, rfl⟩ <;> rfl
    · rcases storeRange_cases he' with rfl | ⟨hne, rfl⟩
      · exact he
      · exact hne

theorem Spaced.join (h : m.Spaced) : (m.join L m').Spaced := by
  unfold Memory.join
  split
  · exact h
  · refine ⟨h.apart.join, ?_⟩
    rw [Facts.join_eq]
    exact Facts.known_filterMap

theorem Spaced.combine {f : Symbolic → Symbolic → Symbolic} (hf : ∀ v, f .top v = .top)
    (h : m.Spaced) : (m.combine f m').Spaced :=
  ⟨h.apart.combine hf, .combine⟩

theorem Spaced.map {f : Symbolic → Symbolic} (h : m.Spaced) : (m.map f).Spaced :=
  ⟨h.apart.map, Facts.known_filterMap⟩

end Memory

namespace Interpreter

variable {I : Interpreter} {i : Instruction} {m : Memory} {range : Option DeclaredRange}
  {address value : Symbolic} {base : UInt32} {s : State}

theorem spaced_store (h : m.Spaced) : (I.store range m address value).Spaced := by
  unfold store
  split
  · exact h
  · split
    · exact h.storeRange
    · exact Memory.spaced_storeAnywhere
  · split
    · exact Memory.spaced_storeAnywhere
    · split
      · exact h.store
      · exact h.storeRange

theorem keeps_spaced : I.Keeps i (fun s => s.memory.Spaced) fun _ => True where
  step s op h := by
    refine ⟨?_, fun _ _ => trivial⟩
    cases op with
    | store => exact spaced_store h
    | _ => exact h
  join _ _ h _ := h.join
  clear _ h := h

/-- The states that address resolution comes to: the one in which the program starts, and what
blocks, joins, the two steps at a loop header and loop exits make of those before. -/
inductive Reached (I : Interpreter) (base : UInt32) : State → Prop
  | entry : Reached I base (.ofBoot I.boot base)
  | block {s : State} (b : Block) : Reached I base s → Reached I base (I.executeBlock s b).1
  | join {s t : State} : Reached I base s → Reached I base t → Reached I base (s.join I.loops t)
  /-- What comes back to a loop header is widened against its last input. -/
  | widen {previous back : State} (header : Nat) : Reached I base previous → Reached I base back →
    Reached I base (previous.combine (Symbolic.widen I.loops header) back)
  /-- What enters a loop is joined with what comes back. -/
  | enter {entering widened : State} : Reached I base entering → Reached I base widened →
    Reached I base (entering.combine (Symbolic.join I.loops) widened)
  | leave {s : State} (header : Nat) : Reached I base s →
    Reached I base (s.map (Symbolic.afterLoop I.loops header))

theorem spaced_ofBoot {boot : Boot} : (State.ofBoot boot base).memory.Spaced := by
  refine List.foldlRecOn (motive := fun s : State => s.memory.Spaced) _ _ ?_ fun _ h _ _ => h.store
  exact List.foldlRecOn (motive := fun s : State => s.memory.Spaced) _ _ Memory.spaced_empty
    fun _ h _ _ => h

theorem Reached.spaced (h : I.Reached base s) : s.memory.Spaced := by
  induction h with
  | entry => exact spaced_ofBoot
  | block b _ ih => exact (Keeps.executeBlock (fun _ _ => keeps_spaced) ih).1
  | join _ _ ih _ => exact ih.join
  | widen header _ _ ih _ => exact ih.combine fun _ => Symbolic.top_widen
  | enter _ _ ih _ => exact ih.combine fun _ => Symbolic.top_join
  | leave header _ ih => exact ih.map

end Interpreter

namespace Resolution

variable {G : FlowGraph} {I : Interpreter} {base : UInt32}

theorem reached_propagate {s : State} (hI : I.loops = G.loops) (h : I.Reached base s)
    (headers : List Nat) :
    I.Reached base (headers.foldl (fun s h => s.map (Symbolic.afterLoop G.loops h)) s) :=
  List.foldlRecOn _ _ h fun _ h header _ => hI ▸ h.leave header

/-- The fixed point goes through these states only. -/
theorem keeps_reached (hI : I.loops = G.loops) :
    Progress.Keeps (analysis G I (.ofBoot I.boot base)) G (fun _ => Every (I.Reached base))
      fun _ => Every (I.Reached base) where
  bottom_input _ := every_none
  bottom_edge _ _ := every_none
  input b _ prev onEdges hprev hedges := by
    refine every_input (fun _ _ hs ht => hI ▸ hs.join ht)
      (fun _ _ _ hs ht => ⟨hI ▸ hs.enter ht, hI ▸ hs.widen b ht⟩) hprev ?_
    exact every_arrivals (fun _ => .entry) fun e i hget _ => hedges e i hget
  edge e _ _ s hs := by
    intro t ht
    obtain ⟨u, hu, rfl⟩ := Option.map_eq_some_iff.mp ht
    apply reached_propagate hI
    exact every_transfer (fun b _ _ h => h.block b) hs u hu

/-- Address resolution goes through reached states only. In these any two known words are at least
four bytes apart and none has the unknown value. Storing a known value makes it the value of its
word, forgets the words that share a byte with it, and changes no other. -/
theorem cells_never_overlap {blocks : List Block} {edges : List (Nat × Nat)}
    {bounds : List (Nat × LoopBound)} {entry cap : Nat} {boot : Boot}
    (hG : FlowGraph.build blocks edges bounds entry = .ok G) (visits : Nat) :
    let I : Interpreter := ⟨G.loops, boot, cap⟩
    let A := analysis G I (.ofBoot boot base)
    (∀ b, Every (I.Reached base) ((A.after G visits).inputAt A b)) ∧
    (∀ e i, G.graph.edges[i]? = some e → Every (I.Reached base) ((A.after G visits).edgeAt A i)) ∧
    (∀ s, I.Reached base s → s.memory.Spaced) ∧
    ∀ (m : Memory) (a : Nat) (v : Symbolic), v ≠ .top →
      (m.store a v).get? a = some v ∧
      (∀ b, b ≠ a → a < b + 4 → b < a + 4 → (m.store a v).get? b = none) ∧
      ∀ b, b + 4 ≤ a ∨ a + 4 ≤ b → (m.store a v).get? b = m.get? b := by
  intro I A
  have K : Progress.Keeps A G (fun _ => Every (I.Reached base)) fun _ => Every (I.Reached base) :=
    keeps_reached rfl
  have C := Progress.consistent_after (FlowGraph.built_of_build hG) K visits
  refine ⟨C.inputs, C.edges, fun s hs => hs.spaced, fun m a v hv => ⟨?_, ?_, ?_⟩⟩
  · have htop : ¬v.isTop = true := fun h => hv (Symbolic.isTop_iff.mp h)
    rw [Memory.get?_store, if_pos rfl, if_neg htop]
  · intro b hne hlo hhi
    rw [Memory.get?_store, if_neg hne, if_pos ⟨hlo, hhi⟩]
  · intro b hb
    rw [Memory.get?_store, if_neg (by omega), if_neg (by omega)]

/-- A loop that stores a register between two words that are known at the start. -/
def straddlingBlocks : List Block :=
  [⟨0, []⟩,
    ⟨16, [⟨16, [.literal (.temporary 0) 0x102, .store (.machine 0) (.temporary 0) .int32], none⟩]⟩]

def straddlingGraph : FlowGraph where
  graph := ⟨straddlingBlocks, [⟨0, 1, ⟨false, [], true⟩⟩, ⟨1, 1, ⟨true, [], false⟩⟩]⟩
  entry := 0
  dominators := ⟨0, [some 0, some 0], [0, 1]⟩
  loops := ⟨[⟨⟨1, [1], [1]⟩, 0, none, [], .unknown⟩], [0, 1]⟩

def straddlingBoot : Boot :=
  ⟨.machine 13, [(.machine 0, 7)], [(0x100, 1), (0x104, 2), (0x10c, 3)], []⟩

/-- What comes back to the loop header. -/
def straddlingState : State where
  registers := ⟨[(.machine 0, .const 7), (.machine 13, .const 0x80000000)]⟩
  memory := ⟨⟨[(0x102, .const 7), (0x10c, .const 3)]⟩,
    [(0x100, 0x103), (0x102, 0x105), (0x104, 0x107), (0x10c, 0x10f)], false⟩

/-- The words on both sides of the store are forgotten, and another store behind it forgets the last
one. -/
theorem cells_never_overlap_straddling :
    let A := analysis straddlingGraph ⟨straddlingGraph.loops, straddlingBoot, 64⟩
      (.ofBoot straddlingBoot 0x80000000)
    FlowGraph.build straddlingBlocks [(0, 1), (1, 1)] [] 0 = .ok straddlingGraph ∧
    (A.after straddlingGraph 2).edgeAt A 1 = some straddlingState ∧
    straddlingState.memory.Spaced ∧
    (straddlingState.memory.store 0x10a (.const 9)).get? 0x10c = none ∧
    (straddlingState.memory.store 0x10a (.const 9)).get? 0x102 = some (.const 7) := by
  intro A
  have hG : FlowGraph.build straddlingBlocks [(0, 1), (1, 1)] [] 0 = .ok straddlingGraph := rfl
  have hedge : (A.after straddlingGraph 2).edgeAt A 1 = some straddlingState := rfl
  obtain ⟨-, hedges, hspaced, hstore⟩ := cells_never_overlap hG 2
  obtain ⟨-, hforgets, hkeeps⟩ := hstore straddlingState.memory 0x10a (.const 9) (by decide)
  refine ⟨hG, hedge, hspaced _ (hedges _ 1 rfl _ hedge), ?_, hkeeps 0x102 (by decide)⟩
  exact hforgets 0x10c (by decide) (by decide) (by decide)

end Resolution

end MissBound
