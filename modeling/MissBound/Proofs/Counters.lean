import MissBound.Proofs.Classification
import MissBound.Proofs.Machine.Resolution
import MissBound.Proofs.Platform.Geometry

/-!
No counter outlives its loop. What is known at a block, the addresses of its accesses, the loops to
which their misses are charged and the lines of the sets depend on the loops around the block only.
-/

namespace MissBound

/-- The value is an expression over the counters of loops around `b`. -/
def Symbolic.Over (L : LoopForest) (b : Nat) (v : Symbolic) : Prop :=
  ∃ e, v = .affine e ∧ ∀ t ∈ e.terms, L.Inside t.header b

theorem Symbolic.Proper.over {L : LoopForest} {b : Nat} {v : Symbolic}
    (h : v.Proper L (L.Inside · b)) (hv : v ≠ .top) : v.Over L b := by
  cases h with
  | top => exact absurd rfl hv
  | affine H => exact ⟨_, rfl, fun t ht => (H.terms t ht).scope⟩

theorem Facts.Proper.over {κ : Type} [Ord κ] {L : LoopForest} {b : Nat} {f : Facts κ}
    (h : f.Proper L (L.Inside · b)) : ∀ x ∈ f.entries, x.2.Over L b :=
  fun x hx => (h.values x hx).over (h.known x hx)

namespace Classification

variable {G : FlowGraph} {caches : Caches} {memory : MemoryMap} {boot : Boot} {limits : Limits}
  {table : AccessTable} {accesses : List ClassifiedAccess} {p : Progress (Option State)}

section
variable (hp : resolve G boot limits = .ok p)
  (htable : AccessTable.build G boot limits memory p.inputs = .ok table)
include hp htable

/-- The addresses of a table depend on loops around their blocks only. -/
theorem scoped_of_build (B : G.Built) : table.Scoped G.loops := by
  intro b a ha
  obtain ⟨code, s, ev, -, hinput, hev, hok⟩ := AccessTable.exists_event_of_build htable ha
  have href := (AccessTable.accessOf_ok hok).2.1
  have hscoped := (Resolution.consistent_resolve B hp).1.inputs b
  rw [Resolution.inputAt_eq rfl] at hscoped
  have hproper := (Interpreter.proper_executeBlock (I := ⟨G.loops, boot, limits.cap⟩)
    (hscoped s hinput) code).2 ev hev
  rw [← href] at hproper
  cases hv : a.reference with
  | bottom => exact absurd hv hproper.ne_bottom
  | top => exact .inl hv
  | affine e =>
    rw [hv] at hproper
    cases hproper with
    | affine H => exact .inr ⟨e, hv, H.canonical, fun t ht => (H.terms t ht).scope⟩

/-- Only blocks that can be reached have accesses. -/
theorem reaches_of_access (B : G.Built) {b : Nat} {a : Access} (ha : a ∈ table.block b) :
    G.graph.Reaches G.entry b := by
  obtain ⟨code, s, ev, -, hinput, -, -⟩ := AccessTable.exists_event_of_build htable ha
  refine B.mem_order.mp ?_
  by_contra hb
  have hnone := ((Resolution.consistent_resolve B hp).1.untouched b hb).1
  rw [Resolution.inputAt_eq rfl, hinput] at hnone
  cases hnone

/-- The misses of an access are charged to a loop around it. -/
theorem inside_of_chargedTo (B : G.Built) {b h : Nat} {a : Access} (ha : a ∈ table.block b)
    (hcharged : a.reference.chargedTo? G.loops b = some h) : G.loops.Inside h b := by
  have hinnermost : G.loops.innermostHeader? b = some h → G.loops.Inside h b := fun hb =>
    (B.loops.innermostHeader?_spec B.closed B.entry_lt (reaches_of_access hp htable B ha) hb).1
  rw [Symbolic.chargedTo?] at hcharged
  rcases scoped_of_build hp htable B b a ha with htop | ⟨e, he, -, hin⟩
  · rw [htop] at hcharged
    exact hinnermost hcharged
  · rw [he, Symbolic.terms] at hcharged
    cases hlast : e.terms.getLast? with
    | none =>
      rw [hlast] at hcharged
      exact hinnermost hcharged
    | some t =>
      rw [hlast] at hcharged
      cases hcharged
      exact hin t (List.mem_of_getLast? hlast)

end

/-- An access that is reported has an unknown address, or one over the loops around it. -/
theorem exists_scoped_report (B : G.Built) {c : ClassifiedAccess}
    (hclassify : classify G caches memory boot limits = .ok accesses) (hc : c ∈ accesses) :
    ∃ cache table solution k a, a.toDataUse.Scoped G.loops a.block ∧
      c = report G cache limits.cap table solution a.block k a := by
  obtain ⟨cache, table, solution, -, C⟩ := exists_classified hclassify
  obtain ⟨p, hp, htable⟩ := C.resolved
  obtain ⟨k, a, hget, heq⟩ := C.exists_report hc
  have hscoped := scoped_of_build hp htable B a.block a (List.mem_of_getElem? hget)
  exact ⟨cache, table, solution, k, a, hscoped, heq⟩

/-- If addresses can be resolved, all that is known at a reachable block is known as an expression
over counters of loops around it. So are the addresses of a block that are known at all, and the
lines of every set at every moment of its analysis; and misses are charged to loops around their
access. -/
theorem counters_in_scope {blocks : List Block} {edges : List (Nat × Nat)}
    {bounds : List (Nat × LoopBound)} {entry : Nat}
    (hG : FlowGraph.build blocks edges bounds entry = .ok G) (hp : resolve G boot limits = .ok p) :
    (∀ b, G.graph.Reaches G.entry b → ∃ s, p.inputs[b]? = some (some s) ∧
      (∀ x ∈ s.registers.entries, x.2.Over G.loops b) ∧
      ∀ x ∈ s.memory.cells.entries, x.2.Over G.loops b) ∧
    ∀ memory table, AccessTable.build G boot limits memory p.inputs = .ok table →
      (∀ b, ∀ a ∈ table.block b, a.reference = .top ∨ a.reference.Over G.loops b) ∧
      (∀ caches accesses, classify G caches memory boot limits = .ok accesses →
        ∀ c ∈ accesses, ∀ h, c.relativeTo = some h → G.loops.Inside h c.block) ∧
      ∀ D : SetDomain, D.loops = G.loops → ∀ visits b k,
        ∀ l ∈ (D.before table ((D.analysis table).after G visits) b k).lines,
          l.reference.Over G.loops b := by
  have B := FlowGraph.built_of_build hG
  refine ⟨fun b hr => ?_, fun memory table htable => ⟨fun b a ha => ?_, ?_, ?_⟩⟩
  · obtain ⟨s, hs⟩ := Resolution.exists_input B hp hr
    have hproper := (Resolution.consistent_resolve B hp).1.inputs b
    rw [Resolution.inputAt_eq rfl] at hproper
    obtain ⟨hregisters, hmemory⟩ := hproper s hs
    exact ⟨s, Option.join_eq_some_iff.mp hs, hregisters.over, hmemory.over⟩
  · rcases scoped_of_build hp htable B b a ha with htop | ⟨e, he, -, hin⟩
    · exact .inl htop
    · exact .inr ⟨e, he, hin⟩
  · intro caches accesses hclassify c hc h hrelative
    obtain ⟨cache, table, solution, -, C⟩ := exists_classified hclassify
    obtain ⟨p, hp, htable⟩ := C.resolved
    obtain ⟨k, a, hget, rfl⟩ := C.exists_report hc
    exact inside_of_chargedTo hp htable B (List.mem_of_getElem? hget) hrelative
  · intro D hD visits b k l hl
    have hscoped := hD ▸ scoped_of_build hp htable B
    have C := Progress.consistent_after B (SetDomain.keeps_scoped B hD hscoped) visits
    obtain ⟨e, he, -, hin⟩ := SetDomain.scoped_before hscoped (C.inputs b) l hl
    exact ⟨e, he, hD ▸ hin⟩

/-- Two nested loops around one load. From its block the inner loop is repeated, the outer one is,
and both are left at once; behind them a word is loaded twice from where the pointer has come to,
and one from the address found there. -/
def exitBlocks : List Block :=
  [⟨0, [⟨0, [.literal (.machine 0) 0x1000], none⟩]⟩, ⟨4, []⟩,
    ⟨8, [⟨8, [.load (.machine 1) (.machine 0) .int32], none⟩,
      ⟨12, [.literal (.temporary 0) 4, .binary .add (.machine 0) (.machine 0) (.temporary 0)],
        none⟩]⟩,
    ⟨16, [⟨16, [.load (.machine 1) (.machine 0) .int32], none⟩,
      ⟨20, [.load (.machine 2) (.machine 0) .int32], none⟩,
      ⟨24, [.load (.machine 3) (.machine 1) .int32], none⟩]⟩]

def exitGraph : FlowGraph where
  graph := ⟨exitBlocks, [⟨0, 1, ⟨false, [], true⟩⟩, ⟨1, 2, ⟨false, [], true⟩⟩,
    ⟨2, 2, ⟨true, [], false⟩⟩, ⟨2, 1, ⟨true, [2], false⟩⟩, ⟨2, 3, ⟨false, [2, 1], false⟩⟩]⟩
  entry := 0
  dominators := ⟨0, [some 0, some 0, some 1, some 2], [0, 1, 2, 3]⟩
  loops := ⟨[⟨⟨1, [2], [1, 2]⟩, 0, none, [2], ⟨some 3, some 3⟩⟩,
    ⟨⟨2, [2], [2]⟩, 1, some 1, [], ⟨some 2, some 2⟩⟩], [0, 1, 2, 3]⟩

def exitLimits : Limits := ⟨100, 40, 0x80000000⟩

def exitStates : Progress (Option State) :=
  (Resolution.analysis exitGraph ⟨exitGraph.loops, .default, exitLimits.cap⟩
    (.ofBoot .default exitLimits.stackBase)).after exitGraph exitLimits.maxVisits

def exitTable : AccessTable :=
  ⟨[[], [], [⟨⟨2, .affine ⟨[⟨4, 2⟩, ⟨8, 1⟩], 0x1000⟩, true⟩, 8, .load, .int32, none⟩],
    [⟨⟨3, .const 0x1018, true⟩, 16, .load, .int32, none⟩,
      ⟨⟨3, .const 0x1018, true⟩, 20, .load, .int32, none⟩,
      ⟨⟨3, .top, true⟩, 24, .load, .int32, none⟩]]⟩

theorem build_exit : FlowGraph.build exitBlocks [(0, 1), (1, 2), (2, 2), (2, 1), (2, 3)]
    [(1, ⟨some 3, some 3⟩), (2, ⟨some 2, some 2⟩)] 0 = .ok exitGraph := rfl

theorem resolve_exit : resolve exitGraph .default exitLimits = .ok exitStates := by
  unfold resolve
  exact (Progress.solve_eq_ok (FlowGraph.built_of_build build_exit)).mpr ⟨rfl, by decide +kernel⟩

theorem table_exit : AccessTable.build exitGraph .default exitLimits (.flat 10) exitStates.inputs =
    .ok exitTable := by cbv

/-- Both counters of the pointer are gone where the loops are left, and no line depends on them. -/
theorem counters_in_scope_double_exit :
    (∃ s, exitStates.inputs[3]? = some (some s) ∧ s.registers.entries ≠ [] ∧
      ∀ x ∈ s.registers.entries, x.2.Over exitGraph.loops 3) ∧
    let D := domain exitGraph twoLines exitLimits.cap 0
    let s := D.before exitTable ((D.analysis exitTable).after exitGraph 9) 3 1
    s.lines ≠ [] ∧ ∀ l ∈ s.lines, l.reference.Over exitGraph.loops 3 := by
  obtain ⟨hstates, htable⟩ := counters_in_scope build_exit resolve_exit
  obtain ⟨-, -, hlines⟩ := htable _ _ table_exit
  have hr : exitGraph.graph.Reaches exitGraph.entry 3 :=
    (FlowGraph.built_of_build build_exit).mem_order.mp (by decide)
  obtain ⟨s, hs, hregisters, -⟩ := hstates 3 hr
  refine ⟨⟨s, hs, ?_, hregisters⟩, by decide +kernel, hlines _ rfl 9 3 1⟩
  have hknown : exitStates.inputs[3]?.join.any (fun s => s.registers.entries ≠ []) = true := by
    decide +kernel
  simpa [hs] using hknown

end Classification

end MissBound
