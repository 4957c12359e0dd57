import MissBound.Proofs.Conservation
import MissBound.Proofs.Lru.Range
import MissBound.Proofs.Lru.SetMisses

/-!
The misses of an access during one execution of the loop to which they are charged. The sets share
out the executions, so that the counts of all sets bound the misses together, apart from those that
the sets overlook.
-/

namespace MissBound

namespace MissCount

/-- The misses of a bounded count. -/
def amount (c : MissCount) : Nat := c.bound?.getD 0

end MissCount

namespace Classification

variable {G : FlowGraph} {caches : Caches} {memory : MemoryMap} {boot : Boot} {limits : Limits}
  {cache : Geometry} {table : AccessTable} {accesses : List ClassifiedAccess}

/-- A bounded total is the sum of bounded counts, up to the largest count that is reported. -/
theorem total_eq {counts : List (Tally × MissCount)} {m : Nat} (h : (total counts).2 = .bounded m) :
    (∀ c ∈ counts, c.2 = .bounded c.2.amount) ∧
      m = min missLimit (counts.map (·.2.amount)).sum := by
  have hunbounded : ∀ (counts : List (Tally × MissCount)) (acc : Tally × MissCount),
      acc.2 = .unbounded →
      (counts.foldl (fun acc c => (acc.1 + c.1, acc.2 + c.2)) acc).2 = .unbounded :=
      fun counts _ h =>
    List.foldlRecOn (motive := fun acc : Tally × MissCount => acc.2 = .unbounded) counts _ h
      fun _ h c _ => by rw [h]; rfl
  have hfold : ∀ (counts : List (Tally × MissCount)) (acc : Tally × MissCount) (n : Nat),
      acc.2 = .bounded n → n ≤ missLimit →
      (counts.foldl (fun acc c => (acc.1 + c.1, acc.2 + c.2)) acc).2 = .bounded m →
      (∀ c ∈ counts, c.2 = .bounded c.2.amount) ∧
        m = min missLimit (n + (counts.map (·.2.amount)).sum) := by
    intro counts
    induction counts with
    | nil =>
      intro acc n hacc hn hm
      cases hacc.symm.trans hm
      exact ⟨fun _ h => (by cases h), (Nat.min_eq_right hn).symm⟩
    | cons c counts ih =>
      intro acc n hacc hn hm
      rw [List.foldl_cons] at hm
      cases hc : c.2 with
      | unbounded =>
        rw [hunbounded counts _ (show acc.2 + c.2 = .unbounded by rw [hacc, hc]; rfl)] at hm
        cases hm
      | bounded k =>
        obtain ⟨hall, heq⟩ := ih (acc.1 + c.1, acc.2 + c.2) (min missLimit (n + k))
          (by rw [hacc, hc]; rfl) (Nat.min_le_left _ _) hm
        refine ⟨fun x hx => ?_, ?_⟩
        · rcases List.mem_cons.mp hx with rfl | hx
          · rw [hc]
            rfl
          · exact hall x hx
        · have hk : c.2.amount = k := by rw [hc]; rfl
          rw [heq, List.map_cons, List.sum_cons, hk]
          omega
  obtain ⟨hall, heq⟩ := hfold counts _ 0 rfl (Nat.zero_le _) h
  exact ⟨hall, by rw [heq, Nat.zero_add]⟩

section
variable {p : Progress (Option State)} (hp : resolve G boot limits = .ok p)
  (htable : AccessTable.build G boot limits memory p.inputs = .ok table)
include htable

theorem placed_of_build : table.Placed := fun _ _ ha => AccessTable.block_eq_of_build htable ha

include hp

theorem regular_of_build (B : G.Built)
    (hnarrow : ∀ b, ∀ a ∈ table.block b, ∀ e, a.reference = .affine e → e.Narrow G.loops) :
    table.Regular G.loops := by
  intro b a ha
  rcases scoped_of_build hp htable B b a ha with htop | ⟨e, he, hcan, hin⟩
  · exact .inl htop
  · exact .inr ⟨e, he, hcan, hnarrow b a ha e he, hin⟩

end

/-- The first term of an address that depends on all loops around its block is that of the innermost
one. -/
theorem indexed_of_covers {b k : Nat} {a : Access} {e : Affine} (B : G.Built)
    (hr : G.graph.Reaches G.entry b) (hcan : e.Canonical G.loops)
    (hin : ∀ t ∈ e.terms, G.loops.Inside t.header b) (hget : (table.block b)[k]? = some a)
    (href : a.reference = .affine e) (hterms : e.terms ≠ [])
    (hcovers : ∀ g, G.loops.Inside g b → ∃ t ∈ e.terms, t.header = g) :
    ∃ inner, SetDomain.Indexed G table inner b k a e := by
  have hsorted := hcan.sorted
  cases hts : e.terms with
  | nil => exact absurd hts hterms
  | cons u us =>
    rw [hts] at hsorted
    have hu : G.loops.Inside u.header b := hin u (hts ▸ List.mem_cons_self)
    refine ⟨u.header, hget, href, ?_, hu, fun g hg => ?_, hcovers⟩
    · change e.terms.head?.map (·.header) = _
      rw [hts]
      rfl
    · obtain ⟨t, ht, rfl⟩ := hcovers g hg
      rw [hts] at ht
      rcases List.mem_cons.mp ht with rfl | ht
      · exact B.loops.inside_self B.closed B.entry_lt (B.loops.isHeader_of_inside hu)
      · have hlt := (List.pairwise_cons.mp hsorted).1 t ht
        rcases B.loops.inside_total B.closed B.entry_lt hr hg hu with h | h
        · exact h
        · have hgt := B.loops.compareHeaders_of_inside B.closed B.entry_lt h
            (G.loops.ne_of_compareHeaders hlt).symm (B.loops.isHeader_of_inside hg)
          exact absurd hgt (G.loops.compareHeaders_asymm hlt)

/-- The misses of an access that the counts of all sets overlook. -/
def overlooked (G : FlowGraph) (cache : Geometry) (cap : Nat) (table : AccessTable)
    (solution : Nat → Progress SetState) (b k : Nat) (a : DataUse) : Nat :=
  ∑ set ∈ Finset.range cache.setCount, (domain G cache cap set).overlooked
    ((domain G cache cap set).before table (solution set) b k) a

/-- The misses that a set counts for an access. -/
def share (G : FlowGraph) (cache : Geometry) (cap : Nat) (table : AccessTable)
    (solution : Nat → Progress SetState) (b k : Nat) (a : DataUse) (set : Nat) : Nat :=
  let D := domain G cache cap set
  if D.classifies a then (D.countMisses (D.before table (solution set) b k) a).2.amount else 0

theorem report_congr {solution solution' : Nat → Progress SetState} {b k cap : Nat} {a : Access}
    (h : ∀ set < cache.setCount, solution set = solution' set) :
    report G cache cap table solution b k a = report G cache cap table solution' b k a := by
  have hperSet : perSet G cache cap table solution b k a =
      perSet G cache cap table solution' b k a := by
    refine List.filterMap_congr fun set hset => ?_
    simp only
    rw [h set (List.mem_range.mp hset)]
  unfold report
  rw [hperSet]

/-- An iteration space that is enumerated is not cut off if the cap is less than the limit of
counts, or if the space is small anyway. -/
theorem size_le_of_enumerable {L : LoopForest} {cap : Nat} {e : Affine} {space : Odometer}
    (hcap : cap < 2 ^ 64 - 1 ∨
      (e.terms.map fun t => (L.maxIteration? t.header).getD 0).prod < 2 ^ 64)
    (henum : (Symbolic.affine e).enumerable? L cap = some space) :
    space.size ≤ Symbolic.countLimit := by
  obtain ⟨hspace, hsize⟩ := Option.filter_eq_some_iff.mp henum
  replace hsize : min Symbolic.countLimit space.size ≤ cap := of_decide_eq_true hsize
  rw [Symbolic.countLimit] at hsize ⊢
  rcases hcap with hcap | hprod
  · omega
  · obtain ⟨o, ho, hvolume⟩ := Affine.exists_space (Odometer.isSome_of_space? hspace)
    cases ho.symm.trans hspace
    omega

/-- A bounded report adds up the misses of all sets. -/
theorem bounded_of_report {solution : Nat → Progress SetState} {b k m : Nat} {a : Access}
    {e : Affine}
    (hcap : limits.cap < 2 ^ 64 - 1 ∨
      (e.terms.map fun t => (G.loops.maxIteration? t.header).getD 0).prod < 2 ^ 64)
    (href : a.reference = .affine e)
    (hnorm : ∀ set, (domain G cache limits.cap set).normalize a.reference = .affine e)
    (h : (report G cache limits.cap table solution b k a).misses = .bounded m) :
    ∃ space, (Symbolic.affine e).enumerable? G.loops limits.cap = some space ∧
      (∀ set < cache.setCount, (domain G cache limits.cap set).classifies a.toDataUse = true →
        ((domain G cache limits.cap set).countMisses
          ((domain G cache limits.cap set).before table (solution set) b k) a.toDataUse).2 =
        .bounded (share G cache limits.cap table solution b k a.toDataUse set)) ∧
      m = ∑ set ∈ Finset.range cache.setCount,
        share G cache limits.cap table solution b k a.toDataUse set := by
  change (countsOf G limits.cap a (perSet G cache limits.cap table solution b k a)).2 = _ at h
  unfold countsOf at h
  rw [href] at h
  cases henum : (Symbolic.affine e).enumerable? G.loops limits.cap with
  | none =>
    rw [henum] at h
    cases h
  | some space =>
    rw [henum] at h
    change (total (perSet G cache limits.cap table solution b k a)).2 = .bounded m at h
    obtain ⟨hall, hm⟩ := total_eq h
    have hbounded : ∀ set < cache.setCount,
        (domain G cache limits.cap set).classifies a.toDataUse = true →
        ((domain G cache limits.cap set).countMisses
          ((domain G cache limits.cap set).before table (solution set) b k) a.toDataUse).2 =
        .bounded (share G cache limits.cap table solution b k a.toDataUse set) := by
      intro set hset hclass
      have hmem := hall ((domain G cache limits.cap set).countMisses
        ((domain G cache limits.cap set).before table (solution set) b k) a.toDataUse)
        (List.mem_filterMap.mpr ⟨set, List.mem_range.mpr hset, if_pos hclass⟩)
      rw [share, if_pos hclass]
      exact hmem
    refine ⟨space, rfl, hbounded, ?_⟩
    have hsum : ((perSet G cache limits.cap table solution b k a).map (·.2.amount)).sum =
        ∑ set ∈ Finset.range cache.setCount,
          share G cache limits.cap table solution b k a.toDataUse set := by
      rw [perSet, sum_filterMap_range]
      refine Finset.sum_congr rfl fun set _ => ?_
      simp only [share]
      cases (domain G cache limits.cap set).classifies a.toDataUse <;> rfl
    have hle : ∑ set ∈ Finset.range cache.setCount,
        share G cache limits.cap table solution b k a.toDataUse set ≤ Symbolic.countLimit := by
      calc
        _ ≤ ∑ set ∈ Finset.range cache.setCount,
            ((domain G cache limits.cap set).trials e space).length := by
          refine Finset.sum_le_sum fun set hset => ?_
          by_cases hclass : (domain G cache limits.cap set).classifies a.toDataUse = true
          · exact SetDomain.countMisses_le (hnorm set) henum
              (hbounded set (Finset.mem_range.mp hset) hclass)
          · rw [share, if_neg hclass]
            exact Nat.zero_le _
        _ = space.size := sum_trials (Option.filter_eq_some_iff.mp henum).1
        _ ≤ Symbolic.countLimit := size_le_of_enumerable hcap henum
    rw [hm, hsum, Nat.min_eq_right]
    exact hle

/-- During one execution of the loop to which its misses are charged, an access whose address
depends on all loops around it misses no more often than reported, apart from what the counts
overlook: a trial of a persistent line in the block of the trial before counts as a hit even if the
innermost loop has ended in between. Accesses that are not cached touch nothing. Counts are cut off
at `2^64 - 1`, which matters only if the cap is no less. -/
theorem loop_misses_le {blocks : List Block} {edges : List (Nat × Nat)}
    {bounds : List (Nat × LoopBound)} {entry : Nat} {p : Progress (Option State)}
    {solution : Nat → Progress SetState} {b k m h : Nat} {c : ClassifiedAccess} {e : Affine}
    {s₀ s t : Situation cache} {es : List Event} {log : List Attempt}
    (hG : FlowGraph.build blocks edges bounds entry = .ok G)
    (hcache : caches.dataCache = .ok cache)
    (hcap : limits.cap < 2 ^ 64 - 1 ∨
      (e.terms.map fun t => (G.loops.maxIteration? t.header).getD 0).prod < 2 ^ 64)
    (hclassify : classify G caches memory boot limits = .ok accesses)
    (hp : resolve G boot limits = .ok p)
    (htable : AccessTable.build G boot limits memory p.inputs = .ok table)
    (hsolution : ∀ set < cache.setCount, ((domain G cache limits.cap set).analysis table).solve G
      limits.maxVisits = .ok (solution set))
    (hnarrow : ∀ b, ∀ a ∈ table.block b, ∀ e, a.reference = .affine e → e.Narrow G.loops)
    (hc : (reported accesses b)[k]? = some c) (he : c.reference = .affine e) (hterms : e.terms ≠ [])
    (hcovers : ∀ g, G.loops.Inside g b → ∃ t ∈ e.terms, t.header = g)
    (hm : c.misses = .bounded m) (hrelative : c.relativeTo = some h) (hreducible : G.Reducible h)
    (h₀ : s₀.Initial G) (hsteps : Steps G table s₀ es s) (hs : G.loops.Inside h s.block)
    (hrun : Rounds G table h s log t) :
    log.countP (fun z => z.isAt b k && z.missed) ≤
      m + overlooked G cache limits.cap table solution b k c.toDataUse := by
  have B := FlowGraph.built_of_build hG
  obtain ⟨table', solution', C⟩ := classified_of_classify hcache hclassify
  obtain ⟨p', hp', htable'⟩ := C.resolved
  cases hp.symm.trans hp'
  cases htable.symm.trans htable'
  rw [C.reported, List.getElem?_mapIdx] at hc
  obtain ⟨a, hget, rfl⟩ := Option.map_eq_some_iff.mp hc
  have hsame : ∀ set < cache.setCount, solution' set = solution set := fun set hset =>
    Except.ok.inj ((C.solved set hset).symm.trans (hsolution set hset))
  rw [report_congr hsame] at hm
  have hmem := List.mem_of_getElem? hget
  have hregular := regular_of_build hp htable B hnarrow
  have hplaced := placed_of_build htable
  have href : a.reference = .affine e := he
  have hcharged : a.reference.chargedTo? G.loops a.block = some h := hrelative
  rw [href] at hcharged
  obtain ⟨hcan, hin⟩ : e.Canonical G.loops ∧ ∀ t ∈ e.terms, G.loops.Inside t.header b := by
    rcases hregular b a hmem with ha | ⟨f, ha, hcan, -, hin⟩
    · cases href.symm.trans ha
    · cases href.symm.trans ha
      exact ⟨hcan, hin⟩
  obtain ⟨inner, I⟩ :=
    indexed_of_covers B (reaches_of_access hp htable B hmem) hcan hin hget href hterms hcovers
  have houter : G.loops.Inside h inner := by
    rw [Symbolic.chargedTo?, Symbolic.terms, List.getLast?_eq_some_getLast hterms] at hcharged
    cases hcharged
    exact I.around _ (hin _ (List.getLast_mem hterms))
  obtain ⟨rank, R⟩ := hreducible
  have hnorm : ∀ set, (domain G cache limits.cap set).normalize a.reference = .affine e :=
    fun set => by
    rw [href, I.normalize_eq]
  obtain ⟨space, henum, hbounded, rfl⟩ := bounded_of_report hcap href hnorm hm
  have hspace : e.space? G.loops = some space := (Option.filter_eq_some_iff.mp henum).1
  have hset : ∀ z : Attempt, (z.isAt b k && z.missed) = true →
      cache.set (e.eval z.counter).toNat < cache.setCount := fun _ _ => cache.set_lt
  rw [← sum_countP log hset, overlooked, ← Finset.sum_add_distrib]
  refine Finset.sum_le_sum fun set hset => ?_
  have hset := Finset.mem_range.mp hset
  have S : SetDomain.Solution (domain G cache limits.cap set) G table (solution set) :=
    ⟨B, rfl, hregular, _, hsolution set hset⟩
  have hcount : log.countP (fun z => (z.isAt b k && z.missed) &&
      cache.set (e.eval z.counter).toNat == set) =
      log.countP (fun z => (domain G cache limits.cap set).executes e b k z && z.missed) := by
    refine List.countP_congr fun z _ => ?_
    rw [Bool.and_right_comm]
    rfl
  rw [hcount]
  by_cases hclass : (domain G cache limits.cap set).classifies a.toDataUse = true
  · exact S.misses_le I R h₀ hsteps hs hrun hspace hplaced houter henum (hbounded set hset hclass)
  · have hzero : log.countP (fun z =>
        (domain G cache limits.cap set).executes e b k z && z.missed) = 0 := by
      refine List.countP_eq_zero.mpr fun z hz hboth => hclass ?_
      have hex := ((Bool.and_eq_true _ _).mp hboth).1
      rw [SetDomain.classifies, S.concerns_of_executes I h₀ hsteps hrun hz hex, Bool.and_true, href]
      exact Option.isSome_iff_exists.mpr ⟨space, henum⟩
    rw [hzero]
    exact Nat.zero_le _

/-- Two nested loops of two iterations each. The inner one loads from consecutive words of one
block, and after it the outer one loads from two other blocks. -/
def nestedBlocks : List Block :=
  [⟨0, [⟨0, [.literal (.machine 0) 0x1000], none⟩]⟩,
    ⟨16, [⟨16, [.move (.machine 1) (.machine 0), .literal (.temporary 0) 8,
      .binary .add (.machine 0) (.machine 0) (.temporary 0)], none⟩]⟩,
    ⟨32, [⟨32, [.load (.machine 5) (.machine 1) .int32], none⟩,
      ⟨36, [.literal (.temporary 0) 4, .binary .add (.machine 1) (.machine 1) (.temporary 0)],
        none⟩]⟩,
    ⟨48, [⟨48, [.literal (.temporary 0) 0x2000, .load (.machine 5) (.temporary 0) .int32], none⟩,
      ⟨52, [.literal (.temporary 0) 0x3000, .load (.machine 5) (.temporary 0) .int32], none⟩]⟩,
    ⟨96, []⟩]

def nestedGraph : FlowGraph where
  graph := ⟨nestedBlocks,
    [⟨0, 1, ⟨false, [], true⟩⟩, ⟨1, 2, ⟨false, [], true⟩⟩, ⟨2, 2, ⟨true, [], false⟩⟩,
      ⟨2, 3, ⟨false, [2], false⟩⟩, ⟨3, 1, ⟨true, [], false⟩⟩, ⟨3, 4, ⟨false, [1], false⟩⟩]⟩
  entry := 0
  dominators := ⟨0, [some 0, some 0, some 1, some 2, some 3], [0, 1, 2, 3, 4]⟩
  loops := ⟨[⟨⟨1, [3], [1, 2, 3]⟩, 0, none, [2], ⟨some 2, some 2⟩⟩,
    ⟨⟨2, [2], [2]⟩, 1, some 1, [], ⟨some 2, some 2⟩⟩], [0, 1, 2, 3, 4]⟩

def nestedCache : Geometry := twoLines

def nestedLimits : Limits := ⟨100, 40, 0x80000000⟩

def nestedReference : Affine := ⟨[⟨4, 2⟩, ⟨8, 1⟩], 0x1000⟩

def nestedTable : AccessTable :=
  ⟨[[], [], [⟨⟨2, .affine nestedReference, true⟩, 32, .load, .int32, none⟩],
    [⟨⟨3, .const 0x2000, true⟩, 48, .load, .int32, none⟩,
      ⟨⟨3, .const 0x3000, true⟩, 52, .load, .int32, none⟩], []]⟩

/-- The report on the load in the inner loop. -/
def nestedLoad : ClassifiedAccess :=
  ⟨⟨⟨2, .affine nestedReference, true⟩, 32, .load, .int32, none⟩, ⟨0, 1, 0, 3, 0⟩,
    .bounded 1, some 1⟩

def nestedAccesses : List ClassifiedAccess :=
  [nestedLoad,
    ⟨⟨⟨3, .const 0x2000, true⟩, 48, .load, .int32, none⟩, ⟨0, 0, 1, 0, 0⟩, .bounded 1, some 1⟩,
    ⟨⟨⟨3, .const 0x3000, true⟩, 52, .load, .int32, none⟩, ⟨0, 1, 0, 0, 0⟩, .bounded 1, some 1⟩]

def nestedStates : Progress (Option State) :=
  let A := Resolution.analysis nestedGraph ⟨nestedGraph.loops, .default, nestedLimits.cap⟩
    (.ofBoot .default nestedLimits.stackBase)
  .run A nestedGraph nestedLimits.maxVisits (.start A nestedGraph)

def nestedSolution : Nat → Progress SetState := fun set =>
  let A := (domain nestedGraph nestedCache nestedLimits.cap set).analysis nestedTable
  .run A nestedGraph nestedLimits.maxVisits (.start A nestedGraph)

theorem build_nested : FlowGraph.build nestedBlocks [(0, 1), (1, 2), (2, 2), (2, 3), (3, 1), (3, 4)]
    [(1, ⟨some 2, some 2⟩), (2, ⟨some 2, some 2⟩)] 0 = .ok nestedGraph := rfl

theorem resolve_nested : resolve nestedGraph .default nestedLimits = .ok nestedStates := by
  unfold resolve
  exact (Progress.solve_eq_ok (FlowGraph.built_of_build build_nested)).mpr ⟨rfl, by decide +kernel⟩

theorem table_nested : AccessTable.build nestedGraph .default nestedLimits (.flat 10)
    nestedStates.inputs = .ok nestedTable := by cbv

theorem classify_nested : classify nestedGraph ⟨none, some nestedCache, false⟩ (.flat 10) .default
    nestedLimits = .ok nestedAccesses := by cbv

theorem covers_nested : ∀ g, nestedGraph.loops.Inside g 2 →
    ∃ t ∈ nestedReference.terms, t.header = g := by
  rintro g ⟨l, hl, -⟩
  have hheader : l.header = g := by simpa using List.find?_some hl
  subst hheader
  have hall : ∀ l ∈ nestedGraph.loops.loops, ∃ t ∈ nestedReference.terms, t.header = l.header := by
    decide
  exact hall l (List.mem_of_find?_eq_some hl)

/-- The moment at which the outer loop is entered. -/
def nestedEntry : Situation nestedCache :=
  ⟨1, 0, nestedGraph.count ⟨0, 1, ⟨false, [], true⟩⟩ fun _ => 0, .empty⟩

theorem steps_nested : Steps nestedGraph nestedTable
    (⟨0, 0, fun _ => 0, .empty⟩ : Situation nestedCache) [] nestedEntry :=
  .tail .refl (.follow (e := ⟨0, 1, ⟨false, [], true⟩⟩) rfl (by decide) (by decide) (by decide))

/-- In a complete execution of the outer loop, the load in the inner one misses in each of its
runs. -/
theorem rounds_nested : ∃ log t u, Rounds nestedGraph nestedTable 1 nestedEntry log t ∧
    Step nestedGraph nestedTable t none u ∧ u.block = 4 ∧
    log.countP (fun z => z.isAt 2 0 && z.missed) = 2 := by
  have hrun : Rounds nestedGraph nestedTable 1 nestedEntry _ _ :=
    .tail (.tail (.tail (.tail (.tail (.tail (.tail (.tail (.tail (.tail (.tail (.tail (.tail (.tail
      (.tail .refl
      (.follow (e := ⟨1, 2, ⟨false, [], true⟩⟩) rfl (by decide) (by decide) (by decide))
        (by decide))
      (.serve rfl rfl (.affine rfl)) (by decide))
      (.follow (e := ⟨2, 2, ⟨true, [], false⟩⟩) rfl (by decide) (by decide) (by decide))
        (by decide))
      (.serve rfl rfl (.affine rfl)) (by decide))
      (.follow (e := ⟨2, 3, ⟨false, [2], false⟩⟩) rfl (by decide) (by decide) (by decide))
        (by decide))
      (.serve rfl rfl (.affine rfl)) (by decide))
      (.serve rfl rfl (.affine rfl)) (by decide))
      (.follow (e := ⟨3, 1, ⟨true, [], false⟩⟩) rfl (by decide) (by decide) (by decide))
        (by decide))
      (.follow (e := ⟨1, 2, ⟨false, [], true⟩⟩) rfl (by decide) (by decide) (by decide))
        (by decide))
      (.serve rfl rfl (.affine rfl)) (by decide))
      (.follow (e := ⟨2, 2, ⟨true, [], false⟩⟩) rfl (by decide) (by decide) (by decide))
        (by decide))
      (.serve rfl rfl (.affine rfl)) (by decide))
      (.follow (e := ⟨2, 3, ⟨false, [2], false⟩⟩) rfl (by decide) (by decide) (by decide))
        (by decide))
      (.serve rfl rfl (.affine rfl)) (by decide))
      (.serve rfl rfl (.affine rfl)) (by decide)
  exact ⟨_, _, _, hrun, .follow (e := ⟨3, 4, ⟨false, [1], false⟩⟩) rfl (by decide) (by decide)
    (by decide), rfl, by decide +kernel⟩

/-- The load misses twice, once as reported and once more where the inner loop starts again. -/
theorem loop_misses_le_nested : ∃ log t, Rounds nestedGraph nestedTable 1 nestedEntry log t ∧
    log.countP (fun z => z.isAt 2 0 && z.missed) = 2 ∧
    overlooked nestedGraph nestedCache nestedLimits.cap nestedTable nestedSolution 2 0
      nestedLoad.toDataUse = 1 ∧
    log.countP (fun z => z.isAt 2 0 && z.missed) ≤ 1 + overlooked nestedGraph nestedCache
      nestedLimits.cap nestedTable nestedSolution 2 0 nestedLoad.toDataUse := by
  obtain ⟨log, t, u, hrun, -, -, hcount⟩ := rounds_nested
  have hsolution : ∀ set < nestedCache.setCount,
      ((domain nestedGraph nestedCache nestedLimits.cap set).analysis nestedTable).solve nestedGraph
        nestedLimits.maxVisits = .ok (nestedSolution set) := by
    intro set hset
    obtain rfl : set = 0 := Nat.lt_one_iff.mp hset
    exact (Progress.solve_eq_ok (FlowGraph.built_of_build build_nested)).mpr
      ⟨rfl, by decide +kernel⟩
  have hnarrow : ∀ b, ∀ a ∈ nestedTable.block b, ∀ e, a.reference = .affine e →
      e.Narrow nestedGraph.loops := by
    intro b a ha e he
    have hregular : nestedTable.Regular nestedGraph.loops := by decide
    rcases hregular b a ha with h | ⟨f, hf, -, hnarrow, -⟩
    · cases he.symm.trans h
    · cases he.symm.trans hf
      exact hnarrow
  have hforward : ∀ e ∈ nestedGraph.graph.edges, e.label.back = false → e.source < e.target := by
    decide
  have hle := loop_misses_le (b := 2) (k := 0) (m := 1) (c := nestedLoad) build_nested rfl
    (.inl (by decide)) classify_nested
    resolve_nested table_nested hsolution hnarrow rfl rfl (by decide) covers_nested rfl rfl
    ⟨id, fun e he _ _ _ => hforward e he⟩ ⟨rfl, rfl, rfl, by decide⟩ steps_nested (by decide) hrun
  exact ⟨log, t, hrun, hcount, by decide +kernel, hle⟩

/-- More misses than reported. -/
theorem loop_misses_exceed_report : ∃ log t u,
    FlowGraph.build nestedBlocks [(0, 1), (1, 2), (2, 2), (2, 3), (3, 1), (3, 4)]
      [(1, ⟨some 2, some 2⟩), (2, ⟨some 2, some 2⟩)] 0 = .ok nestedGraph ∧
    classify nestedGraph ⟨none, some nestedCache, false⟩ (.flat 10) .default nestedLimits =
      .ok nestedAccesses ∧
    resolve nestedGraph .default nestedLimits = .ok nestedStates ∧
    AccessTable.build nestedGraph .default nestedLimits (.flat 10) nestedStates.inputs =
      .ok nestedTable ∧
    (reported nestedAccesses 2)[0]? = some nestedLoad ∧
    nestedLoad.reference = .affine nestedReference ∧
    (∀ g, nestedGraph.loops.Inside g 2 → ∃ t ∈ nestedReference.terms, t.header = g) ∧
    nestedLoad.misses = .bounded 1 ∧ nestedLoad.relativeTo = some 1 ∧
    (⟨0, 0, fun _ => 0, .empty⟩ : Situation nestedCache).Initial nestedGraph ∧
    Steps nestedGraph nestedTable ⟨0, 0, fun _ => 0, .empty⟩ [] nestedEntry ∧
    nestedEntry.block = 1 ∧ Rounds nestedGraph nestedTable 1 nestedEntry log t ∧
    Step nestedGraph nestedTable t none u ∧ ¬nestedGraph.loops.Inside 1 u.block ∧
    1 < log.countP fun z => z.isAt 2 0 && z.missed := by
  obtain ⟨log, t, u, hrun, hleave, hblock, hcount⟩ := rounds_nested
  refine ⟨log, t, u, build_nested, classify_nested, resolve_nested, table_nested, rfl, rfl,
    covers_nested, rfl, rfl, ⟨rfl, rfl, rfl, by decide⟩, steps_nested, rfl, hrun, hleave, ?_, ?_⟩
  · rw [hblock]
    decide
  · rw [hcount]
    decide

end Classification

end MissBound
