import MissBound.Proofs.Counters
import MissBound.Proofs.Lru.Tallies

/-!
Every trial of an access is counted by one set and with one outcome. So the counts of all sets add
up to the iteration space of the access, and the misses reported fit the outcomes.
-/

namespace MissBound

/-- Elements are counted by what `f` makes of them. -/
theorem sum_countP {α : Type} {P : α → Bool} {f : α → Nat} {n : Nat} (xs : List α)
    (hf : ∀ x, P x = true → f x < n) :
    ∑ i ∈ Finset.range n, xs.countP (fun x => P x && f x == i) = xs.countP P := by
  induction xs with
  | nil => exact Finset.sum_eq_zero fun _ _ => rfl
  | cons x xs ih =>
    simp only [List.countP_cons]
    rw [Finset.sum_add_distrib, ih]
    refine congrArg (xs.countP P + ·) ?_
    cases hP : P x with
    | false => simp
    | true => simp [Finset.sum_ite_eq, hf x hP]

theorem sum_filterMap_range {α : Type} {g : Nat → Option α} {w : α → Nat} (n : Nat) :
    (((List.range n).filterMap g).map w).sum = ∑ i ∈ Finset.range n, ((g i).map w).getD 0 := by
  induction n with
  | zero => rfl
  | succ n ih =>
    rw [List.range_succ, List.filterMap_append, List.map_append, List.sum_append, ih,
      Finset.sum_range_succ]
    cases h : g n <;> simp [h]

/-- The misses of an access fit the outcomes of its trials. -/
structure MissCount.Fits (t : Tally) (m : MissCount) : Prop where
  tried : 1 ≤ t.trials
  none : m = .bounded 0 ↔ t.category = .alwaysHit
  unknown : m = .unbounded → t.category = .notClassified
  known : t.category ≠ .notClassified → ∃ n ≤ t.trials, m = .bounded n

theorem Coherent.fits {c : Tally × MissCount} (h : Coherent c) (hpos : 1 ≤ c.1.trials) :
    c.2.Fits c.1 := by
  obtain ⟨n, hn, hmisses, hzero⟩ := h.misses
  have hcategory : c.1.category = .alwaysHit ↔ c.1.alwaysHit = c.1.trials := by
    rw [Tally.category_eq_alwaysHit, h.classified]
    omega
  refine ⟨hpos, ?_, ?_, fun _ => ⟨n, hn, hmisses⟩⟩
  · rw [hmisses, hcategory, ← hzero, MissCount.bounded.injEq]
  · rw [hmisses]
    exact fun h => (by cases h)

theorem MissCount.fits_unclassified {m : MissCount} (h : m ≠ .bounded 0) : m.Fits .unclassified :=
  ⟨by decide, ⟨fun hm => absurd hm h, fun hc => absurd hc (by decide)⟩, fun _ => rfl,
    fun hc => absurd rfl hc⟩

namespace Classification

variable {G : FlowGraph} {caches : Caches} {memory : MemoryMap} {boot : Boot} {limits : Limits}
  {cache : Geometry} {table : AccessTable} {accesses : List ClassifiedAccess}
  {counts : List (Tally × MissCount)}

theorem coherent_total (h : ∀ c ∈ counts, Coherent c) : Coherent (total counts) :=
  List.foldlRecOn (motive := Coherent) _ _ .zero fun _ hacc c hc => hacc.add (h c hc)

theorem trials_total : (total counts).1.trials = (counts.map (·.1.trials)).sum := by
  have hfold : ∀ acc : Tally × MissCount,
      (counts.foldl (fun acc c => (acc.1 + c.1, acc.2 + c.2)) acc).1.trials =
        acc.1.trials + (counts.map (·.1.trials)).sum := by
    induction counts with
    | nil => exact fun _ => rfl
    | cons c counts ih =>
      intro acc
      rw [List.foldl_cons, ih, Tally.trials_add, List.map_cons, List.sum_cons, Nat.add_assoc]
  exact (hfold _).trans (Nat.zero_add _)

/-- Every trial lies in one set. -/
theorem sum_trials {e : Affine} {space : Odometer} {cap : Nat}
    (hspace : e.space? G.loops = some space) :
    ∑ set ∈ Finset.range cache.setCount, ((domain G cache cap set).trials e space).length =
      space.size := by
  have hcount : ∀ set, ((domain G cache cap set).trials e space).length =
      (Odometer.positions space.size space).countP fun o =>
        (o.eval? e).isSome && cache.set ((o.eval? e).getD 0) == set := by
    intro set
    rw [SetDomain.trials, List.length_filterMap_eq_countP]
    refine List.countP_congr fun o _ => ?_
    rw [Option.isSome_map, SetDomain.blockAt?, Option.isSome_map]
    cases o.eval? e with
    | none => rfl
    | some address =>
      rw [Option.filter_some]
      change Option.isSome (if cache.set address == set then _ else _) = true ↔
        (true && cache.set address == set) = true
      cases cache.set address == set <;> simp
  have hlt : ∀ o : Odometer, (o.eval? e).isSome = true →
      cache.set ((o.eval? e).getD 0) < cache.setCount := fun o _ => cache.set_lt
  have hall : ∀ o ∈ Odometer.positions space.size space, (o.eval? e).isSome = true := by
    intro o ho
    obtain ⟨d, -, heval⟩ := Odometer.eval?_of_mem_positions hspace ho
    rw [heval e rfl]
    rfl
  simp only [hcount]
  rw [sum_countP _ hlt, List.countP_eq_length.mpr hall, Odometer.length_positions]

section
variable {a : Access} {e : Affine} {space : Odometer} {cap b k set : Nat}
  {solution : Nat → Progress SetState} (href : a.reference = .affine e) (hcan : e.Canonical G.loops)
  (henum : (Symbolic.affine e).enumerable? G.loops cap = some space)
include href henum

theorem classifies_eq : (domain G cache cap set).classifies a.toDataUse =
    References.concerns ⟨G.loops, cache, cap⟩ (.affine e) set := by
  have hsome : ((Symbolic.affine e).enumerable? G.loops cap).isSome = true := by rw [henum]; rfl
  rw [SetDomain.classifies, href]
  exact (congrArg (· && _) hsome).trans (Bool.true_and _)

theorem countsOf_eq : countsOf G cap a counts = total counts := by
  simp [countsOf, href, henum, Symbolic.isTop]

include hcan

theorem coherent_perSet : ∀ c ∈ perSet G cache cap table solution b k a, Coherent c := by
  intro c hc
  obtain ⟨set, -, heq⟩ := List.mem_filterMap.mp hc
  obtain ⟨-, heq⟩ := Option.ite_none_right_eq_some.mp heq
  cases heq
  exact (SetDomain.coherent_countMisses (D := domain G cache cap set) href hcan henum).1

/-- The sets that an access concerns count their trials. -/
theorem sum_perSet : ((perSet G cache cap table solution b k a).map (·.1.trials)).sum =
    ∑ set ∈ Finset.range cache.setCount,
      if (domain G cache cap set).classifies a.toDataUse then
        ((domain G cache cap set).trials e space).length else 0 := by
  rw [perSet, sum_filterMap_range]
  refine Finset.sum_congr rfl fun set _ => ?_
  simp only
  split
  · exact (SetDomain.coherent_countMisses (D := domain G cache cap set) href hcan henum).2
  · rfl

/-- If the addresses span less than the address space, no trial lies in a set that is not
concerned. -/
theorem trials_eq_nil (hnarrow : e.Narrow G.loops)
    (hclass : (domain G cache cap set).classifies a.toDataUse = false) :
    (domain G cache cap set).trials e space = [] := by
  by_contra hne
  obtain ⟨⟨o, x⟩, hmem⟩ := List.exists_mem_of_ne_nil _ hne
  obtain ⟨ho, hblock⟩ := SetDomain.mem_trials.mp hmem
  obtain ⟨address, heval, hset, -⟩ := SetDomain.blockAt?_eq_some.mp hblock
  obtain ⟨d, hd, heval'⟩ :=
    Odometer.eval?_of_mem_positions (Option.filter_eq_some_iff.mp henum).1 ho
  cases heval.symm.trans (heval' e rfl)
  have hconcerns := References.concerns_of_set (R := ⟨G.loops, cache, cap⟩) hcan hnarrow hd hset
  rw [classifies_eq href henum] at hclass
  cases hclass.symm.trans hconcerns

/-- Some set counts a trial, whether or not the addresses run past the end of the address space. -/
theorem exists_trial_of_bounds (hbounds : ∀ h n, G.loops.maxIteration? h = some n → 1 ≤ n) :
    ∃ set < cache.setCount, (domain G cache cap set).classifies a.toDataUse = true ∧
      1 ≤ ((domain G cache cap set).trials e space).length := by
  have hspace : e.space? G.loops = some space := (Option.filter_eq_some_iff.mp henum).1
  obtain ⟨c, hc, hconcerns⟩ := References.concerns_lowest (R := ⟨G.loops, cache, cap⟩) hcan
    (Odometer.isSome_of_space? hspace) hbounds
  refine ⟨cache.set (e.eval c).toNat, cache.set_lt, ?_, ?_⟩
  · rw [classifies_eq href henum]
    exact hconcerns
  · apply List.length_pos_of_mem
      (a := (⟨Odometer.setTo c space.wheels⟩, cache.block (e.eval c).toNat))
    apply SetDomain.mem_trials.mpr
    refine ⟨Odometer.setTo_mem_positions hspace hc, ?_⟩
    exact SetDomain.blockAt?_eq_some.mpr ⟨_, Odometer.eval?_space hspace, rfl, rfl⟩

end

theorem unknownMisses_ne {b : Nat} (hbounds : ∀ h n, G.loops.maxIteration? h = some n → 1 ≤ n) :
    unknownMisses G b ≠ .bounded 0 := by
  cases hinner : G.loops.innermostHeader? b with
  | none => simp [unknownMisses, hinner]
  | some h =>
    cases hn : G.loops.maxIteration? h with
    | none => simp [unknownMisses, hinner, hn]
    | some n =>
      have hpos := hbounds h n hn
      simp [unknownMisses, hinner, hn]
      omega

section
variable {blocks : List Block} {edges : List (Nat × Nat)} {bounds : List (Nat × LoopBound)}
  {entry : Nat} {c : ClassifiedAccess}

/-- The trials of an access with known bounds, few enough to be enumerated and with addresses that
span less than the address space, are all classified and as many as the iterations of its loops. -/
theorem trials_conserved {n : Nat → Nat} (hG : FlowGraph.build blocks edges bounds entry = .ok G)
    (hclassify : classify G caches memory boot limits = .ok accesses) (hc : c ∈ accesses)
    (htop : c.reference ≠ .top)
    (hn : ∀ t ∈ c.reference.terms, G.loops.maxIteration? t.header = some (n t.header))
    (hcap : (c.reference.terms.map fun t => n t.header).prod ≤ limits.cap)
    (hextent : (c.reference.terms.map fun t => t.coef.natAbs * (n t.header - 1)).sum < 2 ^ 32) :
    c.tally.trials = (c.reference.terms.map fun t => n t.header).prod ∧
      c.tally.notClassified = 0 := by
  obtain ⟨cache, table, solution, k, a, hscoped, rfl⟩ :=
    exists_scoped_report (FlowGraph.built_of_build hG) hclassify hc
  obtain ⟨e, href, hcan, -⟩ := hscoped.resolve_left htop
  have hterms : a.reference.terms = e.terms := by rw [href]; rfl
  simp only [report, hterms] at hn hcap hextent ⊢
  obtain ⟨space, hspace, hsize⟩ := Odometer.exists_space? hn
  have henum : (Symbolic.affine e).enumerable? G.loops limits.cap = some space :=
    Option.filter_eq_some_iff.mpr
      ⟨hspace, decide_eq_true ((Nat.min_le_right ..).trans (hsize ▸ hcap))⟩
  have hnarrow : e.Narrow G.loops := by
    intro _
    refine Nat.lt_of_le_of_lt (Nat.le_of_eq ?_) hextent
    refine congrArg List.sum (List.map_congr_left fun t ht => ?_)
    rw [hn t ht, Option.getD_some]
  rw [countsOf_eq href henum]
  refine ⟨?_, (coherent_total (coherent_perSet href hcan henum)).classified⟩
  calc
    _ = ∑ set ∈ Finset.range cache.setCount,
        if (domain G cache limits.cap set).classifies a.toDataUse then
          ((domain G cache limits.cap set).trials e space).length else 0 := by
      rw [trials_total, sum_perSet href hcan henum]
    _ = ∑ set ∈ Finset.range cache.setCount,
        ((domain G cache limits.cap set).trials e space).length := by
      refine Finset.sum_congr rfl fun set _ => ?_
      cases hclass : (domain G cache limits.cap set).classifies a.toDataUse with
      | true => rfl
      | false => simp [trials_eq_nil href hcan henum hnarrow hclass]
    _ = space.size := sum_trials hspace
    _ = _ := hsize

/-- Two sets of two lines of four bytes. -/
def exitCache : Geometry := SetDomain.pairDomain.cache

def exitLoad : ClassifiedAccess :=
  ⟨⟨⟨2, .affine ⟨[⟨4, 2⟩, ⟨8, 1⟩], 0x1000⟩, true⟩, 8, .load, .int32, none⟩, ⟨0, 2, 0, 4, 0⟩,
    .bounded 6, some 1⟩

def exitAccesses : List ClassifiedAccess :=
  [exitLoad,
    ⟨⟨⟨3, .const 0x1018, true⟩, 16, .load, .int32, none⟩, ⟨0, 1, 0, 0, 0⟩, .bounded 1, none⟩,
    ⟨⟨⟨3, .const 0x1018, true⟩, 20, .load, .int32, none⟩, ⟨1, 0, 0, 0, 0⟩, .bounded 0, none⟩,
    ⟨⟨⟨3, .top, true⟩, 24, .load, .int32, none⟩, ⟨0, 0, 0, 0, 1⟩, .bounded 1, none⟩]

theorem classify_exit : classify exitGraph ⟨none, some exitCache, false⟩ (.flat 10) .default
    exitLimits = .ok exitAccesses := by cbv

/-- The sets share the six trials of the load in the two loops. -/
theorem trials_conserved_shared : exitLoad.tally.trials = 6 ∧ exitLoad.tally.notClassified = 0 :=
  trials_conserved (n := fun h => if h = 1 then 3 else 2) build_exit classify_exit
    List.mem_cons_self (by decide) (by decide) (by decide) (by decide)

/-- If no loop is bounded by zero iterations, every access has a trial, and its misses fit the
outcomes of its trials. -/
theorem misses_fit_trials (hG : FlowGraph.build blocks edges bounds entry = .ok G)
    (hclassify : classify G caches memory boot limits = .ok accesses)
    (hbounds : ∀ h n, G.loops.maxIteration? h = some n → 1 ≤ n) (hc : c ∈ accesses) :
    c.misses.Fits c.tally := by
  obtain ⟨cache, table, solution, k, a, hscoped, rfl⟩ :=
    exists_scoped_report (FlowGraph.built_of_build hG) hclassify hc
  simp only [report]
  rcases hscoped with htop | ⟨e, href, hcan, -⟩
  · have hcounts : countsOf G limits.cap a (perSet G cache limits.cap table solution a.block k a) =
        (.unclassified, unknownMisses G a.block) := by
      simp [countsOf, htop, Symbolic.isTop]
    rw [hcounts]
    exact MissCount.fits_unclassified (unknownMisses_ne hbounds)
  · cases henum : (Symbolic.affine e).enumerable? G.loops limits.cap with
    | none =>
      have hcounts : countsOf G limits.cap a
          (perSet G cache limits.cap table solution a.block k a) = (.unclassified, .unbounded) := by
        simp [countsOf, href, henum, Symbolic.isTop]
      rw [hcounts]
      exact MissCount.fits_unclassified fun h => (by cases h)
    | some space =>
      rw [countsOf_eq href henum]
      apply (coherent_total (coherent_perSet href hcan henum)).fits
      obtain ⟨set, hset, hclass, htrial⟩ := exists_trial_of_bounds href hcan henum hbounds
      rw [trials_total, sum_perSet href hcan henum]
      refine Nat.le_trans ?_ (Finset.single_le_sum (fun _ _ => Nat.zero_le _)
        (Finset.mem_range.mpr hset))
      rwa [if_pos hclass]

/-- A load in the loops, two behind them and one from an unknown address. -/
theorem misses_fit_trials_exit :
    (exitAccesses.map fun c => (c.category, c.misses)) = [(.persistent, .bounded 6),
      (.alwaysMiss, .bounded 1), (.alwaysHit, .bounded 0), (.notClassified, .bounded 1)] ∧
    ∀ c ∈ exitAccesses, c.misses.Fits c.tally := by
  refine ⟨by decide, fun c hc => misses_fit_trials build_exit classify_exit ?_ hc⟩
  intro h n hn
  have hall : ∀ l ∈ exitGraph.loops.loops, ∀ n ∈ l.bound.max, 1 ≤ n := by decide
  rw [LoopForest.maxIteration?, LoopForest.boundOf] at hn
  cases hl : exitGraph.loops.loopAt? h with
  | none => simp [hl, LoopBound.unknown] at hn
  | some l =>
    rw [hl] at hn
    exact hall l (List.mem_of_find?_eq_some hl) n hn

end

end Classification

end MissBound
