import MissBound.Classification
import MissBound.Proofs.Lru.Solution
import MissBound.Proofs.Machine.Access

/-!
Where the counts of a classification come from: each access of the table is reported once, in the
order of its block, with the counts that the sets concerned make of the state before it.
-/

namespace MissBound

namespace SetDomain

variable {D : SetDomain} {G : FlowGraph} {table : AccessTable} {p : Progress SetState}
  {s : SetState} {k : Nat} {as : List Access}

theorem getElem?_countBlock : (D.countBlock as s)[k]? = as[k]?.map fun a =>
    if D.classifies a.toDataUse then
      some (D.countMisses ((as.take k).foldl (fun s a => D.update s a.toDataUse) s) a.toDataUse)
    else none := by
  induction as generalizing s k with
  | nil => rfl
  | cons a as ih =>
    unfold countBlock
    cases k with
    | zero => rfl
    | succ k =>
      rw [List.getElem?_cons_succ, ih]
      rfl

/-- A set that has been run has a fixed point, from which all its counts are taken. -/
theorem run_ok {maxVisits : Nat} {counts : List (List (Option (Tally × MissCount)))}
    (h : D.run G table maxVisits = .ok counts) :
    ∃ p, (D.analysis table).solve G maxVisits = .ok p ∧ ∀ b < G.blockCount,
      counts[b]?.getD [] = D.countBlock (table.block b) (D.before table p b 0) := by
  unfold run at h
  obtain ⟨p, hp, h⟩ := bind_ok.mp h
  cases h
  refine ⟨p, hp, fun b hb => ?_⟩
  rw [List.getElem?_map, List.getElem?_range hb]
  rfl

end SetDomain

/-- An access always hits if all its trials do, and there is one. -/
theorem Tally.category_eq_alwaysHit {t : Tally} : t.category = .alwaysHit ↔
    t.notClassified = 0 ∧ t.alwaysHit = t.trials ∧ 0 < t.alwaysHit := by
  unfold category
  split
  · rename_i hpos
    exact ⟨fun h => (by cases h), fun h => absurd h.1 (by omega)⟩
  · rename_i hzero
    split
    · rename_i hall
      exact ⟨fun _ => ⟨by omega, hall⟩, fun _ => rfl⟩
    · rename_i hnot
      refine ⟨fun h => ?_, fun h => absurd h.2 hnot⟩
      split at h
      · cases h
      · split at h <;> cases h

namespace Classification

/-- The accesses of a block as they are reported. -/
def reported (accesses : List ClassifiedAccess) (b : Nat) : List ClassifiedAccess :=
  accesses.filter fun a => a.block == b

/-- The analysis of one set. -/
def domain (G : FlowGraph) (cache : Geometry) (cap set : Nat) : SetDomain :=
  ⟨⟨G.loops, cache, cap⟩, set⟩

/-- The counts of the access at position `k` of block `b` in all sets that classify it, from the
fixed points of the sets. -/
def perSet (G : FlowGraph) (cache : Geometry) (cap : Nat) (table : AccessTable)
    (solution : Nat → Progress SetState) (b k : Nat) (a : Access) : List (Tally × MissCount) :=
  (List.range cache.setCount).filterMap fun set =>
    let D := domain G cache cap set
    if D.classifies a.toDataUse then
      some (D.countMisses (D.before table (solution set) b k) a.toDataUse)
    else none

/-- The report on the access at position `k` of block `b`. -/
def report (G : FlowGraph) (cache : Geometry) (cap : Nat) (table : AccessTable)
    (solution : Nat → Progress SetState) (b k : Nat) (a : Access) : ClassifiedAccess :=
  let counts := countsOf G cap a (perSet G cache cap table solution b k a)
  { a with
    tally := counts.1
    misses := counts.2
    relativeTo := a.reference.chargedTo? G.loops a.block }

/-- What lies behind a classification. -/
structure Classified (G : FlowGraph) (boot : Boot) (limits : Limits) (memory : MemoryMap)
    (cache : Geometry) (table : AccessTable) (solution : Nat → Progress SetState)
    (accesses : List ClassifiedAccess) : Prop where
  resolved : ∃ p, resolve G boot limits = .ok p ∧
    AccessTable.build G boot limits memory p.inputs = .ok table
  solved : ∀ set < cache.setCount,
    ((domain G cache limits.cap set).analysis table).solve G limits.maxVisits = .ok (solution set)
  reported : ∀ b, reported accesses b =
    (table.block b).mapIdx fun k a => report G cache limits.cap table solution b k a

variable {G : FlowGraph} {caches : Caches} {memory : MemoryMap} {boot : Boot} {limits : Limits}
  {cache : Geometry} {table : AccessTable} {accesses : List ClassifiedAccess}

/-- Lists of reports that name their blocks are found again by block. -/
theorem filter_flatMap_range {f : Nat → List ClassifiedAccess} (hf : ∀ b, ∀ a ∈ f b, a.block = b)
    (n b : Nat) : reported ((List.range n).flatMap f) b = if b < n then f b else [] := by
  induction n with
  | zero => rfl
  | succ n ih =>
    have hlast : (f n).filter (fun a => a.block == b) = if b = n then f n else [] := by
      split
      · rename_i heq
        exact List.filter_eq_self.mpr fun a ha => by rw [hf n a ha, heq, beq_self_eq_true]
      · rename_i hne
        refine List.filter_eq_nil_iff.mpr fun a ha => ?_
        rw [hf n a ha, beq_iff_eq]
        exact Ne.symm hne
    rw [reported] at ih ⊢
    rw [List.range_succ, List.flatMap_append, List.filter_append, ih, List.flatMap_singleton, hlast]
    by_cases hn : b = n
    · subst hn
      simp
    · rw [if_neg hn, List.append_nil]
      by_cases hlt : b < n
      · rw [if_pos hlt, if_pos (by omega)]
      · rw [if_neg hlt, if_neg (by omega)]

theorem classified_of_classify (hcache : caches.dataCache = .ok cache)
    (h : classify G caches memory boot limits = .ok accesses) :
    ∃ table solution, Classified G boot limits memory cache table solution accesses := by
  unfold classify at h
  obtain ⟨cache', hcache', h⟩ := bind_ok.mp h
  cases hcache.symm.trans hcache'
  obtain ⟨p, hp, h⟩ := bind_ok.mp h
  obtain ⟨table, htable, h⟩ := bind_ok.mp h
  obtain ⟨lists, hlists, h⟩ := bind_ok.mp h
  cases h
  have hlen : lists.length = cache.setCount := by rw [length_of_mapM hlists, List.length_range]
  have hrun : ∀ set < cache.setCount, ∃ p,
      ((domain G cache limits.cap set).analysis table).solve G limits.maxVisits = .ok p ∧
        ∀ b < G.blockCount, (lists[set]?.getD [])[b]?.getD [] =
          (domain G cache limits.cap set).countBlock (table.block b)
            ((domain G cache limits.cap set).before table p b 0) := by
    intro set hset
    have hget := getElem?_of_mapM (i := set) hlists
    rw [List.getElem?_range hset] at hget
    obtain ⟨counts, hcounts, heq⟩ := Option.map_eq_some_iff.mp hget.symm
    rw [hcounts]
    exact SetDomain.run_ok heq.symm
  have : Nonempty (Progress SetState) := ⟨.start ((domain G cache 0 0).analysis table) G⟩
  choose! solution hsolved hcounts using hrun
  refine ⟨table, solution, ⟨p, hp, htable⟩, hsolved, fun b => ?_⟩
  have hblock : ∀ b, ∀ a ∈ classifyBlock G limits.cap (table.block b)
      (lists.map fun counts => counts[b]?.getD []), a.block = b := by
    intro b a ha
    obtain ⟨⟨a, k⟩, hmem, rfl⟩ := List.mem_map.mp ha
    exact AccessTable.block_eq_of_build htable
      (List.mem_of_getElem? (List.mem_zipIdx_iff_getElem?.mp hmem))
  unfold classifyTable
  rw [filter_flatMap_range hblock, List.mapIdx_eq_zipIdx_map]
  split
  · rename_i hb
    refine List.map_congr_left fun x hx => ?_
    obtain ⟨a, k⟩ := x
    have hget := List.mem_zipIdx_iff_getElem?.mp hx
    have hperSet : (lists.map fun counts => counts[b]?.getD []).filterMap
        (fun counts => counts[k]?.join) = perSet G cache limits.cap table solution b k a := by
      have hrange : lists = (List.range cache.setCount).map fun set => lists[set]?.getD [] := by
        refine List.ext_getElem (by simp [hlen]) fun i h₁ h₂ => ?_
        simp [h₁]
      rw [hrange, List.map_map, List.filterMap_map, perSet]
      refine List.filterMap_congr fun set hset => ?_
      rw [Function.comp, Function.comp, hcounts set (List.mem_range.mp hset) b hb,
        SetDomain.getElem?_countBlock, hget]
      rfl
    change _ = report G cache limits.cap table solution b k a
    unfold report
    rw [← hperSet]
  · rename_i hb
    have hnone : G.block? b = none := List.getElem?_eq_none (Nat.le_of_not_lt hb)
    rw [AccessTable.block_eq_nil_of_build htable hnone]
    rfl

theorem exists_classified (h : classify G caches memory boot limits = .ok accesses) :
    ∃ cache table solution, caches.dataCache = .ok cache ∧
      Classified G boot limits memory cache table solution accesses := by
  have hclassify := h
  unfold classify at h
  obtain ⟨cache, hcache, -⟩ := bind_ok.mp h
  obtain ⟨table, solution, C⟩ := classified_of_classify hcache hclassify
  exact ⟨cache, table, solution, hcache, C⟩

/-- Every access that is reported stands in the table. -/
theorem Classified.exists_report {solution : Nat → Progress SetState} {c : ClassifiedAccess}
    (C : Classified G boot limits memory cache table solution accesses) (hc : c ∈ accesses) :
    ∃ k a, (table.block a.block)[k]? = some a ∧
      c = report G cache limits.cap table solution a.block k a := by
  have hmem : c ∈ Classification.reported accesses c.block :=
    List.mem_filter.mpr ⟨hc, beq_self_eq_true _⟩
  obtain ⟨k, hk⟩ := List.getElem?_of_mem hmem
  rw [C.reported, List.getElem?_mapIdx] at hk
  obtain ⟨a, hget, heq⟩ := Option.map_eq_some_iff.mp hk
  have hblock : a.block = c.block := congrArg (·.block) heq
  exact ⟨k, a, hblock ▸ hget, hblock ▸ heq.symm⟩

section
variable {f : Tally → Nat} (hzero : f .zero = 0) (hadd : ∀ s t : Tally, f (s + t) = f s + f t)
include hzero hadd

theorem exists_pos_of_total {counts : List (Tally × MissCount)} (h : 0 < f (total counts).1) :
    ∃ c ∈ counts, 0 < f c.1 := by
  by_contra hnone
  have hsum : f (total counts).1 = 0 := by
    refine List.foldlRecOn (motive := fun acc : Tally × MissCount => f acc.1 = 0) _ _ hzero ?_
    intro acc hacc c hc
    have hc0 : f c.1 = 0 := Nat.eq_zero_of_not_pos fun hpos => hnone ⟨c, hc, hpos⟩
    rw [hadd, hacc, hc0]
  omega

/-- An outcome of an access is an outcome in some set, unless it is that of an access about which
nothing is known. -/
theorem exists_set_of_pos {solution : Nat → Progress SetState} {b k cap : Nat} {a : Access}
    (hunknown : f .unclassified = 0) (h : 0 < f (report G cache cap table solution b k a).tally) :
    ∃ set < cache.setCount, 0 < f ((domain G cache cap set).countMisses
      ((domain G cache cap set).before table (solution set) b k) a.toDataUse).1 := by
  change 0 < f (countsOf G cap a (perSet G cache cap table solution b k a)).1 at h
  unfold countsOf at h
  split at h
  · exact absurd h (hunknown ▸ Nat.lt_irrefl 0)
  · split at h
    · exact absurd h (hunknown ▸ Nat.lt_irrefl 0)
    · obtain ⟨c, hc, hpos⟩ := exists_pos_of_total hzero hadd h
      obtain ⟨set, hset, heq⟩ := List.mem_filterMap.mp hc
      obtain ⟨-, heq⟩ := Option.ite_none_right_eq_some.mp heq
      cases heq
      exact ⟨set, List.mem_range.mp hset, hpos⟩

end

/-- An access that always hits does so in some set. -/
theorem exists_set_of_alwaysHit {solution : Nat → Progress SetState} {b k cap : Nat} {a : Access}
    (h : (report G cache cap table solution b k a).category = .alwaysHit) :
    ∃ set < cache.setCount, 0 < ((domain G cache cap set).countMisses
      ((domain G cache cap set).before table (solution set) b k) a.toDataUse).1.alwaysHit :=
  exists_set_of_pos (f := Tally.alwaysHit) rfl (fun _ _ => rfl) rfl
    (Tally.category_eq_alwaysHit.mp h).2.2

end Classification

end MissBound
