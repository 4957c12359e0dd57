import MissBound.Proofs.ConditionalHit
import MissBound.Proofs.Conservation
import MissBound.Proofs.LoopMisses
import MissBound.Proofs.Lru.May

/-!
Always-miss accesses of programs whose addresses are constant or unknown. From an empty cache such
an access misses, with two exceptions: its block may have come into the cache by an unknown address
without any known address naming it before, and accesses that are skipped count as if they aged the
other blocks of their set.
-/

namespace MissBound

/-- Some trial of an access that always misses is a sure miss, if there is any trial. -/
theorem Tally.alwaysMiss_pos {t : Tally} (h : t.category = .alwaysMiss) (hpos : 0 < t.trials) :
    0 < t.alwaysMiss := by
  unfold category at h
  split_ifs at h
  simp only [trials] at *
  omega

namespace Classification

/-- An access met by a run. -/
structure Encounter where
  access : ClassifiedAccess
  /-- No guard skips the access. -/
  performed : Bool
  /-- The address used, if the access is performed. -/
  address : Nat

namespace Encounter

/-- The access is performed through the cache. -/
def uses (x : Encounter) : Bool := x.access.cached && x.performed

/-- The address of the access is known, and cached. -/
def names (x : Encounter) : Bool := x.access.cached && x.access.reference.isConstant

/-- The access is performed through the cache and finds its block there. -/
def hits {g : Geometry} (x : Encounter) (content : CacheContent g) : Bool :=
  x.uses && content.hits x.address

theorem uses_iff {x : Encounter} :
    x.uses = true ↔ x.access.cached = true ∧ x.performed = true := Bool.and_eq_true_iff

theorem names_iff {x : Encounter} :
    x.names = true ↔ x.access.cached = true ∧ ∃ c, x.access.reference = .const c := by
  rw [names, Bool.and_eq_true, Symbolic.isConstant_iff]

end Encounter

/-- The addresses that a run puts into the cache. -/
def used (items : List Encounter) : List Nat := (items.filter (·.uses)).map (·.address)

/-- A run with some visits meets `items`. An unknown address may be any. -/
structure Meets (accesses : List ClassifiedAccess) (visits : List Visit) (items : List Encounter) :
    Prop where
  trace : items.map (fun x => (x.access, x.performed)) = trace accesses visits
  touches : ∀ x ∈ items, ∃ counter, x.access.Touches counter x.address

/-- No known address is in the block of `address`. -/
def Unnamed (g : Geometry) (items : List Encounter) (address : Nat) : Prop :=
  ∀ z ∈ items, z.names = true → g.block z.address ≠ g.block address

/-- An access to another block of the set of `address` is skipped. -/
def Skips (g : Geometry) (items : List Encounter) (address : Nat) : Prop :=
  ∃ z ∈ items, z.names = true ∧ z.performed = false ∧ g.set z.address = g.set address ∧
    g.block z.address ≠ g.block address

/-- The last use of the block of `address` is one that the analysis does not see, as no known
address names the block, or one behind which an access to the same set is skipped. -/
def Overlooked (g : Geometry) (items : List Encounter) (address : Nat) : Prop :=
  ∃ u y v, items = u ++ y :: v ∧ y.uses = true ∧ g.block y.address = g.block address ∧
    (∀ z ∈ v, z.uses = true → g.block z.address ≠ g.block address) ∧
    (y.access.reference = .top ∧ Unnamed g items address ∨ Skips g v address)

instance (g : Geometry) (items : List Encounter) (address : Nat) :
    Decidable (Unnamed g items address) :=
  inferInstanceAs (Decidable (∀ z ∈ items, z.names = true → g.block z.address ≠ g.block address))

instance (g : Geometry) (items : List Encounter) (address : Nat) :
    Decidable (Skips g items address) :=
  inferInstanceAs (Decidable (∃ z ∈ items, z.names = true ∧ z.performed = false ∧
    g.set z.address = g.set address ∧ g.block z.address ≠ g.block address))

/-- A use is found among the ends of the list. -/
theorem overlooked_iff {g : Geometry} {items : List Encounter} {address : Nat} :
    (∃ w ∈ items.tails, ∃ y ∈ w.head?, y.uses = true ∧ g.block y.address = g.block address ∧
      (∀ z ∈ w.tail, z.uses = true → g.block z.address ≠ g.block address) ∧
      (y.access.reference = .top ∧ Unnamed g items address ∨ Skips g w.tail address)) ↔
    Overlooked g items address := by
  constructor
  · rintro ⟨w, hw, y, hy, h⟩
    obtain ⟨u, rfl⟩ := (List.mem_tails _ _).mp hw
    obtain ⟨v, rfl⟩ := List.head?_eq_some_iff.mp hy
    exact ⟨u, y, v, rfl, h⟩
  · rintro ⟨u, y, v, rfl, h⟩
    exact ⟨y :: v, (List.mem_tails _ _).mpr (List.suffix_append _ _), y, rfl, h⟩

instance (g : Geometry) (items : List Encounter) (address : Nat) :
    Decidable (Overlooked g items address) :=
  decidable_of_iff _ overlooked_iff

section
variable {D : SetDomain} {items u v : List Encounter} {x y : Encounter} {address b : Nat}
  {counter : Nat → Nat}

theorem address_eq {c : UInt32} (ht : x.access.Touches counter x.address)
    (hc : x.access.reference = .const c) : x.address = c.toNat := ht.eq_eval hc

theorem record?_of_names (ht : x.access.Touches counter x.address) (hx : x.names = true)
    (hset : D.cache.set x.address = D.set) :
    D.record? x.access.toDataUse = some (some (D.cache.block x.address)) := by
  obtain ⟨hcached, c, hc⟩ := Encounter.names_iff.mp hx
  rw [address_eq ht hc] at hset ⊢
  rw [SetDomain.record?_of_const hc hcached, if_pos hset]

theorem names_of_record? (ht : x.access.Touches counter x.address)
    (h : D.record? x.access.toDataUse = some (some b)) :
    x.names = true ∧ D.cache.set x.address = D.set ∧ D.cache.block x.address = b := by
  obtain ⟨hcached, c, hc, hset, hblock⟩ := SetDomain.exists_const_of_record? h
  rw [address_eq ht hc]
  exact ⟨Encounter.names_iff.mpr ⟨hcached, c, hc⟩, hset, hblock⟩

/-- The history that a run leaves if nothing was skipped. -/
def fullHistory (D : SetDomain) (items : List Encounter) : History :=
  D.history (items.map (·.access.toAccess))

theorem fullHistory_append : fullHistory D (u ++ y :: v) =
    fullHistory D v ++ ((D.record? y.access.toDataUse).toList ++ fullHistory D u) := by
  rw [fullHistory, List.append_cons, List.map_append, List.map_append, SetDomain.history_append,
    SetDomain.history_append, List.map_singleton, SetDomain.history_singleton]
  rfl

theorem mem_fullHistory (ht : x.access.Touches counter x.address) (hx : x ∈ items)
    (hnames : x.names = true) (hset : D.cache.set x.address = D.set) :
    some (D.cache.block x.address) ∈ fullHistory D items :=
  SetDomain.mem_history.mpr ⟨_, List.mem_map_of_mem hx, record?_of_names ht hnames hset⟩

/-- The blocks that the history names since a use of a block were used, unless one was skipped. -/
theorem age_le (htouches : ∀ x ∈ u ++ y :: v, ∃ counter, x.access.Touches counter x.address)
    (hplain : y.access.reference.Plain) (huses : y.uses = true)
    (hblock : D.cache.block y.address = D.cache.block address)
    (hset : D.cache.set address = D.set) (hskips : ¬Skips D.cache v address) :
    (fullHistory D (u ++ y :: v)).age (D.cache.block address) ≤
      (CacheContent.blocksIn D.cache (D.cache.set address) (used v)).toFinset.card := by
  have hcached : y.access.cached = true := (Encounter.uses_iff.mp huses).1
  obtain ⟨o, hrecord, hstop⟩ : ∃ o, D.record? y.access.toDataUse = some o ∧
      (o = none ∨ o = some (D.cache.block address)) := by
    rcases hplain.cases with htop | ⟨c, hc⟩
    · exact ⟨none, SetDomain.record?_of_top htop hcached, .inl rfl⟩
    · obtain ⟨counter, ht⟩ := htouches y (List.mem_append_right _ List.mem_cons_self)
      have hnames : y.names = true := Encounter.names_iff.mpr ⟨hcached, c, hc⟩
      refine ⟨_, record?_of_names ht hnames ?_, .inr (congrArg some hblock)⟩
      rw [D.cache.set_eq_of_block_eq hblock, hset]
  rw [fullHistory_append, hrecord, Option.toList_some, List.singleton_append, History.age,
    History.since_append hstop]
  refine Nat.le_trans (Finset.card_le_card fun o ho => ?_) (Finset.card_image_le (f := some))
  have ho := List.mem_toFinset.mp ho
  obtain ⟨hsome, hne⟩ : o ≠ none ∧ o ≠ some (D.cache.block address) := by
    simpa using List.mem_takeWhile_imp ho
  obtain ⟨z, rfl⟩ := Option.ne_none_iff_exists'.mp hsome
  obtain ⟨a, ha, hz⟩ := SetDomain.mem_history.mp (History.mem_of_mem_since ho)
  obtain ⟨x, hx, rfl⟩ := List.mem_map.mp ha
  obtain ⟨counter, ht⟩ := htouches x (List.mem_append_right _ (List.mem_cons_of_mem _ hx))
  obtain ⟨hnames, hset', rfl⟩ := names_of_record? ht hz
  have hperformed : x.performed = true := by
    by_contra hskipped
    refine hskips ⟨x, hx, hnames, Bool.eq_false_iff.mpr hskipped, hset'.trans hset.symm, ?_⟩
    exact fun heq => hne (congrArg some heq)
  have huses' : x.uses = true :=
    Encounter.uses_iff.mpr ⟨(Encounter.names_iff.mp hnames).1, hperformed⟩
  refine Finset.mem_image.mpr ⟨_, List.mem_toFinset.mpr (CacheContent.mem_blocksIn_filter.mpr ?_),
    rfl⟩
  exact ⟨x, hx, huses', hset'.trans hset.symm, rfl⟩

end

section
variable {G : FlowGraph} {boot : Boot} {limits : Limits} {memory : MemoryMap} {cache : Geometry}
  {table : AccessTable} {solution : Nat → Progress SetState} {accesses : List ClassifiedAccess}
  {a : Access} {b cap k : Nat} {c : UInt32}

/-- A constant access has a trial. -/
theorem trials_pos_of_const (hc : a.reference = .const c) :
    0 < (report G cache cap table solution b k a).tally.trials := by
  change 0 < (countsOf G cap a (perSet G cache cap table solution b k a)).1.trials
  cases henum : (Symbolic.affine ⟨[], c⟩).enumerable? G.loops cap with
  | none =>
    simp [countsOf, hc, henum, Symbolic.isTop, Symbolic.const, Tally.trials, Tally.unclassified]
  | some space =>
    obtain rfl : space = ⟨[]⟩ := (Option.some.inj (Option.filter_eq_some_iff.mp henum).1).symm
    rw [countsOf_eq hc henum, trials_total, sum_perSet hc Affine.canonical_const henum,
      Finset.sum_pos_iff]
    refine ⟨cache.set c.toNat, Finset.mem_range.mpr cache.set_lt, ?_⟩
    rw [if_pos, SetDomain.trials_const]
    · exact (congrArg List.length (if_pos rfl)).symm ▸ Nat.one_pos
    · rw [classifies_eq hc henum]
      exact (SetDomain.concerns_const (D := domain G cache cap (cache.set c.toNat))).mpr rfl

/-- Nothing is known of an access to an unknown address. -/
theorem exists_const_of_alwaysMiss (hplain : a.reference.Plain)
    (hcat : (report G cache cap table solution b k a).category = .alwaysMiss) :
    ∃ c, a.reference = .const c := by
  refine hplain.cases.resolve_left fun htop => ?_
  change (countsOf G cap a (perSet G cache cap table solution b k a)).1.category = _ at hcat
  simp [countsOf, htop, Symbolic.isTop, Tally.category, Tally.unclassified] at hcat

/-- The line of a constant access that always misses must have been evicted from its set. -/
theorem ways_le_of_alwaysMiss (hcached : a.cached = true) (hc : a.reference = .const c)
    (hcat : (report G cache cap table solution b k a).category = .alwaysMiss) :
    ∀ l ∈ ((domain G cache cap (cache.set c.toNat)).before table
        (solution (cache.set c.toNat)) b k).lines,
      l.isFor ((domain G cache cap (cache.set c.toNat)).tracked (cache.block c.toNat)) = true →
        cache.ways ≤ l.may := by
  obtain ⟨set, -, hmiss⟩ := exists_set_of_pos (f := Tally.alwaysMiss) rfl (fun _ _ => rfl) rfl
    (Tally.alwaysMiss_pos hcat (trials_pos_of_const hc))
  obtain ⟨hset, hmay⟩ := SetDomain.ways_le_may hcached hc hmiss
  obtain rfl : cache.set c.toNat = set := hset
  exact hmay

section
variable (C : Classified G boot limits memory cache table solution accesses)
include C

theorem plain_table (hplain : ∀ a ∈ accesses, a.reference.Plain) :
    ∀ b, ∀ a ∈ table.block b, a.reference.Plain := by
  intro b a ha
  rw [← map_reported C] at ha
  obtain ⟨r, hr, rfl⟩ := List.mem_map.mp ha
  exact hplain r (List.mem_of_mem_filter hr)

theorem regular_of_plain (hplain : ∀ a ∈ accesses, a.reference.Plain) : table.Regular G.loops := by
  intro b a ha
  rcases (plain_table C hplain b a ha).cases with htop | ⟨c, hc⟩
  · exact .inl htop
  · exact DataUse.regular_const hc

/-- Along every path the lines of a set keep up with what the path names. -/
theorem tracks_of_path (B : G.Built) (hplain : ∀ a ∈ accesses, a.reference.Plain) {set : Nat}
    (hset : set < cache.setCount) {bs : List Nat} (hchain : (bs ++ [b]).IsChain G.graph.Adjacent)
    (hfirst : (bs ++ [b]).head? = some G.entry) (hk : k ≤ (table.block b).length) :
    (domain G cache limits.cap set).Tracks
      ((domain G cache limits.cap set).history (bs.flatMap table.block ++ (table.block b).take k))
      ((domain G cache limits.cap set).before table (solution set) b k) := by
  have S : SetDomain.Solution (domain G cache limits.cap set) G table (solution set) :=
    ⟨B, rfl, regular_of_plain C hplain, _, C.solved set hset⟩
  obtain ⟨p, -, htable⟩ := C.resolved
  have hplaced := placed_of_build htable
  have htable := plain_table C hplain
  exact S.tracks_before hplaced htable (S.tracks_path hplaced htable hchain hfirst).2 hk

/-- An access met by a run, with those met before it. -/
theorem meets_split (B : G.Built) {visits : List Visit} (hroute : Route G visits)
    {pre post : List Encounter} {x : Encounter}
    (hmeets : Meets accesses visits (pre ++ x :: post)) :
    ∃ bs b k a, (bs ++ [b]).IsChain G.graph.Adjacent ∧ (bs ++ [b]).head? = some G.entry ∧
      pre.map (·.access.toAccess) = bs.flatMap table.block ++ (table.block b).take k ∧
      (table.block b)[k]? = some a ∧
      x.access = report G cache limits.cap table solution b k a := by
  have htrace := hmeets.trace
  rw [List.map_append, List.map_cons] at htrace
  obtain ⟨vs, v, vs', k, rfl, hpre, hget⟩ := trace_split htrace.symm
  have hlen : ∀ u ∈ vs ++ v :: vs', (reported accesses u.block).length = u.done.length :=
    fun u hu => length_reported B C hroute hu
  obtain ⟨hreport, -⟩ := List.getElem?_zip_eq_some.mp hget
  rw [C.reported, List.getElem?_mapIdx] at hreport
  obtain ⟨a, ha, hx⟩ := Option.map_eq_some_iff.mp hreport
  refine ⟨vs.map (·.block), v.block, k, a, hroute.isChain_blocks, hroute.head?_blocks, ?_, ha,
    hx.symm⟩
  have hmap := congrArg (List.map (·.1.toAccess)) hpre
  rw [List.map_map, List.map_append, map_trace C fun u hu => hlen u (List.mem_append_left _ hu),
    List.map_take, map_zip_reported C (hlen v (List.mem_append_right _ List.mem_cons_self))] at hmap
  exact hmap

end

theorem Meets.mem_accesses {visits : List Visit} {items : List Encounter} {x : Encounter}
    (hmeets : Meets accesses visits items) (hx : x ∈ items) : x.access ∈ accesses := by
  have hmem := List.mem_map_of_mem (f := fun x : Encounter => (x.access, x.performed)) hx
  rw [hmeets.trace] at hmem
  obtain ⟨v, -, hzip⟩ := List.mem_flatMap.mp hmem
  exact List.mem_of_mem_filter (List.of_mem_zip hzip).1

end

/-- In a program whose addresses are all constant or unknown, an access that is classified as always
missing does not find its block in the cache, whichever path a run takes and whichever guards fail,
if the cache was empty at the start and the last use of the block was not overlooked. Accesses that
are not cached touch nothing. -/
theorem miss_of_alwaysMiss {blocks : List Block} {edges : List (Nat × Nat)}
    {bounds : List (Nat × LoopBound)} {entry : Nat} {G : FlowGraph} {caches : Caches}
    {memory : MemoryMap} {boot : Boot} {limits : Limits} {cache : Geometry}
    {accesses : List ClassifiedAccess} {visits : List Visit} {pre post : List Encounter}
    {x : Encounter} (hG : FlowGraph.build blocks edges bounds entry = .ok G)
    (hcache : caches.dataCache = .ok cache)
    (hclassify : classify G caches memory boot limits = .ok accesses)
    (hplain : ∀ a ∈ accesses, a.reference.Plain) (hroute : Route G visits)
    (hmeets : Meets accesses visits (pre ++ x :: post)) (hcat : x.access.category = .alwaysMiss)
    (hseen : ¬Overlooked cache pre x.address) :
    x.hits ((CacheContent.empty : CacheContent cache).touchAll (used pre)) = false := by
  have B := FlowGraph.built_of_build hG
  obtain ⟨table, solution, C⟩ := classified_of_classify hcache hclassify
  obtain ⟨bs, b, k, a, hchain, hfirst, hpre, hget, haccess⟩ := meets_split C B hroute hmeets
  rw [← Bool.not_eq_true]
  intro hhit
  obtain ⟨huses, hhits⟩ := Bool.and_eq_true_iff.mp hhit
  obtain ⟨counter, ht⟩ := hmeets.touches x (by simp)
  have htouches : ∀ z ∈ pre, ∃ counter, z.access.Touches counter z.address := fun z hz =>
    hmeets.touches z (List.mem_append_left _ hz)
  rw [haccess] at hcat
  obtain ⟨c, hc⟩ := exists_const_of_alwaysMiss
    (plain_table C hplain b a (List.mem_of_getElem? hget)) hcat
  have haddress : x.address = c.toNat := address_eq ht (by rw [haccess]; exact hc)
  have hcached : a.cached = true := by
    rw [Encounter.uses_iff, haccess] at huses
    exact huses.1
  rw [haddress] at hhits hseen
  -- the lines of the set keep up with what the path has named in it
  have htracks := tracks_of_path C B hplain (cache.set_lt (x := c.toNat)) hchain hfirst
    (Nat.le_of_lt (List.getElem?_eq_some_iff.mp hget).1)
  rw [← hpre, ← fullHistory] at htracks
  obtain ⟨u, y, v, rfl, huses', hblock, hlast⟩ := CacheContent.exists_last_use hhits
  have hcard := (CacheContent.hits_iff_of_last hlast huses' hblock).mp hhits
  have hy := hplain _ (hmeets.mem_accesses (x := y) (by simp))
  have hnamed : some (cache.block c.toNat) ∈
      fullHistory (domain G cache limits.cap (cache.set c.toNat)) (u ++ y :: v) := by
    by_contra hnot
    have hunnamed : Unnamed cache (u ++ y :: v) c.toNat := by
      intro z hz hnames hblock
      obtain ⟨counter, ht⟩ := htouches z hz
      exact hnot (hblock ▸ mem_fullHistory ht hz hnames (cache.set_eq_of_block_eq hblock))
    rcases hy.cases with htop | ⟨d, hd⟩
    · exact hseen ⟨u, y, v, rfl, huses', hblock, hlast, .inl ⟨htop, hunnamed⟩⟩
    · refine hunnamed y (by simp) (Encounter.names_iff.mpr ⟨?_, d, hd⟩) hblock
      exact (Encounter.uses_iff.mp huses').1
  have hskips : ¬Skips cache v c.toNat := fun hskips =>
    hseen ⟨u, y, v, rfl, huses', hblock, hlast, .inr hskips⟩
  obtain ⟨l, hl, hfor, hle⟩ := htracks _ hnamed
  have hways := ways_le_of_alwaysMiss hcached hc hcat l hl hfor
  have hage := age_le (D := domain G cache limits.cap (cache.set c.toNat)) htouches hy huses' hblock
    rfl hskips
  exact absurd hcard (Nat.not_lt_of_le (hways.trans (hle.trans hage)))

/-- A loop over three blocks, more than their set has lines, behind a load from an unknown address
and one that may be skipped. -/
def turnBlocks : List Block :=
  [⟨0, [⟨0, [.load (.machine 2) (.machine 1) .int32, .literal (.temporary 0) 0x5000,
      .guarded (.machine 3) 1, .load (.machine 2) (.temporary 0) .int32], none⟩]⟩,
    ⟨4, [⟨4, [.literal (.temporary 0) 0x2000, .load (.machine 2) (.temporary 0) .int32,
      .literal (.temporary 0) 0x3000, .load (.machine 2) (.temporary 0) .int32,
      .literal (.temporary 0) 0x4000, .load (.machine 2) (.temporary 0) .int32], none⟩]⟩]

def turnGraph : FlowGraph where
  graph := ⟨turnBlocks, [⟨0, 1, ⟨false, [], true⟩⟩, ⟨1, 1, ⟨true, [], false⟩⟩]⟩
  entry := 0
  dominators := ⟨0, [some 0, some 0], [0, 1]⟩
  loops := ⟨[⟨⟨1, [1], [1]⟩, 0, none, [], .unknown⟩], [0, 1]⟩

/-- The first load of a program, from an unknown address. -/
def unknownLoad : ClassifiedAccess :=
  ⟨⟨⟨0, .top, true⟩, 0, .load, .int32, none⟩, .unclassified, .bounded 1, none⟩

def missingLoad (block instruction : Nat) (address : UInt32) (relativeTo : Option Nat) :
    ClassifiedAccess :=
  ⟨⟨⟨block, .const address, true⟩, instruction, .load, .int32, none⟩, ⟨0, 1, 0, 0, 0⟩, .bounded 1,
    relativeTo⟩

def turnAccesses : List ClassifiedAccess :=
  [unknownLoad, missingLoad 0 0 0x5000 none, missingLoad 1 4 0x2000 (some 1),
    missingLoad 1 4 0x3000 (some 1), missingLoad 1 4 0x4000 (some 1)]

/-- Two rounds of the loop; the load before it is skipped. -/
def turnVisits : List Visit :=
  [⟨0, [true, false]⟩, ⟨1, [true, true, true]⟩, ⟨1, [true, true, true]⟩]

theorem route_turn : Route turnGraph turnVisits := by
  have hfirst : MicroOp.Performs [.load (.machine 2) (.machine 1) .int32,
      .literal (.temporary 0) 0x5000, .guarded (.machine 3) 1,
      .load (.machine 2) (.temporary 0) .int32] [true, false] :=
    .memory rfl (.other rfl (.skip .done))
  have hround : MicroOp.Performs [.literal (.temporary 0) 0x2000,
      .load (.machine 2) (.temporary 0) .int32, .literal (.temporary 0) 0x3000,
      .load (.machine 2) (.temporary 0) .int32, .literal (.temporary 0) 0x4000,
      .load (.machine 2) (.temporary 0) .int32] [true, true, true] :=
    .other rfl (.memory rfl (.other rfl (.memory rfl (.other rfl (.memory rfl .done)))))
  have hback : turnGraph.graph.Adjacent 1 1 :=
    ⟨_, List.mem_cons_of_mem _ (List.mem_singleton_self _), rfl, rfl⟩
  refine ⟨fun v hv => (by cases hv; rfl),
    .cons_cons ⟨_, List.mem_cons_self, rfl, rfl⟩ (.cons_cons hback (.singleton _)), fun v hv => ?_⟩
  rcases List.mem_cons.mp hv with rfl | hv
  · exact ⟨_, rfl, .single hfirst⟩
  · obtain rfl : v = ⟨1, [true, true, true]⟩ := by simpa using hv
    exact ⟨_, rfl, .single hround⟩

theorem classify_turn : classify turnGraph ⟨none, some twoLines, false⟩ (.flat 10) .default
    smallLimits = .ok turnAccesses := by cbv

/-- A load of the loop. -/
def turnLoad (address : UInt32) : Encounter :=
  ⟨missingLoad 1 4 address (some 1), true, address.toNat⟩

/-- What is met up to the end of the first round. -/
def firstRound : List Encounter :=
  [⟨unknownLoad, true, 0x2000⟩, ⟨missingLoad 0 0 0x5000 none, false, 0x5000⟩, turnLoad 0x2000,
    turnLoad 0x3000, turnLoad 0x4000]

theorem touches_of_lt {x : Encounter} (h : x.address < 2 ^ 32 ∧
    (x.access.reference = .top ∨ x.access.reference = .const (.ofNat x.address))) :
    ∃ counter, x.access.Touches counter x.address := by
  obtain ⟨hlt, htop | hconst⟩ := h
  · exact ⟨fun _ => 0, .top htop hlt⟩
  · have heval : x.address = (Affine.eval ⟨[], .ofNat x.address⟩ fun _ => 0).toNat :=
      (UInt32.toNat_ofNat_of_lt hlt).symm
    refine ⟨fun _ => 0, ?_⟩
    rw [heval]
    exact .affine hconst

theorem meets_turn : Meets turnAccesses turnVisits
    (firstRound ++ turnLoad 0x2000 :: [turnLoad 0x3000, turnLoad 0x4000]) := by
  refine ⟨rfl, fun x hx => touches_of_lt ?_⟩
  revert x
  decide

/-- The unknown address is in the block of the first load of the loop, which finds it in the cache
in the first round. In the second round it misses. -/
theorem miss_of_alwaysMiss_second_round :
    (turnLoad 0x2000).access.category = .alwaysMiss ∧
    (turnLoad 0x2000).hits ((CacheContent.empty : CacheContent twoLines).touchAll
      (used (firstRound.take 2))) = true ∧
    ¬Overlooked twoLines firstRound 0x2000 ∧
    (turnLoad 0x2000).hits ((CacheContent.empty : CacheContent twoLines).touchAll
      (used firstRound)) = false := by
  have hG : FlowGraph.build turnBlocks [(0, 1), (1, 1)] [] 0 = .ok turnGraph := rfl
  have hseen : ¬Overlooked twoLines firstRound 0x2000 := by decide
  exact ⟨rfl, by decide, hseen,
    miss_of_alwaysMiss hG rfl classify_turn (by decide) route_turn meets_turn rfl hseen⟩

/-- A load from an unknown address, and one from a known address after it. -/
def coldBlocks : List Block :=
  [⟨0, [⟨0, [.load (.machine 2) (.machine 1) .int32, .literal (.temporary 0) 0x2000,
    .load (.machine 3) (.temporary 0) .int32], none⟩]⟩]

def coldGraph : FlowGraph := ⟨⟨coldBlocks, []⟩, 0, ⟨0, [some 0], [0]⟩, ⟨[], [0]⟩⟩

/-- An access that is classified as always missing hits if the unknown address before it is in the
same block. -/
theorem alwaysMiss_hits_after_unknown : ∃ pre x,
    FlowGraph.build coldBlocks [] [] 0 = .ok coldGraph ∧
    classify coldGraph ⟨none, some twoLines, false⟩ (.flat 10) .default smallLimits =
      .ok [unknownLoad, missingLoad 0 0 0x2000 none] ∧
    (∀ a ∈ [unknownLoad, missingLoad 0 0 0x2000 none], a.reference.Plain) ∧
    Route coldGraph [⟨0, [true, true]⟩] ∧
    Meets [unknownLoad, missingLoad 0 0 0x2000 none] [⟨0, [true, true]⟩] (pre ++ x :: []) ∧
    x.access.category = .alwaysMiss ∧
    x.hits ((CacheContent.empty : CacheContent twoLines).touchAll (used pre)) = true := by
  have hperforms : MicroOp.Performs [.load (.machine 2) (.machine 1) .int32,
      .literal (.temporary 0) 0x2000, .load (.machine 3) (.temporary 0) .int32] [true, true] :=
    .memory rfl (.other rfl (.memory rfl .done))
  refine ⟨[⟨unknownLoad, true, 0x2000⟩], ⟨missingLoad 0 0 0x2000 none, true, 0x2000⟩, rfl, rfl,
    by decide, ⟨fun v hv => (by cases hv; rfl), .singleton _, fun v hv => ?_⟩,
    ⟨rfl, fun x hx => touches_of_lt ?_⟩, rfl, by decide⟩
  · cases List.mem_singleton.mp hv
    exact ⟨_, rfl, .single hperforms⟩
  · revert x
    decide

end Classification

end MissBound
