import MissBound.Proofs.Lru.Persistence
import MissBound.Proofs.Lru.Tallies

/-!
Lower bounds on ages, where every address is constant or unknown. A history of a set lists the
blocks that were used on a path, without the blocks behind unknown addresses. The bound of a line is
no more than the number of blocks that the history names since the line was used or an unknown
address was. A block that no known address has named has no line, so that nothing is claimed of it.
-/

namespace MissBound

/-- The uses of a set, the latest first: the block of a known address, nothing for an unknown
one. -/
abbrev History : Type := List (Option Nat)

namespace History

variable {hist : History} {x y : Nat}

/-- The blocks used since `x`, as far back as all addresses are known. -/
def since (x : Nat) (hist : History) : History :=
  hist.takeWhile fun o => o != none && o != some x

/-- How many blocks were used since `x` for certain. -/
def age (x : Nat) (hist : History) : Nat := (since x hist).toFinset.card

@[simp] theorem since_none : since x (none :: hist) = [] := rfl

@[simp] theorem since_self : since x (some x :: hist) = [] := by simp [since]

theorem since_cons (h : y ≠ x) : since x (some y :: hist) = some y :: since x hist := by
  simp [since, h]

@[simp] theorem age_none : age x (none :: hist) = 0 := by simp [age]

@[simp] theorem age_self : age x (some x :: hist) = 0 := by simp [age]

theorem age_cons (h : y ≠ x) :
    age x (some y :: hist) = (insert (some y) (since x hist).toFinset).card := by
  simp [age, since_cons h]

theorem mem_of_mem_since {o : Option Nat} (h : o ∈ since x hist) : o ∈ hist :=
  List.takeWhile_subset _ h

/-- A use of `x` or of an unknown address ends the search. -/
theorem since_append {newer : History} {o : Option Nat} (h : o = none ∨ o = some x) :
    since x (newer ++ o :: hist) = since x newer := by
  induction newer with
  | nil => rcases h with rfl | rfl <;> simp [since]
  | cons z newer ih =>
    rw [since, since, List.cons_append, List.takeWhile_cons, List.takeWhile_cons,
      ← since, ← since, ih]

theorem self_notMem_since : some x ∉ since x hist := fun h => by
  simpa using List.mem_takeWhile_imp h

theorem since_subset (h : some y ∈ since x hist) : since y hist ⊆ since x hist := by
  induction hist with
  | nil => cases h
  | cons o hist ih =>
    cases o with
    | none => simp at h
    | some z =>
      by_cases hzx : z = x
      · simp [hzx] at h
      · by_cases hzy : z = y
        · simp [hzy]
        · rw [since_cons hzx] at h ⊢
          rw [since_cons hzy]
          have hy := (List.mem_cons.mp h).resolve_left fun heq => hzy (Option.some.inj heq).symm
          exact List.cons_subset_cons _ (ih hy)

/-- A block used since `x` is younger. -/
theorem age_lt (h : some y ∈ since x hist) : age y hist < age x hist := by
  apply Finset.card_lt_card
  apply (Finset.ssubset_iff_of_subset fun o ho => ?_).mpr
  · exact ⟨some y, List.mem_toFinset.mpr h, fun hy => self_notMem_since (List.mem_toFinset.mp hy)⟩
  · exact List.mem_toFinset.mpr (since_subset h (List.mem_toFinset.mp ho))

/-- The use of another block, whose own age `used` bounds from below, makes a block older by no more
than a lower bound grows. -/
theorem step_le_age {ways used may : Nat} (hne : y ≠ x) (hmay : may ≤ age x hist)
    (hused : some y ∈ hist → used ≤ age y hist) :
    Age.step ways used may ≤ age x (some y :: hist) := by
  rw [age_cons hne, Age.step]
  by_cases hy : some y ∈ since x hist
  · have hlt := age_lt hy
    have hle := hused (mem_of_mem_since hy)
    rw [Finset.insert_eq_of_mem (List.mem_toFinset.mpr hy), ← age]
    split <;> omega
  · rw [Finset.card_insert_of_notMem fun h => hy (List.mem_toFinset.mp h), ← age]
    split <;> omega

end History

namespace SetDomain

variable {D : SetDomain} {G : FlowGraph} {table : AccessTable} {p : Progress SetState}
  {hist : History} {s : SetState} {l : Line} {ls : List Line} {v : Symbolic} {a : DataUse}
  {b k x y : Nat} {c : UInt32}

/-- The reference by which a memory block is tracked. -/
def tracked (D : SetDomain) (x : Nat) : Symbolic :=
  .const (UInt32.ofNat (x <<< D.cache.blockBits))

theorem normalize_const : D.normalize (.const c) = D.tracked (D.cache.block c.toNat) := rfl

/-- Every block of the history has a line that claims no more than its age. -/
def Tracks (D : SetDomain) (hist : History) (s : SetState) : Prop :=
  ∀ x, some x ∈ hist → ∃ l ∈ s.lines, l.isFor (D.tracked x) = true ∧ l.may ≤ hist.age x

theorem tracks_nil : D.Tracks [] s := fun _ hx => (by cases hx)

theorem useAges_snd_le (hasc : D.Ascending ls) (hl : l ∈ ls) (hfor : l.isFor v = true) :
    (D.useAges v ls).2 ≤ l.may := by
  have hfold : ∀ (rest : List Line) (u : Nat × Nat),
      (rest.foldl (fun (u : Nat × Nat) l =>
        (if Age.isAlive D.ways l.must && u.1 < D.ways then max u.1 l.must else u.1,
          min u.2 l.may)) u).2 ≤ u.2 := by
    intro rest
    induction rest with
    | nil => exact fun u => Nat.le_refl _
    | cons m rest ih => exact fun u => Nat.le_trans (ih _) (Nat.min_le_left _ _)
  unfold useAges
  cases hfind : ls.find? (·.isFor v) with
  | none => exact absurd hfor (List.find?_eq_none.mp hfind l hl)
  | some m =>
    have hm : m.isFor v = true := by simpa using List.find?_some hfind
    obtain ⟨hr, hg⟩ := isFor_iff.mp hfor
    obtain ⟨hr', hg'⟩ := isFor_iff.mp hm
    cases hasc.eq (List.mem_of_find?_eq_some hfind) hl (hr'.trans hr.symm) (hg'.trans hg.symm)
    exact hfold _ _

/-- A use of a block puts it at the head of the history. -/
theorem tracks_use (hasc : D.Ascending s.lines) (h : D.Tracks hist s) :
    D.Tracks (some y :: hist) (.known (D.use (D.tracked y) b s.lines)) := by
  intro x hx
  by_cases hxy : y = x
  · subst hxy
    obtain ⟨l, hl, hfor, hmay, -⟩ := exists_use_self (D := D) (v := D.tracked y) (b := b) (j := 0)
    exact ⟨l, hl, hfor, hmay ▸ Nat.zero_le _⟩
  · have hx := (List.mem_cons.mp hx).resolve_left fun heq => hxy (Option.some.inj heq).symm
    obtain ⟨m, hm, hfor, hle⟩ := h x hx
    have hmem := mem_use_of_mem (D := D) (v := D.tracked y) (b := b) hm
    split at hmem
    · exact ⟨_, hmem, hfor, Nat.zero_le _⟩
    · refine ⟨_, hmem, hfor, History.step_le_age hxy hle fun hy => ?_⟩
      obtain ⟨o, ho, hforo, hleo⟩ := h y hy
      exact Nat.le_trans (useAges_snd_le hasc ho hforo) hleo

/-- After a use of an unknown address nothing is claimed of any line. -/
theorem tracks_useUnknown (h : D.Tracks hist s) :
    D.Tracks (none :: hist) (.known (D.useUnknown s.lines)) := by
  intro x hx
  have hx := (List.mem_cons.mp hx).resolve_left fun heq => (by cases heq)
  obtain ⟨m, hm, hfor, -⟩ := h x hx
  exact ⟨_, List.mem_map_of_mem hm, hfor, Nat.zero_le _⟩

theorem range?_const : D.refs.range? (.const c) = some (c.toNat, c.toNat) := by
  have hplace : ((c.toNat : Int) % 0x100000000).toNat = c.toNat := by
    have := c.toNat_lt
    omega
  simp [References.range?, Symbolic.span?, Symbolic.affine?, Symbolic.const, Affine.span?,
    Affine.reach?, hplace]

/-- A constant concerns its own set only. -/
theorem concerns_const : D.refs.concerns (.const c) D.set = true ↔ D.cache.set c.toNat = D.set := by
  have hblocks : D.refs.blockRange? (.affine ⟨[], c⟩) =
      some (D.cache.block c.toNat, D.cache.block c.toNat) := by
    rw [References.blockRange?, ← Symbolic.const, range?_const]
    rfl
  have hinside : D.cache.set c.toNat = D.set → D.refs.inSetInterval (D.cache.block c.toNat)
      (D.cache.block c.toNat) D.set = true := by
    intro hset
    rw [← hset]
    simp [References.inSetInterval, Geometry.set, cache]
  rw [Symbolic.const, References.concerns, hblocks]
  simp only [List.all_nil, if_true]
  split
  · rename_i hout
    refine iff_of_false Bool.false_ne_true fun hset => ?_
    simp [hinside hset] at hout
  · exact beq_iff_eq

theorem update_of_const (hc : a.reference = .const c) (hcached : a.cached = true) :
    D.update s a = if D.cache.set c.toNat = D.set then
      .known (D.use (D.tracked (D.cache.block c.toNat)) a.block s.lines) else s :=
  (update_of_affine hc hcached).trans (if_congr concerns_const rfl rfl)

/-- What an access adds to the history of the set. -/
def record? (D : SetDomain) (a : DataUse) : Option (Option Nat) :=
  if a.cached then
    match a.reference.constant? with
    | some c => if D.cache.set c.toNat = D.set then some (some (D.cache.block c.toNat)) else none
    | none => some none
  else none

theorem record?_of_const (hc : a.reference = .const c) (hcached : a.cached = true) :
    D.record? a =
      if D.cache.set c.toNat = D.set then some (some (D.cache.block c.toNat)) else none := by
  rw [record?, hcached, hc]
  rfl

theorem record?_of_top (ha : a.reference = .top) (hcached : a.cached = true) :
    D.record? a = some none := by
  rw [record?, hcached, ha]
  rfl

theorem exists_const_of_record? (h : D.record? a = some (some x)) : a.cached = true ∧
    ∃ c, a.reference = .const c ∧ D.cache.set c.toNat = D.set ∧ D.cache.block c.toNat = x := by
  obtain ⟨hcached, h⟩ := Option.ite_none_right_eq_some.mp h
  refine ⟨hcached, ?_⟩
  split at h
  · rename_i c hc
    obtain ⟨hset, hx⟩ := Option.ite_none_right_eq_some.mp h
    exact ⟨c, Symbolic.constant?_eq_some.mp hc, hset, Option.some.inj (Option.some.inj hx)⟩
  · cases h

theorem tracks_update (ha : a.reference.Plain) (hasc : D.Ascending s.lines) (h : D.Tracks hist s) :
    D.Tracks ((D.record? a).toList ++ hist) (D.update s a) := by
  cases hcached : a.cached with
  | false =>
    rw [update_of_uncached hcached]
    simpa [record?, hcached] using h
  | true =>
    rcases ha.cases with htop | ⟨c, hc⟩
    · rw [update_of_top htop hcached, record?_of_top htop hcached]
      exact tracks_useUnknown h
    · rw [update_of_const hc hcached, record?_of_const hc hcached]
      split
      · exact tracks_use hasc h
      · exact h

/-- The history that some accesses leave. -/
def history (D : SetDomain) (as : List Access) : History :=
  (as.filterMap fun a => D.record? a.toDataUse).reverse

theorem history_append {as bs : List Access} :
    D.history (as ++ bs) = D.history bs ++ D.history as := by
  simp [history]

theorem mem_history {as : List Access} {o : Option Nat} :
    o ∈ D.history as ↔ ∃ a ∈ as, D.record? a.toDataUse = some o := by
  rw [history, List.mem_reverse, List.mem_filterMap]

theorem history_singleton {a : Access} : D.history [a] = (D.record? a.toDataUse).toList := by
  cases h : D.record? a.toDataUse <;> simp [history, h]

namespace Solution

variable (S : Solution D G table p) (hplaced : table.Placed)
  (hplain : ∀ b, ∀ a ∈ table.block b, a.reference.Plain)
include S hplaced

/-- Lines of constant references go along every edge. -/
theorem tracks_edge {e : Edge Crossing} (he : e ∈ G.graph.edges)
    (hr : G.graph.Reaches G.entry e.source)
    (h : D.Tracks hist (D.before table p e.source (table.block e.source).length)) :
    D.Tracks hist (D.before table p e.target 0) := by
  intro x hx
  obtain ⟨m, hm, hfor, hle⟩ := h x hx
  obtain ⟨href, hgen⟩ := isFor_iff.mp hfor
  have hlevel : 0 + e.label.exited.length ≤ D.loops.depthAt e.source := by
    obtain ⟨n, hsource, -⟩ := S.built.depthAt_cross he hr
    rw [S.loops, hsource]
    exact Nat.add_le_add_right (Nat.zero_le n) _
  obtain ⟨l, hl, hlm⟩ := S.succeeds_edge hplaced he hr hlevel hm (hgen ▸ D.cache.ways_pos)
    fun h _ heq => by rw [href] at heq; cases heq
  refine ⟨l, hl, isFor_iff.mpr ⟨hlm.reference.trans href, hlm.generation.trans hgen⟩, ?_⟩
  exact Nat.le_trans hlm.may hle

include hplain

theorem tracks_before {done : List Access}
    (h : D.Tracks (D.history done) (D.before table p b 0)) (hk : k ≤ (table.block b).length) :
    D.Tracks (D.history (done ++ (table.block b).take k)) (D.before table p b k) := by
  induction k with
  | zero => simpa using h
  | succ k ih =>
    have hget : (table.block b)[k]? = some (table.block b)[k] := List.getElem?_eq_getElem hk
    rw [List.take_add_one, hget, Option.toList_some, ← List.append_assoc, history_append,
      history_singleton, before_succ hget]
    apply tracks_update (hplain b _ (List.getElem_mem hk))
    · exact (S.tidy_before hplaced).ascending
    · exact ih (Nat.le_of_lt hk)

/-- Along every path from the entry the lines keep up with the history of the path. -/
theorem tracks_path {bs : List Nat} (hchain : (bs ++ [b]).IsChain G.graph.Adjacent)
    (hfirst : (bs ++ [b]).head? = some G.entry) :
    G.graph.Reaches G.entry b ∧
      D.Tracks (D.history (bs.flatMap table.block)) (D.before table p b 0) := by
  induction bs using List.reverseRecOn generalizing b with
  | nil =>
    cases hfirst
    exact ⟨.refl, tracks_nil⟩
  | append_singleton bs n ih =>
    obtain ⟨hchain', -, hadj⟩ := List.isChain_append.mp hchain
    have hadj : G.graph.Adjacent n b := hadj n (by simp) b rfl
    have hfirst' : (bs ++ [n]).head? = some G.entry := by
      rw [List.head?_append] at hfirst
      cases hb : (bs ++ [n]).head? with
      | none => simp at hb
      | some m => rwa [hb] at hfirst
    obtain ⟨hr, h⟩ := ih hchain' hfirst'
    have hend := S.tracks_before hplaced hplain h (Nat.le_refl _)
    rw [List.take_length] at hend
    obtain ⟨e, he, rfl, rfl⟩ := hadj
    refine ⟨hr.step ⟨e, he, rfl, rfl⟩, ?_⟩
    rw [List.flatMap_append, List.flatMap_singleton]
    exact S.tracks_edge hplaced he hr hend

end Solution

section
variable {e : Affine} {space : Odometer}

/-- The only trial of a constant. -/
theorem trials_const : D.trials ⟨[], c⟩ ⟨[]⟩ =
    if D.cache.set c.toNat = D.set then [(⟨[]⟩, D.cache.block c.toNat)] else [] := by
  have heval : Odometer.eval? ⟨[]⟩ ⟨[], c⟩ = some c.toNat := rfl
  have hpositions : Odometer.positions (Odometer.size ⟨[]⟩) ⟨[]⟩ = [⟨[]⟩] := rfl
  rw [trials, hpositions]
  split <;> simp [blockAt?, Option.filter_some, *]

/-- Only the first trial of a varying persistent line misses for certain. -/
theorem alwaysMiss_countPersistent {looped : Bool} (he : e.isConstant = true) :
    (D.countPersistent e space looped).1.alwaysMiss = 0 := by
  rw [countPersistent, foldTrials_eq]
  refine List.foldlRecOn (motive := fun acc : Tally × Nat × Option Nat => acc.1.alwaysMiss = 0) _ _
    rfl fun acc hacc x _ => ?_
  simp only [he, Bool.not_true, Bool.and_false, Bool.false_eq_true, if_false]
  split <;> exact hacc

/-- A trial that misses for certain has no competitor. -/
theorem exists_trial_of_countOthers {others : List Affine}
    (h : 0 < (D.countOthers e space others).1.alwaysMiss) : ∃ o x, (o, x) ∈ D.trials e space ∧
      ∀ f ∈ others, ∀ a, o.eval? f = some a → D.cache.block a ≠ x := by
  by_contra hnone
  rw [countOthers, foldTrials_eq] at h
  refine absurd h (Nat.not_lt_of_le (Nat.le_of_eq ?_))
  refine List.foldlRecOn (motive := fun t : Tally => t.alwaysMiss = 0) _ _ rfl fun t ht x hx => ?_
  split
  · exact ht
  · rename_i hmiss
    refine absurd ⟨x.1, x.2, hx, fun f hf a ha heq => hmiss ?_⟩ hnone
    exact List.any_eq_true.mpr ⟨f, hf, by simp [ha, heq]⟩

theorem exists_tracked : ∃ c', D.tracked (D.cache.block c.toNat) = .const c' ∧
    D.cache.block c'.toNat = D.cache.block c.toNat := by
  have hlt : D.cache.round c.toNat < UInt32.size :=
    Nat.lt_of_le_of_lt D.cache.round_le c.toNat_lt
  refine ⟨_, rfl, ?_⟩
  rw [← Geometry.round, UInt32.toNat_ofNat_of_lt' hlt, D.cache.block_round]

/-- The own line of a constant competes with it as long as it may be in the set. -/
theorem mem_competitors (hl : l ∈ ls) (hfor : l.isFor (.const c) = true) (hlt : l.may < D.ways) :
    (⟨[], c⟩ : Affine) ∈ D.competitors (.const c) ls := by
  obtain ⟨href, hgen⟩ := isFor_iff.mp hfor
  have halive : Age.isAlive D.ways l.may = true := decide_eq_true hlt
  refine List.mem_filterMap.mpr ⟨l, List.mem_filter.mpr ⟨hl, ?_⟩, ?_⟩
  · rw [halive, href, hgen]
    simp [References.compatible, References.mayMeet, Symbolic.const, Symbolic.terms]
  · rw [href]
    rfl

/-- A constant access is counted as a miss only in its own set, and only if its line must have been
evicted. -/
theorem ways_le_may (hcached : a.cached = true) (hc : a.reference = .const c)
    (hmiss : 0 < (D.countMisses s a).1.alwaysMiss) : D.cache.set c.toNat = D.set ∧
      ∀ l ∈ s.lines, l.isFor (D.tracked (D.cache.block c.toNat)) = true → D.ways ≤ l.may := by
  obtain ⟨c', htracked, hblock⟩ := exists_tracked (D := D) (c := c)
  unfold countMisses at hmiss
  simp only [hc, normalize_const, htracked, hcached] at hmiss
  split at hmiss
  · rename_i e space heq henum
    cases heq
    obtain rfl : space = ⟨[]⟩ := (Option.some.inj (Option.filter_eq_some_iff.mp henum).1).symm
    rw [if_neg (by decide)] at hmiss
    split at hmiss
    · cases hmiss
    · split at hmiss
      · rw [alwaysMiss_countPersistent rfl] at hmiss
        cases hmiss
      · obtain ⟨o, x, htrial, hothers⟩ := exists_trial_of_countOthers hmiss
        rw [trials_const] at htrial
        split at htrial
        · rename_i hset
          cases List.mem_singleton.mp htrial
          refine ⟨(D.cache.set_eq_of_block_eq hblock).symm.trans hset, fun l hl hfor => ?_⟩
          rw [htracked] at hfor
          by_contra hlt
          exact hothers _ (mem_competitors hl hfor (Nat.lt_of_not_le hlt)) _ rfl rfl
        · cases htrial
  · cases hmiss

end

end SetDomain

end MissBound
