import MissBound.Proofs.Classification
import MissBound.Proofs.Lru.Outcome
import MissBound.Proofs.Lru.Recency
import MissBound.Proofs.Machine.Journey

/-!
Always-hit accesses in programs with conditional operations. The sets are analysed as if every load
and store of a block was performed, and at the address to which it is resolved. An access that is
classified as always hitting has its block used before on every path, but it can count on a hit only
if that use is not skipped, and if the accesses since then go where they are resolved to go.
-/

namespace MissBound

/-- The address of an access to a constant one. -/
def DataUse.address (a : DataUse) : Nat := (a.reference.constant?.getD 0).toNat

namespace Classification

/-- The accesses met by a run, each with whether it is performed. -/
def trace (accesses : List ClassifiedAccess) (visits : List Visit) :
    List (ClassifiedAccess × Bool) :=
  visits.flatMap fun v => (reported accesses v.block).zip v.done

/-- The accesses met by a running program, each with its address if it is performed. -/
def journal (accesses : List ClassifiedAccess) (tour : List Passage) :
    List (ClassifiedAccess × Option Nat) :=
  tour.flatMap fun p => (reported accesses p.block).zip p.log

/-- The addresses that some accesses put into the cache. -/
def uses (items : List (ClassifiedAccess × Option Nat)) : List Nat :=
  (items.filter fun x => x.1.cached && x.2.isSome).map fun x => x.2.getD 0

/-- The last use of the block of `address` has not been followed by uses of as many other blocks as
the set has lines. -/
def Retained (g : Geometry) (items : List (ClassifiedAccess × Option Nat)) (address : Nat) : Prop :=
  ∃ u d b v, items = u ++ (d, some b) :: v ∧ d.cached = true ∧ g.block b = g.block address ∧
    (∀ x ∈ v, x.1.cached = true → ∀ b ∈ x.2, g.block b ≠ g.block address) ∧
    (CacheContent.blocksIn g (g.set address) (uses v)).toFinset.card < g.ways

/-- The access is skipped, or it goes where it is resolved to go. -/
def Resolved (x : ClassifiedAccess × Option Nat) : Prop := ∀ b ∈ x.2, b = x.1.address

/-- The same accesses as they are analysed: none of them is skipped, and all are resolved. -/
def idealized (items : List (ClassifiedAccess × Option Nat)) :
    List (ClassifiedAccess × Option Nat) := items.map fun x => (x.1, some x.1.address)

section
variable {g : Geometry} {items : List (ClassifiedAccess × Option Nat)} {address b i : Nat}

theorem mem_blocksIn_uses : b ∈ CacheContent.blocksIn g i (uses items) ↔
    ∃ x ∈ items, x.1.cached = true ∧ ∃ a ∈ x.2, g.set a = i ∧ g.block a = b := by
  rw [uses, CacheContent.mem_blocksIn_filter]
  refine exists_congr fun x => and_congr_right fun _ => ?_
  obtain ⟨c, o⟩ := x
  cases o <;> simp

/-- Whether a block is in the cache, whatever it held before, is decided by the performed uses. -/
theorem hits_iff_retained :
    (∀ content : CacheContent g, (content.touchAll (uses items)).hits address = true) ↔
      Retained g items address := by
  constructor
  · intro h
    obtain ⟨u, ⟨d, o⟩, v, rfl, huse, hblock, hlast⟩ := CacheContent.exists_last_use (h .empty)
    obtain ⟨hcached, hsome⟩ := Bool.and_eq_true_iff.mp huse
    obtain ⟨b, rfl⟩ := Option.isSome_iff_exists.mp hsome
    refine ⟨u, d, b, v, rfl, hcached, hblock, ?_,
      (CacheContent.hits_iff_of_last hlast huse hblock).mp (h .empty)⟩
    rintro ⟨e, _⟩ hx hc b' ⟨⟩
    exact hlast _ hx (Bool.and_eq_true_iff.mpr ⟨hc, rfl⟩)
  · rintro ⟨u, d, b, v, rfl, hcached, hblock, hlast, hcard⟩ content
    rw [uses, CacheContent.hits_iff_of_last]
    · exact hcard
    · intro x hx huse
      obtain ⟨hc, hsome⟩ := Bool.and_eq_true_iff.mp huse
      obtain ⟨b', hb'⟩ := Option.isSome_iff_exists.mp hsome
      rw [hb']
      exact hlast x hx hc b' hb'
    · exact Bool.and_eq_true_iff.mpr ⟨hcached, rfl⟩
    · exact hblock

/-- A block that would be in the cache by the analysis is there if its last use is performed and all
uses since then are resolved. -/
theorem retained_of_idealized (h : Retained g (idealized items) address) :
    ∃ u d o v, items = u ++ (d, o) :: v ∧ d.cached = true ∧ g.block d.address = g.block address ∧
      (∀ x ∈ v, x.1.cached = true → g.block x.1.address ≠ g.block address) ∧
      (o = some d.address → (∀ x ∈ v, x.1.cached = true → Resolved x) →
        Retained g items address) := by
  obtain ⟨u', d, b, v', heq, hcached, hblock, hv, hcard⟩ := h
  obtain ⟨u, rest, rfl, rfl, hrest⟩ := List.map_eq_append_iff.mp heq
  obtain ⟨⟨d', o⟩, v, rfl, hd, rfl⟩ := List.map_eq_cons_iff.mp hrest
  cases hd
  have hlast : ∀ x ∈ v, x.1.cached = true → g.block x.1.address ≠ g.block address :=
    fun x hx hc => hv _ (List.mem_map_of_mem hx) hc _ rfl
  refine ⟨u, d', o, v, rfl, hcached, hblock, hlast, fun ho hresolved => ?_⟩
  subst ho
  refine ⟨u, d', _, v, rfl, hcached, hblock, fun x hx hc b hb => ?_, ?_⟩
  · rw [hresolved x hx hc b hb]
    exact hlast x hx hc
  · refine Nat.lt_of_le_of_lt (Finset.card_le_card fun b hb => ?_) hcard
    obtain ⟨x, hx, hc, a, ha, hset, hb⟩ := mem_blocksIn_uses.mp (List.mem_toFinset.mp hb)
    cases hresolved x hx hc a ha
    exact List.mem_toFinset.mpr (mem_blocksIn_uses.mpr
      ⟨_, List.mem_map_of_mem hx, hc, _, rfl, hset, hb⟩)

end

/-- The addresses that accesses put into the cache if all of them are performed. -/
def tableUses (as : List Access) : List Nat := (as.filter (·.cached)).map (·.address)

theorem tableUses_append {as bs : List Access} :
    tableUses (as ++ bs) = tableUses as ++ tableUses bs := by
  rw [tableUses, List.filter_append, List.map_append]
  rfl

theorem uses_idealized {items : List (ClassifiedAccess × Option Nat)} :
    uses (idealized items) = tableUses (items.map (·.1.toAccess)) := by
  rw [uses, idealized, tableUses, List.filter_map, List.filter_map, List.map_map, List.map_map]
  refine congrArg₂ _ rfl (List.filter_congr fun x _ => ?_)
  exact Bool.and_true _

section
variable {G : FlowGraph} {boot : Boot} {limits : Limits} {memory : MemoryMap} {cache : Geometry}
  {table : AccessTable} {solution : Nat → Progress SetState} {accesses : List ClassifiedAccess}
  {a : Access} {b k : Nat} {content : CacheContent cache} {counter : Nat → Nat}

theorem admits_of_acyclic (B : G.Built) (hacyclic : G.graph.Acyclic) {h : Nat} :
    G.Admits h counter := by
  intro n hn
  unfold LoopForest.maxIteration? LoopForest.boundOf at hn
  cases hl : G.loops.loopAt? h with
  | none =>
    rw [hl] at hn
    cases hn
  | some l =>
    have hheader : G.loops.isHeader h = true := by rw [LoopForest.isHeader, hl]; rfl
    exact absurd (B.loops.inside_self B.closed B.entry_lt hheader)
      (B.not_inside_of_acyclic hacyclic)

section
variable (C : Classified G boot limits memory cache table solution accesses)
  (hconst : ∀ a ∈ accesses, a.reference.isConstant = true)
include C hconst

/-- The references of the table are constant if those of the report are. -/
theorem reference_eq (ha : a ∈ table.block b) :
    ∃ c, a.reference = .affine ⟨[], c⟩ ∧ a.address = c.toNat := by
  obtain ⟨k, hk⟩ := List.getElem?_of_mem ha
  have hreport : (reported accesses b)[k]? =
      some (report G cache limits.cap table solution b k a) := by
    rw [C.reported, List.getElem?_mapIdx, hk]
    rfl
  have h := hconst _ (List.mem_of_mem_filter (List.mem_of_getElem? hreport))
  change a.reference.isConstant = true at h
  obtain ⟨c, hr⟩ := Symbolic.isConstant_iff.mp h
  refine ⟨c, hr, ?_⟩
  rw [DataUse.address, hr]
  rfl

theorem touches_address (ha : a ∈ table.block b) : a.Touches counter a.address := by
  obtain ⟨c, hr, haddress⟩ := reference_eq C hconst ha
  rw [haddress]
  exact .affine hr

theorem regular_table : table.Regular G.loops := by
  intro b a ha
  obtain ⟨c, hr, -⟩ := reference_eq C hconst ha
  exact DataUse.regular_const hr

/-- A run through the first accesses of a block. -/
theorem steps_block (counter : Nat → Nat) (content : CacheContent cache)
    (hk : k ≤ (table.block b).length) :
    ∃ es, Steps G table (⟨b, 0, counter, content⟩ : Situation cache) es
      ⟨b, k, counter, content.touchAll (tableUses ((table.block b).take k))⟩ := by
  induction k with
  | zero => exact ⟨[], .refl⟩
  | succ k ih =>
    obtain ⟨es, h⟩ := ih (by omega)
    have hget : (table.block b)[k]? = some (table.block b)[k] := List.getElem?_eq_getElem (by omega)
    generalize (table.block b)[k] = a at hget
    rw [List.take_add_one, hget, Option.toList_some, tableUses_append, CacheContent.touchAll_append]
    cases hcached : a.cached with
    | true =>
      rw [show tableUses [a] = [a.address] by simp [tableUses, hcached]]
      exact ⟨_, h.tail (.serve hget hcached (touches_address C hconst (List.mem_of_getElem? hget)))⟩
    | false =>
      rw [show tableUses [a] = [] by simp [tableUses, hcached]]
      exact ⟨_, h.tail (.bypass hget hcached)⟩

/-- A run through some blocks up to the start of another one. No loop gets in its way. -/
theorem steps_blocks (B : G.Built) (hacyclic : G.graph.Acyclic) (counter : Nat → Nat)
    (content : CacheContent cache) {bs : List Nat} {first : Nat}
    (hchain : (bs ++ [b]).IsChain G.graph.Adjacent) (hfirst : (bs ++ [b]).head? = some first) :
    ∃ es counter', Steps G table (⟨first, 0, counter, content⟩ : Situation cache) es
      ⟨b, 0, counter', content.touchAll (tableUses (bs.flatMap table.block))⟩ := by
  induction bs generalizing first counter content with
  | nil =>
    cases hfirst
    exact ⟨[], counter, .refl⟩
  | cons n bs ih =>
    cases hfirst
    obtain ⟨es, hn⟩ := steps_block C hconst (b := n) counter content (Nat.le_refl _)
    obtain ⟨next, hnext⟩ : ∃ next, (bs ++ [b]).head? = some next := by
      cases bs <;> exact ⟨_, rfl⟩
    rw [List.cons_append, List.isChain_cons] at hchain
    obtain ⟨e, he, rfl, rfl⟩ := hchain.1 next hnext
    have hcompletes : G.Completes e counter :=
      fun h hin => absurd hin (B.not_inside_of_acyclic hacyclic)
    obtain ⟨es', counter', hrest⟩ := ih (G.count e counter) _ hchain.2 hnext
    rw [List.take_length] at hn
    rw [List.flatMap_cons, tableUses_append, CacheContent.touchAll_append]
    exact ⟨_, counter', (hn.tail (.follow rfl he hcompletes
      (admits_of_acyclic B hacyclic))).trans hrest⟩

/-- On a run that skips nothing an always-hit access hits. -/
theorem hits_of_steps (B : G.Built) {s : Situation cache} (h₀ : s.Initial G) {es : List Event}
    (hsteps : Steps G table s es ⟨b, k, counter, content⟩) (hget : (table.block b)[k]? = some a)
    (hcat : (report G cache limits.cap table solution b k a).category = .alwaysHit) :
    content.hits a.address = true := by
  obtain ⟨set, hset, hpos⟩ := exists_set_of_alwaysHit hcat
  have S : SetDomain.Solution (domain G cache limits.cap set) G table (solution set) :=
    ⟨B, rfl, regular_table C hconst, _, C.solved set hset⟩
  obtain ⟨-, hensures, e, space, hnorm, htrials⟩ := SetDomain.ensures_of_alwaysHit hpos
  have ha := List.mem_of_getElem? hget
  obtain ⟨c, hr, haddress⟩ := reference_eq C hconst ha
  -- the only trial of the access is at its address
  have hset' : cache.set a.address = set := by
    obtain ⟨o, address, heval, haddr⟩ := SetDomain.exists_trial htrials
    obtain ⟨e', hnorm', -, -, hblock⟩ := SetDomain.normalize_affine
      (D := domain G cache limits.cap set) (Affine.canonical_const (L := G.loops) (k := c))
    rw [hr] at hnorm
    cases hnorm.symm.trans hnorm'
    unfold Odometer.eval? Affine.eval? at heval
    split at heval
    · cases heval
      rw [haddress]
      exact (cache.set_eq_of_block_eq (hblock _)).symm.trans haddr
    · cases heval
  have hbounded := S.bounded h₀ hsteps
  exact S.hits_of_ensures hbounded hget (touches_address C hconst ha) hset' hensures

end

theorem map_reported (C : Classified G boot limits memory cache table solution accesses) :
    (reported accesses b).map (·.toAccess) = table.block b := by
  refine List.ext_getElem? fun i => ?_
  rw [C.reported, List.getElem?_map, List.getElem?_mapIdx, Option.map_map]
  exact Option.map_id'

/-- Every memory operation of a visit has its report. -/
theorem length_reported (B : G.Built)
    (C : Classified G boot limits memory cache table solution accesses) {visits : List Visit}
    (hroute : Route G visits) {v : Visit} (hv : v ∈ visits) :
    (reported accesses v.block).length = v.done.length := by
  obtain ⟨code, hcode, hperforms⟩ := hroute.performs v hv
  obtain ⟨p, hp, htable⟩ := C.resolved
  obtain ⟨s, hs⟩ := Resolution.exists_input B hp (hroute.reaches v hv)
  rw [← List.length_map (f := (·.toAccess)), map_reported C,
    AccessTable.length_block_of_build htable hcode hs, hperforms.length_eq]
  rfl

theorem trace_split {visits : List Visit} {pre post : List (ClassifiedAccess × Bool)}
    {x : ClassifiedAccess × Bool} (h : trace accesses visits = pre ++ x :: post) :
    ∃ vs v vs' k, visits = vs ++ v :: vs' ∧
      pre = trace accesses vs ++ ((reported accesses v.block).zip v.done).take k ∧
      ((reported accesses v.block).zip v.done)[k]? = some x := by
  induction visits generalizing pre with
  | nil => exact absurd (congrArg List.length h) (by simp [trace])
  | cons v visits ih =>
    unfold trace at h ih ⊢
    rw [List.flatMap_cons, List.append_eq_append_iff] at h
    rcases h with ⟨pre', rfl, h⟩ | ⟨rest, h, hx⟩
    · obtain ⟨vs, u, vs', k, rfl, rfl, hget⟩ := ih h
      refine ⟨v :: vs, u, vs', k, rfl, ?_, hget⟩
      rw [List.flatMap_cons, List.append_assoc]
    · cases rest with
      | nil =>
        obtain ⟨vs, u, vs', k, rfl, hnil, hget⟩ := ih (show _ = [] ++ x :: post from hx.symm)
        obtain ⟨hvs, htake⟩ := List.append_eq_nil_iff.mp hnil.symm
        refine ⟨v :: vs, u, vs', k, rfl, ?_, hget⟩
        rw [List.flatMap_cons, hvs, htake, h, List.append_nil, List.append_nil, List.append_nil]
      | cons y rest =>
        cases hx
        refine ⟨[], v, visits, pre.length, rfl, ?_, ?_⟩
        · rw [h, List.take_left]
          rfl
        · rw [h, List.getElem?_append_right (Nat.le_refl _), Nat.sub_self]
          rfl

theorem map_zip_reported (C : Classified G boot limits memory cache table solution accesses)
    {done : List Bool} (hlen : (reported accesses b).length = done.length) :
    ((reported accesses b).zip done).map (·.1.toAccess) = table.block b := by
  rw [← map_reported C, ← List.map_fst_zip (Nat.le_of_eq hlen), List.map_map]
  simp only [List.map_fst_zip (Nat.le_of_eq hlen)]
  rfl

/-- The accesses met by a run are those of the blocks that it visits. -/
theorem map_trace (C : Classified G boot limits memory cache table solution accesses)
    {visits : List Visit}
    (hlen : ∀ v ∈ visits, (reported accesses v.block).length = v.done.length) :
    (trace accesses visits).map (·.1.toAccess) = (visits.map (·.block)).flatMap table.block := by
  rw [trace, List.map_flatMap, List.flatMap_map]
  exact List.flatMap_congr fun v hv => map_zip_reported C (hlen v hv)

/-- If all accesses of a run were performed and resolved, an always-hit access would hit. -/
theorem hits_idealized (B : G.Built) (hacyclic : G.graph.Acyclic)
    (C : Classified G boot limits memory cache table solution accesses)
    (hconst : ∀ a ∈ accesses, a.reference.isConstant = true) {visits : List Visit}
    (hroute : Route G visits) {pre post : List (ClassifiedAccess × Bool)} {c : ClassifiedAccess}
    {flag : Bool} (htrace : trace accesses visits = pre ++ (c, flag) :: post)
    (hcat : c.category = .alwaysHit) (content : CacheContent cache) :
    (content.touchAll (tableUses (pre.map (·.1.toAccess)))).hits c.address = true := by
  obtain ⟨vs, v, vs', k, rfl, rfl, hget⟩ := trace_split htrace
  have hlen : ∀ u ∈ vs ++ v :: vs', (reported accesses u.block).length = u.done.length :=
    fun u hu => length_reported B C hroute hu
  -- the access in the table
  obtain ⟨hreport, -⟩ := List.getElem?_zip_eq_some.mp hget
  rw [C.reported, List.getElem?_mapIdx] at hreport
  obtain ⟨a, ha, rfl⟩ := Option.map_eq_some_iff.mp hreport
  have hmap : (trace accesses vs ++ ((reported accesses v.block).zip v.done).take k).map
      (·.1.toAccess) = (vs.map (·.block)).flatMap table.block ++ (table.block v.block).take k := by
    rw [List.map_append, map_trace C fun u hu => hlen u (List.mem_append_left _ hu), List.map_take,
      map_zip_reported C (hlen v (List.mem_append_right _ List.mem_cons_self))]
  have h₀ : (⟨G.entry, 0, fun _ => 0, content⟩ : Situation cache).Initial G :=
    ⟨rfl, rfl, rfl, admits_of_acyclic B hacyclic⟩
  obtain ⟨es, counter, hsteps⟩ :=
    steps_blocks C hconst B hacyclic (fun _ => 0) content hroute.isChain_blocks hroute.head?_blocks
  have hk : k ≤ (table.block v.block).length := Nat.le_of_lt (List.getElem?_eq_some_iff.mp ha).1
  obtain ⟨es', hblock⟩ := steps_block C hconst counter _ hk
  rw [hmap, tableUses_append, CacheContent.touchAll_append]
  exact hits_of_steps C hconst B h₀ (hsteps.trans hblock) ha hcat

/-- The journal tells which accesses are performed. -/
theorem map_journal {tour : List Passage} :
    (journal accesses tour).map (Prod.map id Option.isSome) =
      trace accesses (tour.map Passage.visit) := by
  rw [journal, trace, List.map_flatMap, List.flatMap_map]
  refine List.flatMap_congr fun p _ => ?_
  exact List.zip_map_right.symm

end

/-- The interpreter follows all runs of the program, and loads whole words where there are words at
the start or are stored. -/
structure Faithful (G : FlowGraph) (boot : Boot) (accesses : List ClassifiedAccess) : Prop where
  orderly : ∀ code ∈ G.graph.nodes, ∀ i ∈ code.instructions, i.Orderly
  fits : ∀ l ∈ accesses, l.kind = .load → l.address + l.type.size ≤ 2 ^ 32
  words : ∀ l ∈ accesses, l.kind = .load → ∀ w ∈ boot.words, w.1 = l.address → l.type.size = 4
  stores : ∀ l ∈ accesses, l.kind = .load → ∀ s ∈ accesses, s.kind = .store →
    s.address = l.address → l.type.size = 4 ∧ s.type.size = 4

/-- The words that may become known, and where all stores are of words. -/
def layout (boot : Boot) (accesses : List ClassifiedAccess) : Layout where
  known a := (∃ w ∈ boot.words, w.1 = a) ∨ ∃ s ∈ accesses, s.kind = .store ∧ s.address = a
  width a := if ∀ s ∈ accesses, s.kind = .store → s.address = a → s.type.size = 4 then 4 else 0
  width_le a := by split <;> omega

section
variable {G : FlowGraph} {boot : Boot} {limits : Limits} {memory : MemoryMap} {cache : Geometry}
  {table : AccessTable} {solution : Nat → Progress SetState} {accesses : List ClassifiedAccess}

theorem Faithful.allows (F : Faithful G boot accesses) {a : ClassifiedAccess} (ha : a ∈ accesses)
    (hconst : a.reference.isConstant = true) {e : MemoryEvent} (haddress : e.address = a.reference)
    (hkind : e.kind = a.kind) (htype : e.type = a.type) : (layout boot accesses).Allows e := by
  obtain ⟨c, hc⟩ := Symbolic.isConstant_iff.mp hconst
  have hac : a.address = c.toNat := by
    rw [DataUse.address, hc]
    rfl
  refine ⟨c, haddress.trans hc, ?_⟩
  rw [hkind, htype]
  cases hk : a.kind with
  | load =>
    refine ⟨hac ▸ F.fits a ha hk, fun hknown => ⟨?_, if_pos fun s hs hks haddr => ?_⟩⟩
    · rcases hknown with ⟨w, hw, heq⟩ | ⟨s, hs, hks, heq⟩
      · exact F.words a ha hk w hw (heq.trans hac.symm)
      · exact (F.stores a ha hk s hs hks (heq.trans hac.symm)).1
    · exact (F.stores a ha hk s hs hks (haddr.trans hac.symm)).2
  | store =>
    refine ⟨.inr ⟨a, ha, hk, hac⟩, ?_⟩
    simp only [layout]
    split
    · rename_i hall
      exact (hall a ha hk hac).ge
    · exact Nat.zero_le _

/-- Every event of a block has its report. -/
theorem exists_report (C : Classified G boot limits memory cache table solution accesses)
    {p : Progress (Option State)}
    (htable : AccessTable.build G boot limits memory p.inputs = .ok table) {b k : Nat}
    {code : Block} {s : State} {e : MemoryEvent} (hcode : G.block? b = some code)
    (hs : p.inputs[b]?.join = some s)
    (he : ((⟨G.loops, boot, limits.cap⟩ : Interpreter).executeBlock s code).2[k]? = some e) :
    ∃ c, (reported accesses b)[k]? = some c ∧ c.reference = e.address ∧ c.kind = e.kind ∧
      c.type = e.type := by
  have H := AccessTable.blockAccesses_of_build htable hcode
  rw [hs] at H
  have hget := getElem?_of_mapM (i := k) H
  rw [he] at hget
  obtain ⟨a, ha, heq⟩ := Option.map_eq_some_iff.mp hget.symm
  refine ⟨report G cache limits.cap table solution b k a, ?_, (AccessTable.accessOf_ok heq.symm).2⟩
  rw [C.reported, List.getElem?_mapIdx, ha]
  rfl

/-- In a faithful program all accesses go where they are resolved to go. -/
theorem Faithful.resolved (F : Faithful G boot accesses) (B : G.Built)
    (hacyclic : G.graph.Acyclic)
    (C : Classified G boot limits memory cache table solution accesses)
    (hconst : ∀ a ∈ accesses, a.reference.isConstant = true) {tour : List Passage}
    (htour : Journey G boot limits.stackBase tour) :
    ∀ x ∈ journal accesses tour, Resolved x := by
  obtain ⟨p, hp, htable⟩ := C.resolved
  have hallows : ∀ b code s, G.block? b = some code → p.inputs[b]?.join = some s →
      ∀ e ∈ ((⟨G.loops, boot, limits.cap⟩ : Interpreter).executeBlock s code).2,
        (layout boot accesses).Allows e := by
    intro b code s hcode hs e he
    obtain ⟨k, hk⟩ := List.getElem?_of_mem he
    obtain ⟨c, hc, href, hkind, htype⟩ := exists_report C htable hcode hs hk
    have hmem := List.mem_of_mem_filter (List.mem_of_getElem? hc)
    exact F.allows hmem (hconst c hmem) href.symm hkind.symm htype.symm
  intro x hx
  obtain ⟨q, hq, hx⟩ := List.mem_flatMap.mp hx
  obtain ⟨k, hk⟩ := List.getElem?_of_mem hx
  obtain ⟨hreport, hlog⟩ := List.getElem?_zip_eq_some.mp hk
  obtain ⟨code, s, hcode, hs, hat⟩ := htour.forall₂_at B hacyclic hp F.orderly
    (fun w hw => Or.inl ⟨w, hw, rfl⟩) hallows hq
  obtain ⟨hlen, hzip⟩ := List.forall₂_iff_zip.mp hat
  -- the event at the same place
  have hlt := (List.getElem?_eq_some_iff.mp hlog).1
  have he := List.getElem?_eq_getElem (hlen ▸ hlt)
  obtain ⟨c, hc, href, -, -⟩ := exists_report C htable hcode hs he
  cases hreport.symm.trans hc
  intro b hb
  obtain ⟨a, ha, rfl⟩ :=
    hzip (List.mem_of_getElem? (List.getElem?_zip_eq_some.mpr ⟨he, hlog⟩)) b hb
  rw [DataUse.address, href, ha]
  rfl

end

/-- In a program without loops whose addresses are all resolved to constants, the block of an access
that is classified as always hitting was accessed before on every path. Let such a program run, with
any outcomes of its conditions and whatever the cache held at the start. If the last access of the
block is performed, it and those after it go where they are resolved to go, and so does the access
itself, then the access hits; in general it hits if and only if its block is retained by the
accesses that are performed. All accesses of faithful programs go where they are resolved to go. -/
theorem hit_of_alwaysHit {blocks : List Block} {edges : List (Nat × Nat)}
    {bounds : List (Nat × LoopBound)} {entry : Nat} {G : FlowGraph} {caches : Caches}
    {memory : MemoryMap} {boot : Boot} {limits : Limits} {cache : Geometry}
    {accesses : List ClassifiedAccess} {tour : List Passage}
    {pre post : List (ClassifiedAccess × Option Nat)} {c : ClassifiedAccess} {a : Nat}
    (hG : FlowGraph.build blocks edges bounds entry = .ok G) (hacyclic : G.graph.Acyclic)
    (hcache : caches.dataCache = .ok cache)
    (hclassify : classify G caches memory boot limits = .ok accesses)
    (hconst : ∀ a ∈ accesses, a.reference.isConstant = true)
    (htour : Journey G boot limits.stackBase tour)
    (hjournal : journal accesses tour = pre ++ (c, some a) :: post)
    (hcat : c.category = .alwaysHit) :
    (∃ u d o v, pre = u ++ (d, o) :: v ∧ d.cached = true ∧
      cache.block d.address = cache.block c.address ∧
      (∀ x ∈ v, x.1.cached = true → cache.block x.1.address ≠ cache.block c.address) ∧
      (a = c.address → o = some d.address → (∀ x ∈ v, x.1.cached = true → Resolved x) →
        ∀ content : CacheContent cache, (content.touchAll (uses pre)).hits a = true)) ∧
    ((∀ content : CacheContent cache, (content.touchAll (uses pre)).hits a = true) ↔
      Retained cache pre a) ∧
    (Faithful G boot accesses → ∀ x ∈ journal accesses tour, Resolved x) := by
  have B := FlowGraph.built_of_build hG
  obtain ⟨table, solution, C⟩ := classified_of_classify hcache hclassify
  refine ⟨?_, hits_iff_retained, fun F => F.resolved B hacyclic C hconst htour⟩
  have htrace : trace accesses (tour.map Passage.visit) =
      pre.map (Prod.map id Option.isSome) ++ (c, true) ::
        post.map (Prod.map id Option.isSome) := by
    rw [← map_journal, hjournal, List.map_append]
    rfl
  have hideal : ∀ content : CacheContent cache,
      (content.touchAll (uses (idealized pre))).hits c.address = true := by
    intro content
    rw [uses_idealized]
    have hhits := hits_idealized B hacyclic C hconst htour.route htrace hcat content
    rw [List.map_map] at hhits
    exact hhits
  obtain ⟨u, d, o, v, heq, hcached, hblock, hlast, hretained⟩ :=
    retained_of_idealized (hits_iff_retained.mp hideal)
  refine ⟨u, d, o, v, heq, hcached, hblock, hlast, fun ha ho hv => ?_⟩
  rw [ha]
  exact hits_iff_retained.mpr (hretained ho hv)

def sideFirst : Instruction :=
  ⟨0, [.literal (.temporary 0) 0x2000, .load (.machine 2) (.temporary 0) .uint32], none⟩

def sideSecond : Instruction :=
  ⟨4, [.literal (.temporary 0) 0x3000, .guarded (.machine 1) 1,
    .load (.machine 3) (.temporary 0) .uint32, .literal (.temporary 0) 0x2004,
    .load (.machine 4) (.temporary 0) .uint32], none⟩

/-- Two blocks in a row; the second one begins with a load that may be skipped. -/
def sideBlocks : List Block := [⟨0, [sideFirst]⟩, ⟨4, [sideSecond]⟩]

def sideGraph : FlowGraph where
  graph := ⟨sideBlocks, [⟨0, 1, ⟨false, [], false⟩⟩]⟩
  entry := 0
  dominators := ⟨0, [some 0, some 0], [0, 1]⟩
  loops := ⟨[], [0, 1]⟩

def smallLimits : Limits := ⟨100, 20, 0x80000000⟩

def sideAccesses : List ClassifiedAccess :=
  [⟨⟨⟨0, .const 0x2000, true⟩, 0, .load, .uint32, none⟩, ⟨0, 1, 0, 0, 0⟩, .bounded 1, none⟩,
    ⟨⟨⟨1, .const 0x3000, true⟩, 4, .load, .uint32, none⟩, ⟨0, 1, 0, 0, 0⟩, .bounded 1, none⟩,
    ⟨⟨⟨1, .const 0x2004, true⟩, 4, .load, .uint32, none⟩, ⟨1, 0, 0, 0, 0⟩, .bounded 0, none⟩]

/-- Nothing has happened yet. -/
def clearMachine : Machine where
  registers := Function.update (fun _ => 0) (.machine 13) 0x80000000
  bytes := fun _ => 0
  width := fun _ => 4

theorem starts_clearMachine : Boot.default.Starts smallLimits.stackBase clearMachine where
  registers := State.describes_blank.setRegister .const
  words w hw := by cases hw
  image g hg := by cases hg
  width := rfl

/-- The guard of the second block fails. -/
theorem exists_tour_side : ∃ tour, Journey sideGraph .default smallLimits.stackBase tour ∧
    journal sideAccesses tour = sideAccesses.zip [some 0x2000, none, some 0x2004] := by
  have hfirst : ∃ y, MicroOp.FreeRuns sideFirst.ops clearMachine [some 0x2000] y :=
    ⟨_, .next .literal (.next .load .done)⟩
  obtain ⟨y, hy⟩ := hfirst
  have hsecond : ∃ z, MicroOp.FreeRuns sideSecond.ops y [none, some 0x2004] z :=
    ⟨_, .next .literal (.skip trivial (.next .literal (.next .load .done)))⟩
  obtain ⟨z, hz⟩ := hsecond
  refine ⟨[⟨0, clearMachine, [some 0x2000], y⟩, ⟨1, y, [none, some 0x2004], z⟩],
    ⟨?_, ?_, ?_⟩, rfl⟩
  · rintro _ ⟨⟩
    exact ⟨rfl, starts_clearMachine⟩
  · exact .cons_cons ⟨⟨_, List.mem_singleton_self _, rfl, rfl⟩, rfl⟩ (.singleton _)
  · exact List.forall_mem_cons.mpr
      ⟨⟨_, rfl, .single hy⟩, List.forall_mem_singleton.mpr ⟨_, rfl, .single hz⟩⟩

theorem acyclic_side : sideGraph.graph.Acyclic := by
  rintro e he ⟨w, hw⟩
  cases List.mem_singleton.mp he
  cases hw with
  | step _ hadj =>
    obtain ⟨e, he, -, ht⟩ := hadj
    cases List.mem_singleton.mp he
    cases ht

theorem faithful_side : Faithful sideGraph .default sideAccesses where
  orderly := List.forall_mem_cons.mpr
    ⟨List.forall_mem_singleton.mpr ⟨trivial, by decide⟩, List.forall_mem_singleton.mpr
      (List.forall_mem_singleton.mpr ⟨⟨.inr trivial, trivial⟩, by decide⟩)⟩
  fits := by decide
  words _ _ _ w hw := by cases hw
  stores := by decide

/-- A skipped load of another block does no harm. -/
theorem hit_of_alwaysHit_other_skipped : ∃ tour pre c,
    classify sideGraph ⟨none, some twoLines, false⟩ (.flat 10) .default smallLimits =
      .ok sideAccesses ∧
    Journey sideGraph .default smallLimits.stackBase tour ∧
    journal sideAccesses tour = pre ++ (c, some 0x2004) :: [] ∧ (∃ x ∈ pre, x.2 = none) ∧
    c.category = .alwaysHit ∧ Faithful sideGraph .default sideAccesses ∧
    ∀ content : CacheContent twoLines, (content.touchAll (uses pre)).hits 0x2004 = true := by
  have hG : FlowGraph.build sideBlocks [(0, 1)] [] 0 = .ok sideGraph := rfl
  have hclassify : classify sideGraph ⟨none, some twoLines, false⟩ (.flat 10) .default smallLimits =
      .ok sideAccesses := rfl
  obtain ⟨tour, htour, hitems⟩ := exists_tour_side
  have hjournal : journal sideAccesses tour =
      (sideAccesses.zip [some 0x2000, none, some 0x2004]).take 2 ++ (_, some 0x2004) :: [] := hitems
  obtain ⟨⟨u, d, o, v, heq, -, hblock, -, hhits⟩, -, hfaithful⟩ :=
    hit_of_alwaysHit hG acyclic_side rfl hclassify (by decide) htour hjournal rfl
  have hresolved := hfaithful faithful_side
  rw [hjournal] at hresolved
  refine ⟨tour, _, _, hclassify, htour, hjournal, ⟨_, .tail _ (.head _), rfl⟩, rfl, faithful_side,
    hhits rfl ?_ ?_⟩
  -- of the two accesses before, only the one that is performed has the same block
  · match u, heq with
    | [], heq =>
      cases heq
      rfl
    | [_], heq =>
      cases heq
      exact absurd hblock (by decide)
    | _ :: _ :: _, heq => exact absurd (congrArg List.length heq) (by simp [sideAccesses])
  · intro x hx _
    apply hresolved
    rw [heq]
    exact List.mem_append_left _ (List.mem_append_right _ (.tail _ hx))

/-- A run whose last access is classified as always hitting, but misses in a cache that was
empty. -/
structure Deceived (blocks : List Block) (G : FlowGraph) (accesses : List ClassifiedAccess)
    (items : List (ClassifiedAccess × Option Nat)) : Prop where
  built : FlowGraph.build blocks [] [] 0 = .ok G
  acyclic : G.graph.Acyclic
  classified : classify G ⟨none, some twoLines, false⟩ (.flat 10) .default smallLimits =
    .ok accesses
  constant : ∀ a ∈ accesses, a.reference.isConstant = true
  journey : ∃ tour, Journey G .default smallLimits.stackBase tour ∧ journal accesses tour = items
  miss : ∃ pre c a, items = pre ++ (c, some a) :: [] ∧ c.category = .alwaysHit ∧
    ((CacheContent.empty : CacheContent twoLines).touchAll (uses pre)).hits a = false

/-- A program of a single block. -/
def singleGraph (blocks : List Block) : FlowGraph :=
  ⟨⟨blocks, []⟩, 0, ⟨0, [some 0], [0]⟩, ⟨[], [0]⟩⟩

/-- A load that may be skipped, and one of the same address after it. -/
def twice : Instruction :=
  ⟨0, [.literal (.temporary 0) 0x2000, .guarded (.machine 1) 1,
    .load (.machine 2) (.temporary 0) .int32, .load (.machine 3) (.temporary 0) .int32], none⟩

/-- Overlapping guards between two loads through the same register. If only the first of them fails,
the register is changed, which the interpreter does not see. -/
def displaced : List Instruction :=
  [⟨0, [.literal (.machine 0) 0x2000, .literal (.machine 1) 0x5000], none⟩,
    ⟨4, [.load (.machine 3) (.machine 0) .int32], none⟩,
    ⟨8, [.guarded (.machine 5) 2, .literal (.machine 1) 0x2000, .guarded (.machine 6) 1,
      .move (.machine 0) (.machine 1)], none⟩,
    ⟨12, [.load (.machine 4) (.machine 0) .int32], none⟩]

/-- Loads of one address, a miss and a hit. -/
def twoLoads (first second : Nat) : List ClassifiedAccess :=
  [⟨⟨⟨0, .const 0x2000, true⟩, first, .load, .int32, none⟩, ⟨0, 1, 0, 0, 0⟩, .bounded 1, none⟩,
    ⟨⟨⟨0, .const 0x2000, true⟩, second, .load, .int32, none⟩, ⟨1, 0, 0, 0, 0⟩, .bounded 0, none⟩]

/-- An access that is classified as always hitting misses if the load before it is skipped. It also
misses, with nothing skipped, if it does not go where it is resolved to go. -/
theorem alwaysHit_misses :
    Deceived [⟨0, [twice]⟩] (singleGraph [⟨0, [twice]⟩]) (twoLoads 0 0)
      ((twoLoads 0 0).zip [none, some 0x2000]) ∧
    Deceived [⟨0, displaced⟩] (singleGraph [⟨0, displaced⟩]) (twoLoads 4 12)
      ((twoLoads 4 12).zip [some 0x2000, some 0x5000]) := by
  constructor
  · have hrun : ∃ y, MicroOp.FreeRuns twice.ops clearMachine [none, some 0x2000] y :=
      ⟨_, .next .literal (.skip trivial (.next .load .done))⟩
    obtain ⟨y, hy⟩ := hrun
    exact ⟨rfl, fun e he => (by cases he), rfl, by decide,
      ⟨_, .single rfl starts_clearMachine (.single hy), rfl⟩,
      ⟨((twoLoads 0 0).zip [none, some 0x2000]).take 1, _, _, rfl, rfl, by decide⟩⟩
  · have hrun : ∃ y, Instruction.Runs displaced clearMachine
        ([] ++ ([some 0x2000] ++ ([] ++ [some 0x5000]))) y :=
      ⟨_, .next (.next .literal (.next .literal .done)) (.refl _)
        (.next (.next .load .done) (.refl _)
          (.next (.skip trivial (.next .move .done)) (.refl _) (.single (.next .load .done))))⟩
    obtain ⟨y, hy⟩ := hrun
    exact ⟨rfl, fun e he => (by cases he), rfl, by decide,
      ⟨_, .single rfl starts_clearMachine hy, rfl⟩,
      ⟨((twoLoads 4 12).zip [some 0x2000, some 0x5000]).take 1, _, _, rfl, rfl, by decide⟩⟩

end Classification

end MissBound
