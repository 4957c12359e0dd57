import MissBound.Proofs.Lru.Solution

/-!
Accesses that always hit. The bounds of the fixed point hold at every moment of every run, whatever
the cache holds at its start, so that an access whose own line cannot have been evicted finds its
block.
-/

namespace MissBound

namespace SetDomain

variable {D : SetDomain} {G : FlowGraph} {table : AccessTable} {p : Progress SetState}
  {s t : Situation D.cache} {o : Option Event} {es : List Event}

/-- The state has a line for the access that cannot have been evicted. -/
def ensures (D : SetDomain) (s : SetState) (a : DataUse) : Bool :=
  (s.lines.find? (·.isFor (D.normalize a.reference))).any fun l => Age.isAlive D.ways l.must

/-- The bounds of the fixed point at a moment of a run. -/
def BoundedAt (D : SetDomain) (table : AccessTable) (p : Progress SetState)
    (s : Situation D.cache) : Prop :=
  Bounds D s.counter (s.content D.set) (D.before table p s.block s.served)

theorem ensures_iff {s : SetState} {a : DataUse} : D.ensures s a = true ↔
    ∃ l, s.lines.find? (·.isFor (D.normalize a.reference)) = some l ∧ l.must < D.ways := by
  rw [ensures, Option.any_eq_true]
  simp only [Age.isAlive, decide_eq_true_eq]

namespace Solution

variable (S : Solution D G table p)
include S

theorem bounded_initial (h : s.Initial G) : BoundedAt D table p s := by
  intro l hl x hx hlt
  rw [h.block, h.served] at hl
  have := S.ways_le_of_entry hl
  omega

/-- Every step of a run keeps the bounds. -/
theorem bounded_step (V : s.Valid G table) (h : Step G table s o t)
    (hs : BoundedAt D table p s) : BoundedAt D table p t := by
  cases h with
  | @serve b k address counter content a hget hcached htouch =>
    unfold BoundedAt
    rw [before_succ hget]
    have hreg := S.regular b a (List.mem_of_getElem? hget)
    refine bounds_update hcached hs hreg (fun h hin n hn => ?_) htouch
    rw [S.loops] at hin hn
    exact V.admits h hin n hn
  | @bypass b k counter content a hget hcached =>
    unfold BoundedAt
    rw [before_succ hget, update_of_uncached hcached]
    exact hs
  | @follow k e counter content hk he hcomplete hadmits =>
    subst hk
    have hr := V.reaches
    have hleft : Bounds D counter (content D.set)
        (D.propagate e (D.before table p e.source (table.block e.source).length)) := by
      refine bounds_propagate S.scoped_before (fun h hex n hn => ?_) hs
      obtain ⟨hin, hout⟩ := (S.built.mem_exited he hr).mp hex
      exact hcomplete h hin hout n (S.loops ▸ hn)
    intro l hl x hx hlt hset
    obtain ⟨m, hm, hsharp⟩ := S.sharper_of_edge he hr hl hlt
    -- only the counter of the target changes, on which the line does not depend
    have hfree := S.header_free (hr.step ⟨e, he, rfl, rfl⟩) hl hlt hx
    have heval : x.eval (G.count e counter) = x.eval counter :=
      Affine.eval_congr fun t ht => FlowGraph.count_of_ne (hfree t ht)
    change D.cache.set (x.eval (G.count e counter)).toNat = D.set at hset
    change (content D.set).Holds (D.cache.block (x.eval (G.count e counter)).toNat) l.must
    rw [heval] at hset ⊢
    exact hsharp.bounds hm hleft hx hlt hset

theorem bounded (h₀ : s.Initial G) (h : Steps G table s es t) :
    BoundedAt D table p t := by
  refine h.induction (P := fun _ t => BoundedAt D table p t) (S.bounded_initial h₀) ?_
  exact fun _ _ _ _ h hb hstep => S.bounded_step (h.valid S.built (h₀.valid S.built)) hstep hb

/-- An access with a line that cannot have been evicted hits. -/
theorem hits_of_ensures {a : Access} {address : Nat} (hs : BoundedAt D table p s)
    (hget : (table.block s.block)[s.served]? = some a) (htouch : a.Touches s.counter address)
    (hset : D.cache.set address = D.set)
    (hensures : D.ensures (D.before table p s.block s.served) a.toDataUse = true) :
    s.content.hits address = true := by
  obtain ⟨l, hfind, hlt⟩ := ensures_iff.mp hensures
  have hl := List.mem_of_find?_eq_some hfind
  have hfor : l.reference = D.normalize a.reference := (isFor_iff.mp (List.find?_some hfind)).1
  rcases S.regular s.block a (List.mem_of_getElem? hget) with ha | ⟨e, ha, hcan, -⟩
  · obtain ⟨x, hx, -⟩ := S.scoped_before l hl
    rw [ha] at hfor
    cases hx.symm.trans hfor
  · obtain ⟨e', hnorm, -, -, hblock⟩ := normalize_affine (D := D) hcan
    have haddress : address = (e.eval s.counter).toNat := htouch.eq_eval ha
    rw [ha, hnorm] at hfor
    have hset' : D.cache.set (e'.eval s.counter).toNat = D.set := by
      rw [Geometry.set, hblock, ← Geometry.set, ← haddress, hset]
    have hheld := (hs l hl e' hfor hlt hset').mem
    rw [hblock, ← haddress, ← hset] at hheld
    exact List.contains_iff_mem.mpr hheld

end Solution

/-- Whatever a cache holds when the program starts, an access hits in every execution in which its
address lies in the analysed set, if the fixed point has a line for it before the access that cannot
have been evicted. -/
theorem hit_of_ensures {blocks : List Block} {edges : List (Nat × Nat)}
    {bounds : List (Nat × LoopBound)} {entry maxVisits : Nat}
    (hG : FlowGraph.build blocks edges bounds entry = .ok G) (hL : D.loops = G.loops)
    (htable : table.Regular G.loops) (hp : (D.analysis table).solve G maxVisits = .ok p)
    (h₀ : s.Initial G) (hrun : Steps G table s es t) :
    ∀ ev ∈ es, ∀ a, (table.block ev.block)[ev.index]? = some a → D.cache.set ev.address = D.set →
      D.ensures (D.before table p ev.block ev.index) a.toDataUse = true → ev.hit = true := by
  have S : Solution D G table p :=
    ⟨FlowGraph.built_of_build hG, hL, hL ▸ htable, maxVisits, hp⟩
  refine hrun.induction (P := fun es _ => ∀ ev ∈ es, ∀ a,
    (table.block ev.block)[ev.index]? = some a → D.cache.set ev.address = D.set →
      D.ensures (D.before table p ev.block ev.index) a.toDataUse = true → ev.hit = true)
    (fun _ h => (by cases h)) ?_
  intro es o u v hsteps ih hstep ev hev
  rcases List.mem_append.mp hev with hev | hev
  · have hb := S.bounded h₀ hsteps
    cases hstep with
    | serve hget hcached htouch =>
      cases List.mem_singleton.mp hev
      intro a ha hset hensures
      cases hget.symm.trans ha
      exact S.hits_of_ensures hb hget htouch hset hensures
    | bypass => cases hev
    | follow => cases hev
  · exact ih ev hev

/-- A loop that runs its only block twice, between two other blocks. -/
def pairGraph : FlowGraph where
  graph := ⟨[⟨0, []⟩, ⟨4, []⟩, ⟨8, []⟩],
    [⟨0, 1, ⟨false, [], true⟩⟩, ⟨1, 1, ⟨true, [], false⟩⟩, ⟨1, 2, ⟨false, [1], false⟩⟩]⟩
  entry := 0
  dominators := ⟨0, [some 0, some 0, some 1], [0, 1, 2]⟩
  loops := ⟨[⟨⟨1, [1], [1]⟩, 0, none, [], ⟨some 2, some 2⟩⟩], [0, 1, 2]⟩

/-- The loop loads two words in turn; the second one is loaded again behind it. -/
def pairTable : AccessTable :=
  ⟨[[], [⟨⟨1, .affine ⟨[⟨4, 1⟩], 0x1000⟩, true⟩, 4, .load, .uint32, none⟩],
    [⟨⟨2, .affine ⟨[], 0x1004⟩, true⟩, 8, .load, .uint32, none⟩]]⟩

/-- A cache of two sets of two lines of four bytes, of which the second set is analysed. -/
def pairDomain : SetDomain :=
  ⟨⟨pairGraph.loops, { twoLines with blockBits := 2, setBits := 1, bits_lt := by decide }, 100⟩, 1⟩

def pairSolution : Progress SetState :=
  .run (pairDomain.analysis pairTable) pairGraph 20
    (.start (pairDomain.analysis pairTable) pairGraph)

/-- The load behind the loop hits, since the line of the load in the loop has turned into one of
its last element. -/
theorem hit_of_ensures_last_element : ∃ es t ev,
    Steps pairGraph pairTable (⟨0, 0, fun _ => 0, .empty⟩ : Situation pairDomain.cache) es t ∧
      ev ∈ es ∧ ev.block = 2 ∧ ev.address = 0x1004 ∧
      pairDomain.ensures (pairDomain.before pairTable pairSolution 2 0)
        ⟨2, .affine ⟨[], 0x1004⟩, true⟩ = true ∧ ev.hit = true := by
  have hbuild : FlowGraph.build [⟨0, []⟩, ⟨4, []⟩, ⟨8, []⟩] [(0, 1), (1, 1), (1, 2)]
      [(1, ⟨some 2, some 2⟩)] 0 = .ok pairGraph := rfl
  have hsolve : (pairDomain.analysis pairTable).solve pairGraph 20 = .ok pairSolution := rfl
  have hrun : Steps pairGraph pairTable
      (⟨0, 0, fun _ => 0, .empty⟩ : Situation pairDomain.cache) _ _ :=
    .tail (.tail (.tail (.tail (.tail (.tail .refl
      (.follow (e := ⟨0, 1, ⟨false, [], true⟩⟩) rfl (by decide) (by decide) (by decide)))
      (.serve rfl rfl (.affine rfl)))
      (.follow (e := ⟨1, 1, ⟨true, [], false⟩⟩) rfl (by decide) (by decide) (by decide)))
      (.serve rfl rfl (.affine rfl)))
      (.follow (e := ⟨1, 2, ⟨false, [1], false⟩⟩) rfl (by decide) (by decide) (by decide)))
      (.serve rfl rfl (.affine rfl))
  refine ⟨_, _, _, hrun, List.mem_cons_self, rfl, by rfl, by decide, ?_⟩
  exact hit_of_ensures (D := pairDomain) hbuild rfl (by decide) hsolve ⟨rfl, rfl, rfl, by decide⟩
    hrun _ List.mem_cons_self _ rfl rfl (by decide)

end SetDomain

end MissBound
