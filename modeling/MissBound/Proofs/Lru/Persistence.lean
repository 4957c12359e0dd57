import MissBound.Proofs.Lru.AlwaysHit
import MissBound.Proofs.Lru.Levels
import MissBound.Proofs.Program.Rounds

/-!
Persistence. While the innermost loop around an access goes on and its element stays in one block,
the level of its line for that loop bounds the age of the block from the first execution on. So the
access misses at most once as long as the level claims anything.
-/

namespace MissBound

namespace SetDomain

variable {D : SetDomain} {G : FlowGraph} {table : AccessTable} {p : Progress SetState}
  {K : LruSet D.cache.ways} {c : Nat → Nat} {s t : SetState} {l m : Line} {ls : List Line}
  {e : Affine} {v : Symbolic} {b j n x : Nat}

/-- The state has a line for `e` whose level for the loop at depth `j` bounds the age of block
`x`. -/
def Retains (D : SetDomain) (j x : Nat) (e : Affine) (S : LruSet D.cache.ways) (s : SetState) :
    Prop :=
  ∃ l ∈ s.lines, l.isFor (.affine e) = true ∧ (l.level j < D.ways → S.Holds x (l.level j))

theorem Retains.of_succeeds (h : Retains D j x e K s)
    (hsucc : ∀ m ∈ s.lines, m.isFor (.affine e) = true → ∃ l ∈ t.lines, l.Succeeds j m) :
    Retains D j x e K t := by
  obtain ⟨m, hm, hfor, hage⟩ := h
  obtain ⟨l, hl, hlm⟩ := hsucc m hm hfor
  obtain ⟨hr, hg⟩ := isFor_iff.mp hfor
  refine ⟨l, hl, isFor_iff.mpr ⟨hlm.reference.trans hr, hlm.generation.trans hg⟩, fun hlt => ?_⟩
  exact (hage (Nat.lt_of_le_of_lt hlm.level hlt)).mono hlm.level

theorem level_aged {used : Nat × Nat} (hj : j < l.persistence.length) :
    (D.aged used l).level j = Age.step D.ways used.1 (l.level j) := by
  unfold Line.level aged Age.Levels.step
  rw [List.getElem?_map, List.getElem?_eq_getElem hj]
  rfl

theorem level_touched : (D.touched l).level j < D.ways → (D.touched l).level j = 0 := by
  unfold Line.level touched Age.Levels.touch
  rw [List.getElem?_map]
  cases l.persistence[j]? with
  | none => exact fun _ => rfl
  | some a =>
    simp only [Option.map_some, Option.getD_some]
    split
    · exact fun _ => rfl
    · exact fun hlt => by omega

theorem level_fresh : (D.fresh v b).level j = 0 := by
  unfold Line.level fresh Age.Levels.fresh
  rw [List.getElem?_replicate]
  split <;> rfl

theorem mem_use_of_mem (hm : m ∈ ls) :
    (if m.isFor v then D.touched m else D.aged (D.useAges v ls) m) ∈ D.use v b ls := by
  have hmoved := List.mem_map_of_mem (f := fun l =>
    if l.isFor v then D.touched l else D.aged (D.useAges v ls) l) hm
  unfold use
  simp only
  split
  · exact hmoved
  · exact mem_insert.mpr (.inr hmoved)

/-- The line of the used element itself is young again at all levels that claim anything. -/
theorem exists_use_self : ∃ l ∈ D.use v b ls, l.isFor v = true ∧ l.may = 0 ∧
    (l.level j < D.ways → l.level j = 0) := by
  cases hany : ls.any (·.isFor v) with
  | true =>
    obtain ⟨m, hm, hfor⟩ := List.any_eq_true.mp hany
    have hmem := mem_use_of_mem (D := D) (v := v) (b := b) hm
    rw [if_pos hfor] at hmem
    exact ⟨_, hmem, hfor, rfl, level_touched⟩
  | false =>
    refine ⟨D.fresh v b, ?_, isFor_iff.mpr ⟨rfl, rfl⟩, rfl, fun _ => level_fresh⟩
    unfold use
    simp only [hany]
    exact mem_insert.mpr (.inl rfl)

section
variable {a : DataUse} {address : Nat} {content : CacheContent D.cache} (hcached : a.cached = true)

include hcached in
/-- A use of the element of `e` itself, by an access that is tracked as `e`. -/
theorem retains_update_self {f : Affine} (ha : a.reference = .affine f)
    (hnorm : D.normalize (.affine f) = .affine e) (hcan : f.Canonical D.loops)
    (hnarrow : f.Narrow D.loops)
    (hc : ∀ t ∈ f.terms, ∀ n, D.loops.maxIteration? t.header = some n → c t.header < n)
    (hset : D.cache.set (f.eval c).toNat = D.set) :
    Retains D j (D.cache.block (f.eval c).toNat) e (content.touch (f.eval c).toNat D.set)
      (D.update s a) := by
  rw [update_of_affine ha hcached, if_pos (References.concerns_of_set hcan hnarrow hc hset), hnorm]
  obtain ⟨l, hl, hfor, -, hlevel⟩ :=
    exists_use_self (D := D) (v := .affine e) (b := a.block) (j := j)
  refine ⟨l, hl, hfor, fun hlt => ?_⟩
  rw [hlevel hlt, ← hset, CacheContent.touch_self]
  exact LruSet.holds_touch_self D.cache.ways_pos

/-- A use of a known element keeps what is retained, and so does one in another set. -/
theorem retains_use {e' : Affine} (hs : Bounds D c (content D.set) s)
    (htidy : s.Tidy D n) (hj : j ≤ n) (hset : D.cache.set (e.eval c).toNat = D.set)
    (h : Retains D j (D.cache.block (e.eval c).toNat) e (content D.set) s) :
    Retains D j (D.cache.block (e.eval c).toNat) e (content.touch (e'.eval c).toNat D.set)
      (.known (D.use (.affine e') b s.lines)) := by
  obtain ⟨m, hm, hfor, hage⟩ := h
  have hmem := mem_use_of_mem (D := D) (v := .affine e') (b := b) hm
  split at hmem
  · rename_i hfor'
    cases (isFor_iff.mp hfor).1.symm.trans (isFor_iff.mp hfor').1
    refine ⟨_, hmem, hfor, fun hlt => ?_⟩
    rw [level_touched hlt, ← hset, CacheContent.touch_self]
    exact LruSet.holds_touch_self D.cache.ways_pos
  · refine ⟨_, hmem, hfor, fun hlt => ?_⟩
    have hlen := htidy.length m hm
    rw [level_aged (by omega)] at hlt ⊢
    have hheld := hage (Nat.lt_of_le_of_lt le_step hlt)
    by_cases hset' : D.cache.set (e'.eval c).toNat = D.set
    · rw [← hset', CacheContent.touch_self, hset']
      exact hheld.step (hs.holds_useAges hset') hlt
    · rw [CacheContent.touch_of_ne _ hset']
      exact hheld.mono le_step

theorem retains_useUnknown (htidy : s.Tidy D n) (hj : j ≤ n)
    (h : Retains D j x e (content D.set) s) :
    Retains D j x e (content.touch address D.set) (.known (D.useUnknown s.lines)) := by
  obtain ⟨m, hm, hfor, hage⟩ := h
  refine ⟨_, List.mem_map_of_mem hm, hfor, fun hlt => ?_⟩
  have hlen := htidy.length m hm
  change (D.aged (D.ways, D.ways) m).level j < D.ways at hlt
  change (content.touch address D.set).Holds x ((D.aged (D.ways, D.ways) m).level j)
  rw [level_aged (by omega)] at hlt ⊢
  have hheld := hage (Nat.lt_of_le_of_lt le_step hlt)
  by_cases hset : D.cache.set address = D.set
  · rw [← hset, CacheContent.touch_self, hset]
    exact hheld.step (fun h => absurd h (Nat.lt_irrefl _)) hlt
  · rw [CacheContent.touch_of_ne _ hset]
    exact hheld.mono le_step

/-- One access keeps what is retained. -/
theorem retains_update (hcached : a.cached = true) (ha : a.Regular D.loops b)
    (hc : ∀ h, D.loops.Inside h b → ∀ n, D.loops.maxIteration? h = some n → c h < n)
    (htouch : a.Touches c address) (hs : Bounds D c (content D.set) s) (htidy : s.Tidy D n)
    (hj : j ≤ n) (hset : D.cache.set (e.eval c).toNat = D.set)
    (h : Retains D j (D.cache.block (e.eval c).toNat) e (content D.set) s) :
    Retains D j (D.cache.block (e.eval c).toNat) e (content.touch address D.set)
      (D.update s a) := by
  rcases ha with ha | ⟨f, ha, hcan, hnarrow, hin⟩
  · rw [update_of_top ha hcached]
    exact retains_useUnknown htidy hj h
  · obtain rfl : address = (f.eval c).toNat := htouch.eq_eval ha
    rw [update_of_affine ha hcached]
    split
    · obtain ⟨f', hnorm, -, -, hblock⟩ := normalize_affine (D := D) hcan
      rw [hnorm, ← CacheContent.touch_congr (hblock c)]
      exact retains_use hs htidy hj hset h
    · rename_i hconcerns
      rw [CacheContent.touch_of_ne]
      · exact h
      · exact fun hset => hconcerns
          (References.concerns_of_set hcan hnarrow (fun t ht => hc _ (hin t ht)) hset)

end

/-- From the counters `c` to the counters `d` only iterations of the loop of `inner` have passed,
and `e` lies in block `x` in all of them. -/
structure Stays (D : SetDomain) (inner x : Nat) (e : Affine) (c d : Nat → Nat) : Prop where
  agree : ∀ g, D.loops.Inside g inner → g ≠ inner → c g = d g
  block : ∀ i, c inner ≤ i → i ≤ d inner →
    D.cache.block (e.eval (Function.update d inner i)).toNat = x

theorem Stays.block_eq {inner : Nat} {d : Nat → Nat} (h : Stays D inner x e c d)
    (hle : c inner ≤ d inner) : D.cache.block (e.eval d).toNat = x := by
  have hx := h.block _ hle (Nat.le_refl _)
  rwa [Function.update_eq_self] at hx

/-- The address of the access at position `k` of block `b` depends on all loops around it, of which
that of `inner` is the innermost one. -/
structure Indexed (G : FlowGraph) (table : AccessTable) (inner b k : Nat)
    (a : Access) (e : Affine) : Prop where
  get : (table.block b)[k]? = some a
  reference : a.reference = .affine e
  first : (Symbolic.affine e).firstHeader? = some inner
  inside : G.loops.Inside inner b
  around : ∀ g, G.loops.Inside g b → G.loops.Inside g inner
  covers : ∀ g, G.loops.Inside g b → ∃ t ∈ e.terms, t.header = g

/-- The access has a line that has not been evicted since the innermost loop around it was
entered. -/
def persists (D : SetDomain) (s : SetState) (a : DataUse) : Bool :=
  (s.lines.find? (·.isFor (D.normalize a.reference))).any fun l =>
    Age.Levels.isAlive D.ways l.persistence

namespace Solution

variable (S : Solution D G table p) (hplaced : table.Placed)
include S hplaced

omit hplaced in
theorem regular_of_affine {k : Nat} {a : Access} (hget : (table.block b)[k]? = some a)
    (ha : a.reference = .affine e) :
    e.Canonical D.loops ∧ e.Narrow D.loops ∧ ∀ t ∈ e.terms, D.loops.Inside t.header b := by
  rcases S.regular b a (List.mem_of_getElem? hget) with htop | ⟨f, ha', h⟩
  · cases ha.symm.trans htop
  · cases ha.symm.trans ha'
    exact h

theorem tidy_before {k : Nat} : (D.before table p b k).Tidy D (D.loops.depthAt b) := by
  obtain ⟨budget, h⟩ := S.solved
  obtain ⟨C, -⟩ := Progress.consistent_solve S.built (keeps_tidy S.built S.loops hplaced) h
  exact tidy_foldl_update (fun a ha => hplaced b a (List.mem_of_mem_take ha)) (C.inputs b)

/-- A line that persists keeps what its level for the innermost loop around its block retains. -/
theorem mem_of_persists {inner k : Nat} {a : DataUse} (hr : G.graph.Reaches G.entry b)
    (hin : G.loops.Inside inner b) (haround : ∀ g, G.loops.Inside g b → G.loops.Inside g inner)
    (hnorm : D.normalize a.reference = .affine e)
    (h : Retains D (D.loops.depthAt inner) x e K (D.before table p b k))
    (hpersists : D.persists (D.before table p b k) a = true) : x ∈ K.blocks := by
  have B := S.built
  obtain ⟨l, hl, hfor, hage⟩ := h
  have htidy := S.tidy_before hplaced (b := b) (k := k)
  -- the line found is the one that retains the block, and its last level is that of the loop
  unfold persists at hpersists
  rw [hnorm] at hpersists
  obtain ⟨l', hfind, halive⟩ := (Option.any_eq_true _ _).mp hpersists
  obtain ⟨hr₁, hg₁⟩ := isFor_iff.mp hfor
  have hfor' : l'.isFor (.affine e) = true := by simpa using List.find?_some hfind
  obtain ⟨hr₂, hg₂⟩ := isFor_iff.mp hfor'
  obtain rfl : l' = l := htidy.ascending.eq (List.mem_of_find?_eq_some hfind) hl
    (hr₂.trans hr₁.symm) (hg₂.trans hg₁.symm)
  have hdepth : D.loops.depthAt b = D.loops.depthAt inner := by
    have hri := B.loops.reaches_of_inside B.closed B.entry_lt hin
    rw [S.loops]
    refine Nat.le_antisymm (B.loops.depthAt_le B.closed B.entry_lt hr hri haround) ?_
    exact B.loops.depthAt_le B.closed B.entry_lt hri hr fun g hg =>
      B.loops.inside_trans B.closed B.entry_lt hg hin
  have hlevel : l'.level (D.loops.depthAt inner) < D.ways := by
    obtain ⟨v, hv, hlt⟩ := (Option.any_eq_true _ _).mp halive
    rw [List.getLast?_eq_getElem?, htidy.length l' hl, hdepth, Nat.add_sub_cancel] at hv
    rw [Line.level, hv]
    exact of_decide_eq_true hlt
  exact (hage hlevel).mem

/-- Over an edge all lines of the current generation that depend on no loop left have successors. -/
theorem succeeds_edge {edge : Edge Crossing} (he : edge ∈ G.graph.edges)
    (hr : G.graph.Reaches G.entry edge.source)
    (hj : j + edge.label.exited.length ≤ D.loops.depthAt edge.source)
    (hm : m ∈ (D.before table p edge.source (table.block edge.source).length).lines)
    (hgen : m.generation < D.ways)
    (hfree : ∀ h ∈ edge.label.exited, m.reference.firstHeader? ≠ some h) :
    ∃ l ∈ (D.before table p edge.target 0).lines, l.Succeeds j m := by
  have B := S.built
  have hrt : G.graph.Reaches G.entry edge.target := hr.step ⟨edge, he, rfl, rfl⟩
  have htidy := S.tidy_before hplaced (b := edge.source) (k := (table.block edge.source).length)
  obtain ⟨n, hsource, -⟩ := B.depthAt_cross he hr
  rw [S.loops, hsource] at htidy hj
  obtain ⟨k, hk, hkm⟩ := succeeds_propagate htidy (Nat.le_of_add_le_add_right hj) hm hgen hfree
  obtain ⟨i, hi⟩ := List.getElem?_of_mem he
  have hedge := S.edge_eq hi hr
  rw [transfer_eq_before (S.input_ne_bottom hr)] at hedge
  rw [before_zero, S.input_eq hrt]
  obtain ⟨budget, hsolved⟩ := S.solved
  obtain ⟨C, -⟩ := Progress.consistent_solve B (keeps_tidy B S.loops hplaced) hsolved
  obtain ⟨l, hl, hlk⟩ := (tidy_joinAll (j := j) (tidy_arrivals C.edges)).2 _
    (Progress.mem_arrivals hi) k (hedge ▸ hk)
  exact ⟨l, hl, hlk.trans hkm⟩

omit hplaced in
/-- An execution of an access retains its block. -/
theorem retains_executed {t u : Situation D.cache} {o : Option Event} {a : Access} {f : Affine}
    (V : t.Valid G table) (hstep : Step G table t o u)
    (hget : (table.block t.block)[t.served]? = some a) (hcached : a.cached = true)
    (ha : a.reference = .affine f) (hnorm : D.normalize (.affine f) = .affine e)
    (hset : D.cache.set (f.eval t.counter).toNat = D.set) :
    Retains D j (D.cache.block (f.eval t.counter).toNat) e (u.content D.set)
      (D.before table p u.block u.served) := by
  cases hstep with
  | @serve b k address counter content a' hget' _ htouch =>
    cases hget.symm.trans hget'
    obtain ⟨hcan, hnarrow, hin⟩ := S.regular_of_affine hget ha
    rw [htouch.eq_eval ha]
    change Retains D j _ e (content.touch (f.eval counter).toNat D.set) (D.before table p b (k + 1))
    rw [before_succ hget]
    refine retains_update_self hcached ha hnorm hcan hnarrow (fun t ht n hn => ?_) hset
    exact V.admits _ (S.loops ▸ hin t ht) n (S.loops ▸ hn)
  | bypass hget' hcached' =>
    cases hget.symm.trans hget'
    cases hcached.symm.trans hcached'
  | follow hk =>
    subst hk
    rw [List.getElem?_length] at hget
    cases hget

/-- One step within the loop of `inner` keeps what is retained. -/
theorem retains_step {inner : Nat} {t u : Situation D.cache} {o : Option Event}
    (V : t.Valid G table) (hb : BoundedAt D table p t) (hstep : Step G table t o u)
    (hs : G.loops.Inside inner t.block) (ht : G.loops.Inside inner u.block)
    (hfirst : ∀ h, (Symbolic.affine e).firstHeader? = some h → G.loops.Inside h inner)
    (hx : D.cache.block (e.eval u.counter).toNat = x) (hset : x % D.cache.setCount = D.set)
    (h : Retains D (D.loops.depthAt inner) x e (t.content D.set)
      (D.before table p t.block t.served)) :
    Retains D (D.loops.depthAt inner) x e (u.content D.set)
      (D.before table p u.block u.served) := by
  have B := S.built
  cases hstep with
  | @serve b k address counter content a hget hcached htouch =>
    have hc : ∀ h, D.loops.Inside h b → ∀ n, D.loops.maxIteration? h = some n → counter h < n :=
      fun h hh n hn => V.admits h (S.loops ▸ hh) n (S.loops ▸ hn)
    have hdepth : D.loops.depthAt inner ≤ D.loops.depthAt b := by
      rw [S.loops]
      refine B.loops.depthAt_le B.closed B.entry_lt
        (B.loops.reaches_of_inside B.closed B.entry_lt hs)
        V.reaches fun g hg => B.loops.inside_trans B.closed B.entry_lt hg hs
    change Retains D _ x e (content.touch address D.set) (D.before table p b (k + 1))
    rw [before_succ hget, ← hx]
    exact retains_update hcached (S.regular b a (List.mem_of_getElem? hget)) hc htouch hb
      (S.tidy_before hplaced) hdepth (by rw [← hx] at hset; exact hset) (hx ▸ h)
  | @bypass b k counter content a hget hcached =>
    change Retains D _ x e (content D.set) (D.before table p b (k + 1))
    rw [before_succ hget, update_of_uncached hcached]
    exact h
  | @follow k edge counter content hk he hcomplete hadmits =>
    subst hk
    refine h.of_succeeds fun m hm hfor => ?_
    obtain ⟨hr, hg⟩ := isFor_iff.mp hfor
    have hdepth : D.loops.depthAt inner + edge.label.exited.length ≤
        D.loops.depthAt edge.source := by
      obtain ⟨n, hsource, -, hle⟩ := B.depthAt_cross he V.reaches
      rw [S.loops, hsource]
      exact Nat.add_le_add_right (hle inner hs ht) _
    refine S.succeeds_edge hplaced he V.reaches hdepth hm (hg ▸ D.cache.ways_pos) ?_
    -- a loop on which the line depends goes on with that of `inner`
    intro g hex heq
    refine ((B.mem_exited he V.reaches).mp hex).2 ?_
    exact B.loops.inside_trans B.closed B.entry_lt (hfirst g (hr ▸ heq)) ht

end Solution

section
variable {inner k : Nat} {a : Access} (B : G.Built) (I : Indexed G table inner b k a e)
include B I

omit B in
theorem Indexed.normalize_eq : D.normalize (.affine e) = .affine e := by
  have hterms : e.isConstant = false := by
    have hfirst : e.terms.head?.map (·.header) = some inner := I.first
    unfold Affine.isConstant
    cases hterms : e.terms with
    | nil =>
      rw [hterms] at hfirst
      cases hfirst
    | cons t ts => rfl
  unfold normalize Symbolic.constant?
  simp [hterms]

/-- No term of the expression belongs to a loop within the innermost one. -/
theorem Indexed.header_ne (hin : ∀ t ∈ e.terms, G.loops.Inside t.header b) {h : Nat}
    (hh : G.loops.Inside inner h) (hne : h ≠ inner) : ∀ t ∈ e.terms, t.header ≠ h := by
  rintro t ht rfl
  exact hne (B.loops.inside_antisymm B.closed B.entry_lt hh (I.around _ (hin t ht)))

/-- Following an edge within the innermost loop backwards. -/
theorem Indexed.stays_of_count (hL : D.loops = G.loops)
    (hin : ∀ t ∈ e.terms, G.loops.Inside t.header b)
    {edge : Edge Crossing} {d : Nat → Nat} (hs : G.loops.Inside inner edge.source)
    (ht : G.loops.Inside inner edge.target) (h : Stays D inner x e c (G.count edge d)) :
    Stays D inner x e c d := by
  refine ⟨fun g hg hne => ?_, fun i hci hid => ?_⟩
  · refine (h.agree g hg hne).trans (FlowGraph.count_of_ne ?_)
    rintro rfl
    exact hne (B.loops.inside_antisymm B.closed B.entry_lt ht (hL ▸ hg))
  · have hle : i ≤ G.count edge d inner := by
      by_cases heq : inner = edge.target
      · subst heq
        rw [FlowGraph.count, Function.update_self, if_pos hs]
        exact Nat.le_succ_of_le hid
      · rw [FlowGraph.count_of_ne heq]
        exact hid
    rw [← h.block i hci hle]
    refine congrArg (fun w : UInt32 => D.cache.block w.toNat) (Affine.eval_congr fun t hmem => ?_)
    by_cases heq : t.header = inner
    · rw [heq, Function.update_self, Function.update_self]
    · rw [Function.update_of_ne heq, Function.update_of_ne heq]
      refine (FlowGraph.count_of_ne ?_).symm
      by_cases htarget : edge.target = inner
      · exact fun h => heq (h.trans htarget)
      · exact I.header_ne B hin ht htarget t hmem

end

namespace Solution

section
variable {inner outer k : Nat} {a : Access} {rank : Nat → Nat} {es : List Event}
  {log : List Attempt} {s₀ s t : Situation D.cache} (S : Solution D G table p)
  (hplaced : table.Placed) (I : Indexed G table inner b k a e) (R : G.Ranks outer rank)
  (houter : G.loops.Inside outer inner) (h₀ : s₀.Initial G) (hsteps : Steps G table s₀ es s)
  (hs : G.loops.Inside outer s.block) (hrun : Rounds G table outer s log t)
  (hcached : a.cached = true)
include S hplaced I R houter h₀ hsteps hs hrun hcached

/-- Once the access has been executed, its block is retained while the innermost loop goes on and
the element stays in the block. -/
theorem retains {y : Attempt} (hy : y ∈ log)
    (hat : y.isAt b k = true) (ht : G.loops.Inside inner t.block)
    (hstay : Stays D inner x e y.counter t.counter) (hset : x % D.cache.setCount = D.set) :
    Retains D (D.loops.depthAt inner) x e (t.content D.set)
      (D.before table p t.block t.served) := by
  have B := S.built
  obtain ⟨hblock, -⟩ := Attempt.isAt_iff.mp hat
  obtain ⟨-, -, hin⟩ := S.regular_of_affine I.get I.reference
  have Vs := hsteps.valid B (h₀.valid B)
  induction hrun with
  | refl => cases hy
  | @tail log o t u hrun hstep hu ih =>
    have V := hrun.valid B Vs
    have hbounded : BoundedAt D table p t := by
      obtain ⟨es', hes'⟩ := hrun.exists_steps
      exact S.bounded h₀ (hsteps.trans hes')
    obtain ⟨hyin, hyr, hprec⟩ := (hrun.tail hstep hu).mem_log B R Vs hs y hy
    have hyaround : ∀ g, G.loops.Inside g y.block → G.loops.Inside g inner := hblock ▸ I.around
    have hyinside : G.loops.Inside inner y.block := hblock ▸ I.inside
    have hagree : ∀ g, G.loops.Inside g inner → g ≠ inner → y.counter g = u.counter g := fun g hg =>
      hstay.agree g (S.loops ▸ hg)
    have hx := hstay.block_eq (hprec.counter_le hyaround hagree hyinside)
    rcases List.mem_append.mp hy with hy | hy
    · -- this is the execution itself
      obtain ⟨rfl, rfl, -⟩ := mem_attempts_isAt hy hat
      obtain ⟨-, -, hcounter⟩ := hstep.moment_lt (List.getElem?_eq_some_iff.mp I.get).1
      rw [hcounter] at hx
      subst hx
      exact S.retains_executed V hstep I.get hcached I.reference I.normalize_eq hset
    · by_cases hinner : G.loops.Inside inner t.block
      · have hstay' : Stays D inner x e y.counter t.counter := by
          cases hstep with
          | serve => exact hstay
          | bypass => exact hstay
          | follow => exact I.stays_of_count B S.loops (S.loops ▸ hin) hinner ht hstay
        refine S.retains_step hplaced V hbounded hstep hinner ht ?_ hx hset (ih hy hinner hstay')
        intro h hh
        cases I.first.symm.trans hh
        exact I.around _ I.inside
      · cases hstep with
        | serve => exact absurd ht hinner
        | bypass => exact absurd ht hinner
        | @follow k' edge counter content hk he hcomplete hadmits =>
          obtain rfl : inner = edge.target := B.eq_target_of_inside he ht hinner
          refine (hprec.not_entered hyaround hagree rfl rfl ?_ ?_).elim
          · change G.count edge counter edge.target = 0
            rw [FlowGraph.count, Function.update_self, if_neg hinner]
          · exact R.le_of_inside B houter hyin hyinside hyr

/-- An access hits if its block is retained and its line persists. -/
theorem hits_of_persists {y : Attempt} (hy : y ∈ log)
    (hat : y.isAt b k = true) (ht : t.block = b) (hk : t.served = k)
    (hstay : Stays D inner x e y.counter t.counter) (hset : x % D.cache.setCount = D.set)
    (hpersists : D.persists (D.before table p b k) a.toDataUse = true) :
    t.content.hits (e.eval t.counter).toNat = true := by
  have B := S.built
  have Vs := hsteps.valid B (h₀.valid B)
  have hinside : G.loops.Inside inner t.block := ht ▸ I.inside
  have hretains := S.retains hplaced I R houter h₀ hsteps hs hrun hcached hy hat hinside hstay hset
  obtain ⟨hblock, hindex⟩ := Attempt.isAt_iff.mp hat
  obtain ⟨-, hr, hprec⟩ := hrun.mem_log B R Vs hs y hy
  subst ht hk
  have hx : D.cache.block (e.eval t.counter).toNat = x := by
    refine hstay.block_eq (hprec.counter_le (hblock ▸ I.around) (fun g hg => ?_)
      (hblock ▸ I.inside))
    exact hstay.agree g (S.loops ▸ hg)
  have hnorm : D.normalize a.reference = .affine e := by rw [I.reference, I.normalize_eq]
  have hheld := S.mem_of_persists hplaced (hblock ▸ hr) I.inside I.around hnorm hretains hpersists
  rw [← hx] at hheld hset
  refine List.contains_iff_mem.mpr ?_
  rw [show D.cache.set (e.eval t.counter).toNat = D.set from hset]
  exact hheld

/-- In the executions of a loop, one access misses only where its innermost loop or its block
changes. -/
theorem not_missed
    (hpersists : D.persists (D.before table p b k) a.toDataUse = true) :
    log.Pairwise fun z y => z.isAt b k = true → y.isAt b k = true → ∀ x,
      Stays D inner x e y.counter z.counter → x % D.cache.setCount = D.set → z.missed = false := by
  induction hrun with
  | refl => exact .nil
  | @tail log o t u hrun hstep hu ih =>
    refine List.pairwise_append.mpr
      ⟨pairwise_attempts, ih, fun z hz y hy hatz haty x hstay hset => ?_⟩
    obtain ⟨hb, hk, hcounter⟩ := mem_attempts_isAt hz hatz
    rw [(mem_attempts hz).2, hstep.hit_eq (hb ▸ hk ▸ I.get) hcached I.reference,
      S.hits_of_persists hplaced I R houter h₀ hsteps hs hrun hcached hy haty hb hk
        (hcounter ▸ hstay) hset hpersists]
    rfl

end

end Solution

end SetDomain

end MissBound
