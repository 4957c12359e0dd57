import MissBound.Proofs.Lru.SetMisses

/-!
Persistence of accesses to a fixed address. The level of their line for the innermost loop bounds
the age of their block from the first execution in the loop on, whatever cycles the loop has, so
that they miss at most once before the loop is left.
-/

namespace MissBound

theorem countP_le_one {α : Type} {P : α → Bool} {xs : List α}
    (h : xs.Pairwise fun x y => P x = true → P y = true → False) : xs.countP P ≤ 1 := by
  induction h with
  | nil => exact Nat.zero_le _
  | @cons x xs hx _ ih =>
    rw [List.countP_cons]
    split
    · rename_i hpos
      have hzero : xs.countP P = 0 := List.countP_eq_zero.mpr fun y hy => hx y hy hpos
      omega
    · exact ih

namespace SetDomain

variable {D : SetDomain} {G : FlowGraph} {table : AccessTable} {p : Progress SetState}
  {e f : Affine} {b k inner : Nat} {a : Access} {es : List Event} {log : List Attempt}
  {s₀ s t : Situation D.cache}

/-- The access at position `k` of block `b` uses the fixed address of `f`, and the loop of `inner`
is the innermost one around it. -/
structure Fixed (G : FlowGraph) (table : AccessTable) (inner b k : Nat) (a : Access) (f : Affine) :
    Prop where
  get : (table.block b)[k]? = some a
  cached : a.cached = true
  reference : a.reference = .affine f
  constant : f.isConstant = true
  innermost : G.loops.innermostHeader? b = some inner

namespace Solution

variable (S : Solution D G table p) (hplaced : table.Placed) (F : Fixed G table inner b k a f)
  (h₀ : s₀.Initial G) (hsteps : Steps G table s₀ es s) (hs : G.loops.Inside inner s.block)
  (hrun : Rounds G table inner s log t)
include S hplaced F h₀ hsteps hs hrun

/-- Once the access has been executed, its block is retained until the loop is left. -/
theorem retains_fixed (hnorm : D.normalize (.affine f) = .affine e) (hterms : e.terms = [])
    (hblock : ∀ c, D.cache.block (e.eval c).toNat = D.cache.block (f.eval c).toNat)
    (hset : D.cache.set f.constant.toNat = D.set) {y : Attempt} (hy : y ∈ log)
    (hat : y.isAt b k = true) :
    Retains D (D.loops.depthAt inner) (D.cache.block f.constant.toNat) e (t.content D.set)
      (D.before table p t.block t.served) := by
  have B := S.built
  have Vs := hsteps.valid B (h₀.valid B)
  have heval : ∀ c, f.eval c = f.constant := fun c => Affine.eval_of_isConstant F.constant
  induction hrun with
  | refl => cases hy
  | @tail log o t u hrun hstep hu ih =>
    have V := hrun.valid B Vs
    rcases List.mem_append.mp hy with hy | hy
    · obtain ⟨rfl, rfl, -⟩ := mem_attempts_isAt hy hat
      rw [← heval t.counter] at hset ⊢
      exact S.retains_executed V hstep F.get F.cached F.reference hnorm hset
    · obtain ⟨es', hes'⟩ := hrun.exists_steps
      apply S.retains_step hplaced V (S.bounded h₀ (hsteps.trans hes')) hstep (hrun.inside hs) hu
      · intro h hh
        simp [Symbolic.firstHeader?, Symbolic.terms, hterms] at hh
      · rw [hblock, heval]
      · exact hset
      · exact ih hy

/-- After its first execution in the loop, the access hits if its line persists. -/
theorem not_missed_fixed (hpersists : D.persists (D.before table p b k) a.toDataUse = true) :
    log.Pairwise fun z y => D.executes f b k z = true → D.executes f b k y = true →
      z.missed = false := by
  have B := S.built
  have heval : ∀ c, f.eval c = f.constant := fun c => Affine.eval_of_isConstant F.constant
  induction hrun with
  | refl => exact .nil
  | @tail log o t u hrun hstep hu ih =>
    refine List.pairwise_append.mpr ⟨pairwise_attempts, ih, fun z hz y hy hexz hexy => ?_⟩
    obtain ⟨hatz, hset⟩ := executes_iff.mp hexz
    rw [heval] at hset
    obtain ⟨rfl, rfl, -⟩ := mem_attempts_isAt hz hatz
    have V := hrun.valid B (hsteps.valid B (h₀.valid B))
    obtain ⟨hcan, -, -⟩ := S.regular_of_affine F.get F.reference
    obtain ⟨e, hnorm, hterms, -, hblock⟩ := normalize_affine (D := D) hcan
    rw [List.isEmpty_iff.mp F.constant] at hterms
    have hretains := S.retains_fixed hplaced F h₀ hsteps hs hrun hnorm hterms hblock hset hy
      (executes_iff.mp hexy).1
    rw [← F.reference] at hnorm
    obtain ⟨hin, haround⟩ := B.loops.innermostHeader?_spec B.closed B.entry_lt V.reaches F.innermost
    have hheld := S.mem_of_persists hplaced V.reaches hin haround hnorm hretains hpersists
    have hhits : t.content.hits f.constant.toNat = true := by
      apply List.contains_iff_mem.mpr
      rw [hset]
      exact hheld
    rw [(mem_attempts hz).2, hstep.hit_eq F.get F.cached F.reference, heval, hhits]
    rfl

end Solution

/-- During one execution of the innermost loop around it, an access to a fixed address misses at
most once in a set that has a line for it before the access which persists in that loop. -/
theorem misses_once {blocks : List Block} {edges : List (Nat × Nat)}
    {bounds : List (Nat × LoopBound)} {entry maxVisits : Nat}
    (hG : FlowGraph.build blocks edges bounds entry = .ok G) (hL : D.loops = G.loops)
    (htable : table.Regular G.loops) (hplaced : table.Placed)
    (hp : (D.analysis table).solve G maxVisits = .ok p) (F : Fixed G table inner b k a f)
    (hpersists : D.persists (D.before table p b k) a.toDataUse = true) (h₀ : s₀.Initial G)
    (hsteps : Steps G table s₀ es s) (hs : G.loops.Inside inner s.block)
    (hrun : Rounds G table inner s log t) :
    log.countP (fun z => D.executes f b k z && z.missed) ≤ 1 := by
  have S : Solution D G table p :=
    ⟨FlowGraph.built_of_build hG, hL, hL ▸ htable, maxVisits, hp⟩
  apply countP_le_one
  refine (S.not_missed_fixed hplaced F h₀ hsteps hs hrun hpersists).imp fun {z y} hhit hz hy => ?_
  simp only [Bool.and_eq_true] at hz hy
  rw [hhit hz.1 hy.1] at hz
  exact absurd hz.2 Bool.false_ne_true

/-- The loop loads the same two words in both iterations. -/
def repeatTable : AccessTable :=
  ⟨[[], [⟨⟨1, .const 0x1004, true⟩, 4, .load, .uint32, none⟩,
    ⟨⟨1, .const 0x2004, true⟩, 4, .load, .uint32, none⟩], []]⟩

def repeatSolution : Progress SetState :=
  .run (pairDomain.analysis repeatTable) pairGraph 20
    (.start (pairDomain.analysis repeatTable) pairGraph)

/-- Nothing is known of the first load when the loop is entered, but it persists in the loop. -/
theorem misses_once_repeated : ∃ log t,
    Rounds pairGraph repeatTable 1 (⟨1, 0, pairGraph.count ⟨0, 1, ⟨false, [], true⟩⟩ fun _ => 0,
      .empty⟩ : Situation pairDomain.cache) log t ∧
    log.countP (·.isAt 1 0) = 2 ∧
    pairDomain.ensures (pairDomain.before repeatTable repeatSolution 1 0)
      ⟨1, .const 0x1004, true⟩ = false ∧
    pairDomain.persists (pairDomain.before repeatTable repeatSolution 1 0)
      ⟨1, .const 0x1004, true⟩ = true ∧
    log.countP (fun z => pairDomain.executes ⟨[], 0x1004⟩ 1 0 z && z.missed) ≤ 1 := by
  have hbuild : FlowGraph.build [⟨0, []⟩, ⟨4, []⟩, ⟨8, []⟩] [(0, 1), (1, 1), (1, 2)]
    [(1, ⟨some 2, some 2⟩)] 0 = .ok pairGraph := rfl
  have hsolve : (pairDomain.analysis repeatTable).solve pairGraph 20 = .ok repeatSolution := rfl
  have hsteps : Steps pairGraph repeatTable
      (⟨0, 0, fun _ => 0, .empty⟩ : Situation pairDomain.cache) _ _ :=
    .tail .refl (.follow (e := ⟨0, 1, ⟨false, [], true⟩⟩) rfl (by decide) (by decide) (by decide))
  have hrun : Rounds pairGraph repeatTable 1 (⟨1, 0, pairGraph.count ⟨0, 1, ⟨false, [], true⟩⟩
      fun _ => 0, .empty⟩ : Situation pairDomain.cache) _ _ :=
    .tail (.tail (.tail (.tail .refl
      (.serve rfl rfl (.affine rfl)) (by decide))
      (.serve rfl rfl (.affine rfl)) (by decide))
      (.follow (e := ⟨1, 1, ⟨true, [], false⟩⟩) rfl (by decide) (by decide) (by decide))
        (by decide))
      (.serve rfl rfl (.affine rfl)) (by decide)
  refine ⟨_, _, hrun, by decide, by decide, by decide, ?_⟩
  exact misses_once hbuild rfl (by decide) (by decide) hsolve ⟨rfl, rfl, rfl, rfl, rfl⟩ (by decide)
    ⟨rfl, rfl, rfl, by decide⟩ hsteps (by decide) hrun

end SetDomain

end MissBound
