import MissBound.Proofs.Program.Execution

/-!
Executions of a loop. If the back edges of a loop and of the loops in it close all its cycles, a
block runs again only after another iteration of one of the loops around it, and so at greater
counters.
-/

namespace MissBound

namespace FlowGraph

variable {G : FlowGraph} {h x n : Nat} {rank : Nat → Nat} {e : Edge Crossing}

/-- Within the loop of `h`, an edge that closes no loop leads to a block of higher rank. -/
def Ranks (G : FlowGraph) (h : Nat) (rank : Nat → Nat) : Prop :=
  ∀ e ∈ G.graph.edges, G.graph.Reaches G.entry e.source → G.loops.Inside h e.source →
    G.loops.Inside h e.target → e.label.back = false → rank e.source < rank e.target

/-- The back edges of the loop of `h` and of the loops in it close all its cycles. -/
def Reducible (G : FlowGraph) (h : Nat) : Prop := ∃ rank, G.Ranks h rank

/-- The block `n` can only be followed by blocks above `x`, unless a loop around `x` starts its next
iteration. -/
structure Beyond (G : FlowGraph) (rank : Nat → Nat) (x n : Nat) : Prop where
  le : rank x ≤ rank n
  headers : ∀ g, G.loops.Inside g n → ¬G.loops.Inside g x → rank x < rank g

theorem Beyond.refl : G.Beyond rank x x := ⟨Nat.le_refl _, fun _ h₁ h₂ => absurd h₁ h₂⟩

section
variable (B : G.Built) (R : G.Ranks h rank)
include B R

/-- A header has a lower rank than the other blocks of its loop. -/
theorem Ranks.lt (hx : G.loops.Inside h x) (hn : G.loops.Inside h n)
    (hd : G.graph.Dominates G.entry x n) (hne : x ≠ n) (hr : G.graph.Reaches G.entry n) :
    rank x < rank n := by
  obtain ⟨w, hw⟩ := hr
  -- by induction on the length of the walk, as a back edge to `n` has been at `n` before
  induction hlen : w.length using Nat.strongRecOn generalizing n w with
  | ind len ih =>
    cases hw with
    | start => exact absurd (List.mem_singleton.mp (hd _ .start)) hne
    | @step m _ w hw hmn =>
      have hm : G.loops.Inside h m := by
        refine B.loops.inside_pred B.closed B.entry_lt hn (fun heq => hne ?_) hmn
        subst heq
        exact Digraph.Dominates.antisymm ⟨_, hw.step hmn⟩ hd
          (B.loops.dominates_of_inside B.closed B.entry_lt hx)
      obtain ⟨e, he, rfl, rfl⟩ := hmn
      cases hback : e.label.back with
      | false =>
        have hlt := R e he ⟨w, hw⟩ hm hn hback
        by_cases hxm : x = e.source
        · exact hxm ▸ hlt
        · refine Nat.lt_trans (ih w.length ?_ hm (hd.pred hne ⟨e, he, rfl, rfl⟩) hxm w hw rfl) hlt
          rw [← hlen, List.length_cons]
          exact Nat.lt_succ_self _
      | true =>
        have hin := (B.back_iff he ⟨w, hw⟩).mp hback
        obtain ⟨u, v, rfl, hv⟩ :=
          hw.upto (B.loops.dominates_of_inside B.closed B.entry_lt hin _ hw)
        refine ih v.length ?_ hn hd hne v hv rfl
        rw [← hlen, List.length_cons, List.length_append]
        omega

theorem Ranks.le_of_inside (hx : G.loops.Inside h x) (hn : G.loops.Inside h n)
    (hin : G.loops.Inside x n) (hr : G.graph.Reaches G.entry n) : rank x ≤ rank n := by
  by_cases heq : x = n
  · exact heq ▸ Nat.le_refl _
  · exact Nat.le_of_lt (R.lt B hx hn (B.loops.dominates_of_inside B.closed B.entry_lt hin) heq hr)

/-- Following an edge leads above `x`, unless a loop around `x` starts its next iteration. -/
theorem Ranks.beyond_step (H : G.Beyond rank x e.source) (he : e ∈ G.graph.edges)
    (hr : G.graph.Reaches G.entry e.source) (hs : G.loops.Inside h e.source)
    (ht : G.loops.Inside h e.target)
    (hnext : ¬(G.loops.Inside e.target e.source ∧ G.loops.Inside e.target x)) :
    rank x < rank e.target ∧ G.Beyond rank x e.target := by
  by_cases hback : G.loops.Inside e.target e.source
  · have hlt := H.headers _ hback fun hx => hnext ⟨hback, hx⟩
    refine ⟨hlt, Nat.le_of_lt hlt, fun g hg => H.headers g ?_⟩
    exact B.loops.inside_trans B.closed B.entry_lt hg hback
  · have hlt : rank x < rank e.target := by
      refine Nat.lt_of_le_of_lt H.le (R e he hr hs ht ?_)
      rw [← Bool.not_eq_true, B.back_iff he hr]
      exact hback
    refine ⟨hlt, Nat.le_of_lt hlt, fun g hg hgx => ?_⟩
    by_cases hgs : G.loops.Inside g e.source
    · exact H.headers g hgs hgx
    · exact B.eq_target_of_inside he hg hgs ▸ hlt

end

end FlowGraph

/-- A point of a run: a position in a block, with the counters of all loops. -/
structure Moment where
  block : Nat
  index : Nat
  counter : Nat → Nat

def Situation.moment {g : Geometry} (s : Situation g) : Moment := ⟨s.block, s.served, s.counter⟩

/-- A moment of an execution of a loop comes before another one. -/
inductive Precedes (G : FlowGraph) (rank : Nat → Nat) (p q : Moment) : Prop
  /-- Its block is still running. -/
  | here : p.block = q.block → p.index < q.index → p.counter = q.counter → Precedes G rank p q
  /-- Its block has been left, and no loop around it has started another iteration. -/
  | left : rank p.block < rank q.block → G.Beyond rank p.block q.block →
    (∀ g, G.loops.Inside g p.block → p.counter g = q.counter g) → Precedes G rank p q
  /-- The loop of `x` has started another iteration, but none around it. -/
  | next {x : Nat} : G.loops.Inside x p.block → G.Beyond rank x q.block →
    (∀ g, G.loops.Inside g x → g ≠ x → p.counter g = q.counter g) → p.counter x < q.counter x →
    Precedes G rank p q

section
variable {G : FlowGraph} {table : AccessTable} {g : Geometry} {h : Nat} {rank : Nat → Nat}
  {p q : Moment} {s t : Situation g} {o : Option Event}

section
variable (B : G.Built) (R : G.Ranks h rank)
include B R

/-- Following an edge within the loop. -/
theorem Precedes.follow {e : Edge Crossing} {k : Nat} {counter : Nat → Nat}
    (H : Precedes G rank p ⟨e.source, k, counter⟩) (hp : G.loops.Inside h p.block)
    (hpr : G.graph.Reaches G.entry p.block) (he : e ∈ G.graph.edges)
    (hr : G.graph.Reaches G.entry e.source) (hs : G.loops.Inside h e.source)
    (ht : G.loops.Inside h e.target) :
    Precedes G rank p ⟨e.target, 0, G.count e counter⟩ := by
  have hinc : G.loops.Inside e.target e.source → counter e.target < G.count e counter e.target := by
    intro hin
    rw [FlowGraph.count, Function.update_self, if_pos hin]
    exact Nat.lt_succ_self _
  have htrans : ∀ {x y z}, G.loops.Inside x y → G.loops.Inside y z →
      G.loops.Inside x z := fun h₁ h₂ =>
    B.loops.inside_trans B.closed B.entry_lt h₁ h₂
  -- the block itself, or the loop that has started another iteration last, bounds the ranks
  have hstill : G.Beyond rank p.block e.source → (∀ g, G.loops.Inside g p.block →
      p.counter g = counter g) → Precedes G rank p ⟨e.target, 0, G.count e counter⟩ := by
    intro hbeyond hagree
    by_cases hnext : G.loops.Inside e.target e.source ∧ G.loops.Inside e.target p.block
    · refine .next hnext.2 .refl (fun g hg hne => ?_) (hagree _ hnext.2 ▸ hinc hnext.1)
      exact (hagree g (htrans hg hnext.2)).trans (FlowGraph.count_of_ne hne).symm
    · obtain ⟨hlt, hbeyond⟩ := R.beyond_step B hbeyond he hr hs ht hnext
      refine .left hlt hbeyond fun g hg => ?_
      refine (hagree g hg).trans (FlowGraph.count_of_ne ?_).symm
      rintro rfl
      exact Nat.not_lt.mpr (R.le_of_inside B ht hp hg hpr) hlt
  cases H with
  | here hblock hindex hcounter => exact hstill (hblock ▸ .refl) fun g _ => congrFun hcounter g
  | left hlt hbeyond hagree => exact hstill hbeyond hagree
  | @next x hx hbeyond hagree hlt =>
    by_cases hnext : G.loops.Inside e.target e.source ∧ G.loops.Inside e.target x
    · refine .next (htrans hnext.2 hx) .refl (fun g hg hne => ?_) ?_
      · refine (hagree g (htrans hg hnext.2) ?_).trans (FlowGraph.count_of_ne hne).symm
        rintro rfl
        exact hne (B.loops.inside_antisymm B.closed B.entry_lt hnext.2 hg)
      · refine Nat.lt_of_le_of_lt ?_ (hinc hnext.1)
        by_cases hxt : e.target = x
        · exact hxt ▸ Nat.le_of_lt hlt
        · exact Nat.le_of_eq (hagree _ hnext.2 hxt)
    · obtain ⟨hup, hbeyond⟩ := R.beyond_step B hbeyond he hr hs ht hnext
      have hne : ∀ g, G.loops.Inside g x → g ≠ e.target := by
        rintro _ hg rfl
        have hxr := B.loops.reaches_of_inside B.closed B.entry_lt hx
        exact Nat.not_lt.mpr (R.le_of_inside B ht (htrans ht hg) hg hxr) hup
      refine .next hx hbeyond (fun g hg hgx => ?_) ?_
      · exact (hagree g hg hgx).trans (FlowGraph.count_of_ne (hne g hg)).symm
      · refine Nat.lt_of_lt_of_eq hlt (FlowGraph.count_of_ne (hne x ?_)).symm
        exact B.loops.inside_self B.closed B.entry_lt (B.loops.isHeader_of_inside hx)

/-- Every step within the loop keeps what comes before. -/
theorem Precedes.step (H : Precedes G rank p s.moment) (hp : G.loops.Inside h p.block)
    (hpr : G.graph.Reaches G.entry p.block) (V : s.Valid G table) (hs : G.loops.Inside h s.block)
    (hstep : Step G table s o t) (ht : G.loops.Inside h t.block) : Precedes G rank p t.moment := by
  cases hstep with
  | follow hk he => exact H.follow B R hp hpr he V.reaches hs ht
  | serve | bypass =>
    cases H with
    | here hblock hindex hcounter => exact .here hblock (Nat.lt_succ_of_lt hindex) hcounter
    | left hlt hbeyond hagree => exact .left hlt hbeyond hagree
    | next hx hbeyond hagree hlt => exact .next hx hbeyond hagree hlt

end

/-- The next time that a position of a block is reached, one of the loops around it has started
another iteration, and none around that loop. -/
theorem Precedes.exists_lt (H : Precedes G rank p q) (hblock : p.block = q.block)
    (hindex : p.index = q.index) : ∃ x, G.loops.Inside x p.block ∧ p.counter x < q.counter x ∧
      ∀ g, G.loops.Inside g x → g ≠ x → p.counter g = q.counter g := by
  cases H with
  | here _ hlt => exact absurd hindex (Nat.ne_of_lt hlt)
  | left hlt => exact absurd (congrArg rank hblock) (Nat.ne_of_lt hlt)
  | next hx _ hagree hlt => exact ⟨_, hx, hlt, hagree⟩

section
variable {y : Nat} (H : Precedes G rank p q)
  (hy : ∀ x, G.loops.Inside x p.block → G.loops.Inside x y)
  (hagree : ∀ x, G.loops.Inside x y → x ≠ y → p.counter x = q.counter x)
include H hy hagree

/-- If no loop further out has started another iteration, the counter of the innermost one around
the block has not decreased. -/
theorem Precedes.counter_le (hin : G.loops.Inside y p.block) : p.counter y ≤ q.counter y := by
  cases H with
  | here _ _ heq => exact Nat.le_of_eq (congrFun heq y)
  | left _ _ heq => exact Nat.le_of_eq (heq y hin)
  | @next x hx _ _ hlt =>
    by_cases hxy : x = y
    · exact hxy ▸ Nat.le_of_lt hlt
    · exact absurd (hagree x (hy x hx) hxy) (Nat.ne_of_lt hlt)

/-- If no loop further out has started another iteration, the innermost one around the block has not
been entered again. -/
theorem Precedes.not_entered (hblock : q.block = y) (hindex : q.index = 0) (hzero : q.counter y = 0)
    (hrank : rank y ≤ rank p.block) : False := by
  cases H with
  | here _ hlt => exact Nat.not_lt_zero _ (hindex ▸ hlt)
  | left hlt => exact Nat.not_lt.mpr hrank (hblock ▸ hlt)
  | @next x hx _ _ hlt =>
    by_cases hxy : x = y
    · exact Nat.not_lt_zero _ (hzero ▸ hxy ▸ hlt)
    · exact absurd (hagree x (hy x hx) hxy) (Nat.ne_of_lt hlt)

end

end

/-- One execution of an access. An access that goes past the cache counts as a miss. -/
structure Attempt extends Moment where
  missed : Bool

/-- An execution of the access at position `k` of block `b`. -/
def Attempt.isAt (b k : Nat) (x : Attempt) : Bool := x.block == b && x.index == k

/-- The execution of an access that a step from `s` makes, if it is not one over an edge. -/
def Situation.attempts {g : Geometry} (table : AccessTable) (s : Situation g) (o : Option Event) :
    List Attempt :=
  if s.served < (table.block s.block).length then [⟨s.moment, !o.any (·.hit)⟩] else []

section
variable (G : FlowGraph) (table : AccessTable) (h : Nat) {g : Geometry}

/-- Steps one after the other within the loop of `h`, with the accesses that they execute, the
latest first. -/
inductive Rounds (s : Situation g) : List Attempt → Situation g → Prop
  | refl : Rounds s [] s
  | tail {log : List Attempt} {o : Option Event} {t u : Situation g} :
    Rounds s log t → Step G table t o u → G.loops.Inside h u.block →
    Rounds s (t.attempts table o ++ log) u

end

section
variable {G : FlowGraph} {table : AccessTable} {h : Nat} {g : Geometry} {s t u : Situation g}
  {log : List Attempt} {o : Option Event} {x : Attempt}

theorem Attempt.isAt_iff {b k : Nat} : x.isAt b k = true ↔ x.block = b ∧ x.index = k := by
  rw [isAt, Bool.and_eq_true, beq_iff_eq, beq_iff_eq]

theorem mem_attempts (hx : x ∈ s.attempts table o) :
    x.toMoment = s.moment ∧ x.missed = !o.any (·.hit) := by
  unfold Situation.attempts at hx
  split at hx
  · cases List.mem_singleton.mp hx
    exact ⟨rfl, rfl⟩
  · cases hx

theorem mem_attempts_isAt {b k : Nat} (hx : x ∈ s.attempts table o) (hat : x.isAt b k = true) :
    s.block = b ∧ s.served = k ∧ x.counter = s.counter := by
  obtain ⟨hmoment, -⟩ := mem_attempts hx
  obtain ⟨rfl, rfl⟩ := Attempt.isAt_iff.mp hat
  rw [hmoment]
  exact ⟨rfl, rfl, rfl⟩

theorem pairwise_attempts {R : Attempt → Attempt → Prop} : (s.attempts table o).Pairwise R := by
  unfold Situation.attempts
  split
  · exact List.pairwise_singleton ..
  · exact .nil

theorem Step.moment_lt (hstep : Step G table s o t)
    (hlt : s.served < (table.block s.block).length) :
    t.block = s.block ∧ t.served = s.served + 1 ∧ t.counter = s.counter := by
  cases hstep with
  | serve => exact ⟨rfl, rfl, rfl⟩
  | bypass => exact ⟨rfl, rfl, rfl⟩
  | follow hk => exact absurd hk (Nat.ne_of_gt hlt)

/-- An access to a known address hits if its block is in the cache. -/
theorem Step.hit_eq {a : Access} {e : Affine} (hstep : Step G table s o t)
    (hget : (table.block s.block)[s.served]? = some a) (hcached : a.cached = true)
    (ha : a.reference = .affine e) :
    o.any (·.hit) = s.content.hits (e.eval s.counter).toNat := by
  cases hstep with
  | serve hget' _ htouch =>
    cases hget.symm.trans hget'
    rw [htouch.eq_eval ha]
    rfl
  | bypass hget' hcached' =>
    cases hget.symm.trans hget'
    cases hcached.symm.trans hcached'
  | follow hk =>
    subst hk
    rw [List.getElem?_length] at hget
    cases hget

namespace Rounds

/-- Every execution is made by a step of the run. -/
theorem exists_step (hrun : Rounds G table h s log t) (hx : x ∈ log) : ∃ log' t' o u,
    Rounds G table h s log' t' ∧ Step G table t' o u ∧ x ∈ t'.attempts table o := by
  induction hrun with
  | refl => cases hx
  | @tail log o t u hrun hstep hu ih =>
    rcases List.mem_append.mp hx with hx | hx
    · exact ⟨log, t, o, u, hrun, hstep, hx⟩
    · exact ih hx

theorem exists_steps (hrun : Rounds G table h s log t) : ∃ es, Steps G table s es t := by
  induction hrun with
  | refl => exact ⟨[], .refl⟩
  | tail _ hstep _ ih =>
    obtain ⟨es, hes⟩ := ih
    exact ⟨_, hes.tail hstep⟩

theorem inside (hrun : Rounds G table h s log t) (hs : G.loops.Inside h s.block) :
    G.loops.Inside h t.block := by
  cases hrun with
  | refl => exact hs
  | tail _ _ ht => exact ht

theorem valid (B : G.Built) (hrun : Rounds G table h s log t) (V : s.Valid G table) :
    t.Valid G table := by
  obtain ⟨es, hes⟩ := hrun.exists_steps
  exact hes.valid B V

section
variable {rank : Nat → Nat} (B : G.Built) (R : G.Ranks h rank)
include B R

/-- Whatever has been executed lies in the loop and comes before the present moment. -/
theorem mem_log (hrun : Rounds G table h s log t) (V : s.Valid G table)
    (hs : G.loops.Inside h s.block) : ∀ x ∈ log, G.loops.Inside h x.block ∧
      G.graph.Reaches G.entry x.block ∧ Precedes G rank x.toMoment t.moment := by
  induction hrun with
  | refl => exact fun x hx => (by cases hx)
  | @tail log o t u hrun hstep hu ih =>
    have Vt := hrun.valid B V
    have ht := hrun.inside hs
    intro x hx
    rcases List.mem_append.mp hx with hx | hx
    · unfold Situation.attempts at hx
      split at hx
      · rename_i hlt
        cases List.mem_singleton.mp hx
        obtain ⟨hblock, hserved, hcounter⟩ := hstep.moment_lt hlt
        refine ⟨ht, Vt.reaches, .here hblock.symm ?_ hcounter.symm⟩
        exact Nat.lt_of_lt_of_eq (Nat.lt_succ_self _) hserved.symm
      · cases hx
    · obtain ⟨hin, hr, hprec⟩ := ih x hx
      exact ⟨hin, hr, hprec.step B R hin hr Vt ht hstep hu⟩

/-- The executions of a run come one after the other. -/
theorem pairwise (hrun : Rounds G table h s log t) (V : s.Valid G table)
    (hs : G.loops.Inside h s.block) :
    log.Pairwise fun y x => Precedes G rank x.toMoment y.toMoment := by
  induction hrun with
  | refl => exact .nil
  | @tail log o t u hrun hstep hu ih =>
    refine List.pairwise_append.mpr ⟨pairwise_attempts, ih, fun y hy x hx => ?_⟩
    rw [(mem_attempts hy).1]
    exact (hrun.mem_log B R V hs x hx).2.2

end

end Rounds

end

end MissBound
