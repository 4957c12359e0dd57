import MissBound.Proofs.Lru.Persistence
import MissBound.Proofs.Lru.TrialCount

/-!
The misses of an access in one set. During an execution of a loop every execution of the access is a
trial of its iteration space, and no two are the same one, so that misses can be counted as trials.
-/

namespace MissBound

namespace Odometer

variable {c d : Nat → Nat} {ws : List Wheel} {w : Wheel}

theorem setTo_eq_iff : setTo c ws = setTo d ws ↔ ∀ w ∈ ws, c w.header = d w.header := by
  unfold setTo
  rw [List.map_inj_left]
  exact forall₂_congr fun w _ => ⟨fun h => (Wheel.mk.inj h).2.2, fun h => by rw [h]⟩

theorem setTo_cons : setTo d (w :: ws) = { w with counter := d w.header } :: setTo d ws := rfl

theorem setTo_update {i : Nat} (h : ∀ v ∈ ws, v.header ≠ w.header) :
    setTo (Function.update d w.header i) (w :: ws) = { w with counter := i } :: setTo d ws := by
  rw [setTo_cons, Function.update_self,
    setTo_eq_iff.mpr fun v hv => Function.update_of_ne (h v hv) ..]

end Odometer

theorem rel_or_rel {α : Type} {R : α → α → Prop} {xs : List α} {x y : α} (h : xs.Pairwise R)
    (hx : x ∈ xs) (hy : y ∈ xs) (hne : x ≠ y) : R x y ∨ R y x := by
  have : Std.Symm fun x y => R x y ∨ R y x := ⟨fun _ _ => Or.symm⟩
  have hboth : xs.Pairwise fun x y => R x y ∨ R y x := h.imp Or.inl
  exact hboth.forall hx hy hne

namespace SetDomain

variable {D : SetDomain} {G : FlowGraph} {table : AccessTable} {p : Progress SetState} {e : Affine}
  {b k inner outer : Nat} {a : Access} {space : Odometer} {rank : Nat → Nat} {es : List Event}
  {log : List Attempt} {s₀ s t : Situation D.cache} {y z : Attempt}

/-- An execution of the access at position `k` of block `b` in the set. -/
def executes (D : SetDomain) (e : Affine) (b k : Nat) (z : Attempt) : Bool :=
  z.isAt b k && D.cache.set (e.eval z.counter).toNat == D.set

/-- The trial of an execution. -/
def trialOf (D : SetDomain) (e : Affine) (space : Odometer) (z : Attempt) : Odometer × Nat :=
  (⟨Odometer.setTo z.counter space.wheels⟩, D.cache.block (e.eval z.counter).toNat)

theorem executes_iff : D.executes e b k z = true ↔
    z.isAt b k = true ∧ D.cache.set (e.eval z.counter).toNat = D.set := by
  rw [executes, Bool.and_eq_true, beq_iff_eq]

section
variable (I : Indexed G table inner b k a e) (hspace : e.space? D.loops = some space)
include I hspace

/-- The first wheel of the iteration space is that of the innermost loop. -/
theorem Indexed.wheels_eq (hcan : e.Canonical D.loops) : ∃ w ws, space.wheels = w :: ws ∧
    w.header = inner ∧ (∀ v ∈ ws, v.header ≠ w.header) ∧
    ∀ g, G.loops.Inside g b → g ≠ inner → ∃ v ∈ ws, v.header = g := by
  obtain ⟨-, hheaders, -⟩ := Odometer.start?_eq_some hspace
  have hfirst : e.terms.head?.map (·.header) = some inner := I.first
  have hdistinct : e.headers.Pairwise (· ≠ ·) :=
    List.pairwise_map.mpr (hcan.sorted.imp fun hlt => D.loops.ne_of_compareHeaders hlt)
  have hcovers : ∀ g, G.loops.Inside g b → g ∈ e.headers := fun g hg => by
    obtain ⟨u, hu, rfl⟩ := I.covers g hg
    exact List.mem_map.mpr ⟨u, hu, rfl⟩
  rw [← List.head?_map] at hfirst
  change e.headers.head? = some inner at hfirst
  rw [← hheaders] at hfirst hdistinct hcovers
  cases hw : space.wheels with
  | nil =>
    rw [hw] at hfirst
    cases hfirst
  | cons w ws =>
    rw [hw] at hfirst hdistinct hcovers
    obtain rfl : w.header = inner := Option.some.inj hfirst
    have hne := (List.pairwise_cons.mp (hdistinct : (w.header :: ws.map (·.header)).Pairwise _)).1
    refine ⟨w, ws, rfl, rfl, fun v hv => Ne.symm (hne _ (List.mem_map_of_mem hv)),
      fun g hg hgi => ?_⟩
    rcases List.mem_cons.mp (hcovers g hg) with heq | hmem
    · exact absurd heq hgi
    · exact List.mem_map.mp hmem

/-- Connected trials of two executions: only iterations of the innermost loop lie between them, all
in one block. -/
theorem Indexed.stays_of_continues (hL : D.loops = G.loops) (B : G.Built)
    (hcan : e.Canonical D.loops)
    (h : Relation.TransGen (Continues continues (D.trials e space)) (D.trialOf e space y)
      (D.trialOf e space z)) :
    y.counter inner < z.counter inner ∧
      Stays D inner (D.cache.block (e.eval y.counter).toNat) e y.counter z.counter := by
  obtain ⟨-, v, rest, n, hn, hy, hz, hbetween⟩ := blockAt?_of_continues h
  obtain ⟨w, ws, hw, rfl, hne, hcovers⟩ := I.wheels_eq hspace hcan
  change Odometer.setTo y.counter space.wheels = v :: rest at hy
  change Odometer.setTo z.counter space.wheels = _ at hz
  rw [hw, Odometer.setTo_cons] at hy hz
  obtain ⟨rfl, rfl⟩ := List.cons.inj hy
  obtain ⟨hcounter, hrest⟩ := List.cons.inj hz
  have hcounter : z.counter w.header = y.counter w.header + n := (Wheel.mk.inj hcounter).2.2
  have hagree := Odometer.setTo_eq_iff.mp hrest
  refine ⟨by omega, fun g hg hgi => ?_, fun i hi hi' => ?_⟩
  · rw [hL] at hg
    obtain ⟨v, hv, rfl⟩ := hcovers g (B.loops.inside_trans B.closed B.entry_lt hg I.inside) hgi
    exact (hagree v hv).symm
  · have hat := hbetween (i - y.counter w.header) (by omega)
    obtain ⟨address, heval, -, hblock⟩ := blockAt?_eq_some.mp hat
    have hposition : ({ w with counter := i } :: Odometer.setTo y.counter ws) =
        Odometer.setTo (Function.update z.counter w.header i) space.wheels := by
      rw [hw, Odometer.setTo_update hne, Odometer.setTo_eq_iff.mpr hagree]
    simp only [show y.counter w.header + (i - y.counter w.header) = i by omega] at heval
    rw [hposition, Odometer.eval?_space hspace] at heval
    cases heval
    exact hblock

/-- Later executions are other trials. -/
theorem Indexed.trialOf_ne (H : Precedes G rank y.toMoment z.toMoment) (hy : y.isAt b k = true)
    (hz : z.isAt b k = true) : D.trialOf e space z ≠ D.trialOf e space y := by
  obtain ⟨hyb, hyk⟩ := Attempt.isAt_iff.mp hy
  obtain ⟨hzb, hzk⟩ := Attempt.isAt_iff.mp hz
  obtain ⟨g, hg, hlt, -⟩ := H.exists_lt (hyb.trans hzb.symm) (hyk.trans hzk.symm)
  obtain ⟨u, hu, rfl⟩ := I.covers g (hyb ▸ hg)
  obtain ⟨-, hheaders, -⟩ := Odometer.start?_eq_some hspace
  have hmem : u.header ∈ space.wheels.map (·.header) := hheaders ▸ List.mem_map.mpr ⟨u, hu, rfl⟩
  obtain ⟨w, hw, hwu⟩ := List.mem_map.mp hmem
  intro heq
  have hsame := Odometer.setTo_eq_iff.mp (Odometer.mk.inj (Prod.mk.inj heq).1) w hw
  rw [hwu] at hsame
  exact Nat.ne_of_gt hlt hsame

end

/-- The misses that the count of an access overlooks: the runs of trials of a persistent line that
begin in the block of the trial before. -/
def overlooked (D : SetDomain) (s : SetState) (a : DataUse) : Nat :=
  match D.normalize a.reference, (D.normalize a.reference).enumerable? D.loops D.refs.cap with
  | .affine e, some space =>
    if a.cached && !D.ensures s a && D.persists s a then D.repeats e space else 0
  | _, _ => 0

section
variable {u : SetState} {d : DataUse} {n : Nat} (hnorm : D.normalize d.reference = .affine e)
  (henum : (Symbolic.affine e).enumerable? D.loops D.refs.cap = some space)
  (hn : (D.countMisses u d).2 = .bounded n)
include hnorm henum hn

/-- What a count of misses means: none, a run of trials for each, or a trial for each. -/
theorem countMisses_cases :
    (d.cached = true ∧ D.ensures u d = true ∧ n = 0) ∨
      (d.cached = true ∧ D.persists u d = true ∧
        n + D.overlooked u d = breaks continues none (D.trials e space)) ∨
      n = (D.trials e space).length := by
  have hensures : D.ensures u d = (u.lines.find? (·.isFor (.affine e))).any fun l =>
      Age.isAlive D.ways l.must := by rw [← hnorm]; rfl
  have hpersists : D.persists u d = (u.lines.find? (·.isFor (.affine e))).any fun l =>
      Age.Levels.isAlive D.ways l.persistence := by rw [← hnorm]; rfl
  unfold countMisses at hn
  unfold overlooked
  simp only [hnorm, henum, ← hensures, ← hpersists] at hn ⊢
  cases hcached : d.cached with
  | false =>
    simp only [hcached] at hn
    cases hn
    exact .inr (.inr countTrials_eq)
  | true =>
    simp only [hcached] at hn
    cases he : D.ensures u d with
    | true =>
      simp only [he] at hn
      cases hn
      exact .inl ⟨rfl, rfl, rfl⟩
    | false =>
      simp only [he] at hn
      cases hp : D.persists u d with
      | true =>
        simp only [hp] at hn
        cases hn
        exact .inr (.inl ⟨rfl, rfl, countPersistent_add_repeats⟩)
      | false =>
        simp only [hp] at hn
        cases hn
        exact .inr (.inr countOthers_eq)

theorem countMisses_le : n ≤ (D.trials e space).length := by
  rcases countMisses_cases hnorm henum hn with ⟨-, -, rfl⟩ | ⟨-, -, h⟩ | rfl
  · exact Nat.zero_le _
  · have hle : breaks continues none (D.trials e space) ≤ (D.trials e space).length :=
      breaks_le_length
    omega
  · exact Nat.le_refl _

end

namespace Solution

section
variable (S : Solution D G table p) (I : Indexed G table inner b k a e) (R : G.Ranks outer rank)
  (h₀ : s₀.Initial G) (hsteps : Steps G table s₀ es s) (hs : G.loops.Inside outer s.block)
  (hrun : Rounds G table outer s log t) (hspace : e.space? D.loops = some space)
include S I h₀ hsteps hrun

/-- The counters of an execution lie below the bounds of its loops. -/
theorem counter_lt (hz : z ∈ log) (hat : z.isAt b k = true) :
    ∀ u ∈ e.terms, ∀ n, D.loops.maxIteration? u.header = some n → z.counter u.header < n := by
  obtain ⟨log', t', o, -, hrun', -, hz⟩ := hrun.exists_step hz
  have V := hrun'.valid S.built (hsteps.valid S.built (h₀.valid S.built))
  obtain ⟨hmoment, -⟩ := mem_attempts hz
  obtain ⟨hblock, -⟩ := Attempt.isAt_iff.mp hat
  obtain ⟨-, -, hin⟩ := S.regular_of_affine I.get I.reference
  have hcounter : z.counter = t'.counter := congrArg Moment.counter hmoment
  have hb : t'.block = b := (congrArg Moment.block hmoment).symm.trans hblock
  intro u hu n hn
  rw [hcounter]
  exact V.admits u.header (hb.symm ▸ S.loops ▸ hin u hu) n (S.loops ▸ hn)

/-- Only sets that the access concerns see executions of it. -/
theorem concerns_of_executes (hz : z ∈ log) (hex : D.executes e b k z = true) :
    D.refs.concerns a.reference D.set = true := by
  obtain ⟨hat, hset⟩ := executes_iff.mp hex
  obtain ⟨hcan, hnarrow, -⟩ := S.regular_of_affine I.get I.reference
  rw [I.reference]
  exact References.concerns_of_set hcan hnarrow (S.counter_lt I h₀ hsteps hrun hz hat) hset

include hspace

/-- Every execution in the set is a trial of the iteration space. -/
theorem trialOf_mem (hz : z ∈ log) (hex : D.executes e b k z = true) :
    D.trialOf e space z ∈ D.trials e space := by
  obtain ⟨hat, hset⟩ := executes_iff.mp hex
  refine mem_trials.mpr ⟨Odometer.setTo_mem_positions hspace ?_, ?_⟩
  · exact S.counter_lt I h₀ hsteps hrun hz hat
  · exact blockAt?_eq_some.mpr ⟨_, Odometer.eval?_space hspace, hset, rfl⟩

include R hs

/-- Executions are counted as trials. -/
theorem countP_le {P : Attempt → Bool} {Q : Odometer × Nat → Bool} (hP : ∀ z ∈ log, P z = true →
      D.executes e b k z = true ∧ Q (D.trialOf e space z) = true) :
    log.countP P ≤ (D.trials e space).countP Q := by
  have hpair := hrun.pairwise S.built R (hsteps.valid S.built (h₀.valid S.built)) hs
  have hnodup : ((log.filter P).map (D.trialOf e space)).Nodup := by
    refine List.pairwise_map.mpr (List.pairwise_filter.mpr (hpair.imp_of_mem ?_))
    intro z y hz hy hprec hPz hPy
    exact I.trialOf_ne hspace hprec (executes_iff.mp (hP y hy hPy).1).1
      (executes_iff.mp (hP z hz hPz).1).1
  have hsubset : (log.filter P).map (D.trialOf e space) ⊆ (D.trials e space).filter Q := by
    intro x hx
    obtain ⟨z, hz, rfl⟩ := List.mem_map.mp hx
    obtain ⟨hz, hPz⟩ := List.mem_filter.mp hz
    obtain ⟨hex, hQ⟩ := hP z hz hPz
    exact List.mem_filter.mpr ⟨S.trialOf_mem I h₀ hsteps hrun hspace hz hex, hQ⟩
  rw [List.countP_eq_length_filter, List.countP_eq_length_filter,
    ← List.length_map (D.trialOf e space)]
  exact (hnodup.subperm hsubset).length_le

theorem countP_le_length {P : Attempt → Bool}
    (hP : ∀ z ∈ log, P z = true → D.executes e b k z = true) :
    log.countP P ≤ (D.trials e space).length := by
  refine Nat.le_trans (S.countP_le I R h₀ hsteps hs hrun hspace (Q := fun _ => true)
    fun z hz hPz => ?_) List.countP_le_length
  exact ⟨hP z hz hPz, rfl⟩

/-- A persistent line misses once in a run of trials. -/
theorem misses_le_breaks (hplaced : table.Placed) (houter : G.loops.Inside outer inner)
    (hcached : a.cached = true)
    (hpersists : D.persists (D.before table p b k) a.toDataUse = true) :
    log.countP (fun z => D.executes e b k z && z.missed) ≤
      breaks continues none (D.trials e space) := by
  have B := S.built
  obtain ⟨hcan, -, -⟩ := S.regular_of_affine I.get I.reference
  have hpair := (hrun.pairwise B R (hsteps.valid B (h₀.valid B)) hs).and
    (S.not_missed hplaced I R houter h₀ hsteps hs hrun hcached hpersists)
  refine Nat.le_trans (S.countP_le I R h₀ hsteps hs hrun hspace (Q := fun x =>
    log.any fun z => (D.executes e b k z && z.missed) && D.trialOf e space z == x)
    fun z hz hPz => ?_) (countP_le_breaks fun x x' hpath hx hx' => ?_)
  · refine ⟨(Bool.and_eq_true _ _).mp hPz |>.1, List.any_eq_true.mpr ⟨z, hz, ?_⟩⟩
    rw [Bool.and_eq_true, beq_iff_eq]
    exact ⟨hPz, rfl⟩
  · obtain ⟨y, hy, hyx⟩ := List.any_eq_true.mp hx
    obtain ⟨z, hz, hzx⟩ := List.any_eq_true.mp hx'
    rw [Bool.and_eq_true, Bool.and_eq_true, beq_iff_eq, executes_iff] at hyx hzx
    obtain ⟨⟨⟨haty, hset⟩, -⟩, rfl⟩ := hyx
    obtain ⟨⟨⟨hatz, -⟩, hmissed⟩, rfl⟩ := hzx
    obtain ⟨hlt, hstay⟩ := I.stays_of_continues hspace S.loops B hcan hpath
    have hne : z ≠ y := fun heq => Nat.lt_irrefl _ (heq ▸ hlt)
    rcases rel_or_rel hpair hz hy hne with ⟨-, hz⟩ | ⟨hprec, -⟩
    · cases hmissed.symm.trans (hz hatz haty _ hstay hset)
    · obtain ⟨hyb, hyk⟩ := Attempt.isAt_iff.mp haty
      obtain ⟨hzb, hzk⟩ := Attempt.isAt_iff.mp hatz
      obtain ⟨g, hg, hgt, -⟩ := hprec.exists_lt (hzb.trans hyb.symm) (hzk.trans hyk.symm)
      by_cases hgi : g = inner
      · subst hgi
        omega
      · have heq := hstay.agree g (S.loops ▸ I.around g (hzb ▸ hg)) hgi
        omega

omit R hs hspace in
/-- An access with a line that cannot have been evicted does not miss. -/
theorem hits_executes (hcached : a.cached = true)
    (hensures : D.ensures (D.before table p b k) a.toDataUse = true) (hz : z ∈ log)
    (hex : D.executes e b k z = true) : z.missed = false := by
  obtain ⟨hat, hset⟩ := executes_iff.mp hex
  obtain ⟨hblock, hindex⟩ := Attempt.isAt_iff.mp hat
  obtain ⟨log', t', o, u, hrun', hstep, hz⟩ := hrun.exists_step hz
  obtain ⟨hmoment, hmissed⟩ := mem_attempts hz
  obtain ⟨es', hes'⟩ := hrun'.exists_steps
  have hb : t'.block = b := (congrArg Moment.block hmoment).symm.trans hblock
  have hk : t'.served = k := (congrArg Moment.index hmoment).symm.trans hindex
  have hcounter : z.counter = t'.counter := congrArg Moment.counter hmoment
  have hget : (table.block t'.block)[t'.served]? = some a := hb ▸ hk ▸ I.get
  rw [hcounter] at hset
  rw [hmissed, hstep.hit_eq hget hcached I.reference, S.hits_of_ensures
    (S.bounded h₀ (hsteps.trans hes')) hget (.affine I.reference) hset (hb ▸ hk ▸ hensures)]
  rfl

/-- The misses in the set are those counted and those overlooked. -/
theorem misses_le (hplaced : table.Placed) (houter : G.loops.Inside outer inner)
    (henum : (Symbolic.affine e).enumerable? D.loops D.refs.cap = some space) {n : Nat}
    (hn : (D.countMisses (D.before table p b k) a.toDataUse).2 = .bounded n) :
    log.countP (fun z => D.executes e b k z && z.missed) ≤
      n + D.overlooked (D.before table p b k) a.toDataUse := by
  have hnorm : D.normalize a.reference = .affine e := by rw [I.reference, I.normalize_eq]
  rcases countMisses_cases hnorm henum hn with
    ⟨hcached, hensures, -⟩ | ⟨hcached, hpersists, h⟩ | rfl
  · have hzero : log.countP (fun z => D.executes e b k z && z.missed) = 0 := by
      refine List.countP_eq_zero.mpr fun z hz hboth => ?_
      obtain ⟨hex, hmissed⟩ := (Bool.and_eq_true _ _).mp hboth
      cases hmissed.symm.trans (S.hits_executes I h₀ hsteps hrun hcached hensures hz hex)
    rw [hzero]
    exact Nat.zero_le _
  · rw [h]
    exact S.misses_le_breaks I R h₀ hsteps hs hrun hspace hplaced houter hcached hpersists
  · refine Nat.le_add_right_of_le (S.countP_le_length I R h₀ hsteps hs hrun hspace fun z _ h => ?_)
    exact ((Bool.and_eq_true _ _).mp h).1

end

end Solution

end SetDomain

end MissBound
