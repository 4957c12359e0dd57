import MissBound.Program.FlowGraph
import MissBound.Proofs.Lru.Reference
import MissBound.Proofs.Lru.Traversal

/-!
The addresses of a reference. Their enumeration passes the value at every choice of counters below
the bounds, and these values lie on a grid between a lowest and a highest one. The range of a
reference gives the ends modulo `2^32` and is refused where the upper end comes out below the lower
one. So it holds all addresses of a reference that spans less than the address space. One that spans
more may come round to a range that looks sound; as its addresses follow each other in strides, some
of them lie outside.
-/

namespace MissBound

namespace Affine

variable {L : LoopForest} {e : Affine} {c : Nat → Nat} {t : Term} {terms : List Term}
  {lo hi s x M : Int} {a i n : Nat}

/-- The enumeration of the reference passes the address. -/
def Enumerates (L : LoopForest) (e : Affine) (a : Nat) : Prop :=
  ∃ limit size trials p, e.trials? L limit = some (size, trials) ∧ (p, a) ∈ trials

/-- A reference with known bounds has an iteration space, as large as their product. -/
theorem exists_space (h : ∀ t ∈ e.terms, (L.maxIteration? t.header).isSome) :
    ∃ o, e.space? L = some o ∧
      o.size = (e.terms.map fun t => (L.maxIteration? t.header).getD 0).prod := by
  refine Odometer.exists_space? (n := fun h => (L.maxIteration? h).getD 0) fun t ht => ?_
  obtain ⟨n, hn⟩ := Option.isSome_iff_exists.mp (h t ht)
  rw [hn]
  rfl

theorem enumerates_after {o : Odometer} {k : Nat} (ho : e.space? L = some o) (hk : k < o.size)
    (ha : (Odometer.after k o).eval? e = some a) : e.Enumerates L a := by
  refine ⟨o.size, _, _, Odometer.after k o, trials?_eq.trans (congrArg (Option.map _) ho), ?_⟩
  refine List.mem_filterMap.mpr ⟨_, ?_, congrArg (Option.map _) ha⟩
  rw [Nat.min_self]
  exact Odometer.mem_positions.mpr ⟨k, hk, rfl⟩

/-- The addresses passed are the values at all counters below the bounds. -/
theorem enumerates_iff : e.Enumerates L a ↔
    (∀ t ∈ e.terms, (L.maxIteration? t.header).isSome) ∧ ∃ c : Nat → Nat,
      (∀ t ∈ e.terms, ∀ n, L.maxIteration? t.header = some n → c t.header < n) ∧
      (e.eval c).toNat = a := by
  constructor
  · rintro ⟨limit, size, trials, p, htrials, hp⟩
    obtain ⟨o, ho, heq⟩ := Option.map_eq_some_iff.mp (trials?_eq.symm.trans htrials)
    cases heq
    obtain ⟨q, hq, heval⟩ := List.mem_filterMap.mp hp
    obtain ⟨a', ha', heq⟩ := Option.map_eq_some_iff.mp heval
    cases heq
    obtain ⟨k, hk, hafter⟩ := Odometer.mem_positions.mp hq
    have hpos : p ∈ Odometer.positions o.size o :=
      Odometer.mem_positions.mpr ⟨k, Nat.lt_of_lt_of_le hk (Nat.min_le_right ..), hafter⟩
    obtain ⟨c, hc, heval⟩ := Odometer.eval?_of_mem_positions ho hpos
    exact ⟨Odometer.isSome_of_space? ho, c, hc, Option.some.inj ((heval e rfl).symm.trans ha')⟩
  · rintro ⟨hsome, c, hc, rfl⟩
    obtain ⟨o, ho, -⟩ := exists_space hsome
    obtain ⟨k, hk, heval⟩ := Odometer.exists_after_eval ho hc
    exact enumerates_after ho hk heval

/-- If every loop runs, counters up to the last iteration give an address that is passed. -/
theorem enumerates_of_bounded (hr : reach? L e.terms = some (lo, hi))
    (hpos : ∀ t ∈ e.terms, ∀ n, L.maxIteration? t.header = some n → 0 < n)
    (hc : Bounded L e.terms c) : e.Enumerates L (e.eval c).toNat := by
  refine enumerates_iff.mpr ⟨isSome_of_reach? hr, c, fun t ht n hn => ?_, rfl⟩
  have := hc t ht n hn
  have := hpos t ht n hn
  omega

/-! The grid on which the addresses lie. -/

theorem foldl_gcd_dvd (g : Nat) :
    terms.foldl (fun g t => Nat.gcd g t.coef.natAbs) g ∣ g ∧
      ∀ t ∈ terms, terms.foldl (fun g t => Nat.gcd g t.coef.natAbs) g ∣ t.coef.natAbs := by
  induction terms generalizing g with
  | nil => exact ⟨Nat.dvd_refl g, fun _ ht => (by cases ht)⟩
  | cons u terms ih =>
    obtain ⟨hgcd, hrest⟩ := ih (Nat.gcd g u.coef.natAbs)
    refine ⟨hgcd.trans (Nat.gcd_dvd_left ..), fun t ht => ?_⟩
    rcases List.mem_cons.mp ht with rfl | ht
    · exact hgcd.trans (Nat.gcd_dvd_right ..)
    · exact hrest t ht

theorem step_dvd_coef (ht : t ∈ e.terms) : (e.step : Int) ∣ t.coef :=
  Int.natCast_dvd.mpr ((foldl_gcd_dvd 0).2 t ht)

/-- All values are whole steps above the lowest one. -/
theorem step_dvd_sub (hr : reach? L e.terms = some (lo, hi)) :
    (e.step : Int) ∣ offset e.terms c - lo := by
  rw [fst_of_reach? hr]
  refine dvd_sub (List.dvd_sum fun x hx => ?_) (List.dvd_sum fun x hx => ?_)
  · obtain ⟨t, ht, rfl⟩ := List.mem_map.mp hx
    exact (step_dvd_coef ht).mul_right _
  · obtain ⟨t, ht, rfl⟩ := List.mem_map.mp hx
    unfold drop
    split
    · exact (step_dvd_coef ht).mul_right _
    · exact dvd_zero _

/-! How far apart neighbouring values are. -/

/-- One more loop in iteration `i`. -/
theorem exists_offset_cons (ht : t.header ∉ terms.map (·.header))
    (hn : L.maxIteration? t.header = some n) (hi : i ≤ n - 1) (hc : Bounded L terms c) :
    ∃ c', Bounded L (t :: terms) c' ∧ offset (t :: terms) c' = t.coef * i + offset terms c := by
  have hsame : ∀ u ∈ terms, Function.update c t.header i u.header = c u.header := fun u hu =>
    Function.update_of_ne (fun heq => ht (List.mem_map.mpr ⟨u, hu, heq⟩)) _ _
  refine ⟨Function.update c t.header i, fun u hu m hm => ?_, ?_⟩
  · rcases List.mem_cons.mp hu with rfl | hu
    · rw [Function.update_self]
      cases hn.symm.trans hm
      exact hi
    · rw [hsame u hu]
      exact hc u hu m hm
  · rw [offset, List.map_cons, List.sum_cons, Function.update_self, offset]
    exact congrArg (_ + List.sum ·) (List.map_congr_left fun u hu => by rw [hsame u hu])

theorem exists_multiple_le (hs : 0 < s) (hx : 0 ≤ x) (hle : x ≤ s * n) :
    ∃ i : Nat, i ≤ n ∧ s * i ≤ x ∧ x < s * i + s := by
  have hmod := Int.emod_nonneg x hs.ne'
  have hlt := Int.emod_lt_of_pos x hs
  have hdiv := Int.mul_ediv_add_emod x s
  have hquot : x / s ≤ n := Int.ediv_le_of_le_mul hs (by rwa [Int.mul_comm])
  obtain ⟨i, hi⟩ := Int.eq_ofNat_of_zero_le (Int.ediv_nonneg hx hs.le)
  rw [hi] at hdiv hquot
  exact ⟨i, Int.ofNat_le.mp hquot, by omega, by omega⟩

/-- Values follow each other at a distance of at most the largest stride: where `x` lies between the
lowest and the highest value, there is one from `x` on that is less than a stride away. -/
theorem exists_offset_near (C : Canonical L e) (hM : 0 < M)
    (hcoef : ∀ t ∈ e.terms, (t.coef.natAbs : Int) ≤ M) (hr : reach? L e.terms = some (lo, hi))
    (h₁ : lo ≤ x) (h₂ : x ≤ hi) :
    ∃ c, Bounded L e.terms c ∧ x ≤ offset e.terms c ∧ offset e.terms c < x + M := by
  obtain ⟨terms, k⟩ := e
  simp only at hcoef hr ⊢
  induction terms generalizing lo hi x with
  | nil =>
    cases hr
    refine ⟨fun _ => 0, fun t ht => (by cases ht), ?_⟩
    simp only [offset, List.map_nil, List.sum_nil]
    omega
  | cons t terms ih =>
    obtain ⟨n, lo', hi', hn, hr', hcase⟩ := reach?_cons hr
    have C' : Canonical L ⟨terms, k⟩ :=
      ⟨C.sorted.of_cons, fun u hu => C.nonzero u (List.mem_cons_of_mem _ hu)⟩
    have ht : t.header ∉ terms.map (·.header) := (List.nodup_cons.mp C.nodup_headers).1
    have hstride := hcoef t List.mem_cons_self
    have near {y : Int} (h₁ : lo' ≤ y) (h₂ : y ≤ hi') :
        ∃ c, Bounded L terms c ∧ y ≤ offset terms c ∧ offset terms c < y + M :=
      ih h₁ h₂ C' (fun u hu => hcoef u (List.mem_cons_of_mem _ hu)) hr'
    rcases hcase with ⟨hneg, rfl, rfl⟩ | ⟨hpos, rfl, rfl⟩
    · by_cases hx : lo' ≤ x
      · obtain ⟨c, hc, h₃, h₄⟩ := near hx h₂
        obtain ⟨c', hc', hoffset⟩ := exists_offset_cons ht hn (Nat.zero_le _) hc
        refine ⟨c', hc', ?_⟩
        omega
      · -- below the lowest value of the other loops this one goes down alone
        obtain ⟨c, hc, hlow⟩ := exists_lowest C' hr'
        obtain ⟨i, hi, h₃, h₄⟩ := exists_multiple_le (s := -t.coef) (x := lo' - x) (n := n - 1)
          (by omega) (by omega) (by rw [Int.neg_mul]; omega)
        obtain ⟨c', hc', hoffset⟩ := exists_offset_cons ht hn hi hc
        rw [Int.neg_mul] at h₃ h₄
        simp only at hlow
        refine ⟨c', hc', ?_⟩
        omega
    · by_cases hx : x ≤ hi'
      · obtain ⟨c, hc, h₃, h₄⟩ := near h₁ hx
        obtain ⟨c', hc', hoffset⟩ := exists_offset_cons ht hn (Nat.zero_le _) hc
        refine ⟨c', hc', ?_⟩
        omega
      · -- above the highest value of the other loops this one goes up alone
        obtain ⟨c, hc, h₃, -⟩ := near (sub_nonneg.mp (sub_of_reach? hr' ▸ Int.natCast_nonneg _))
          (Int.le_refl hi')
        have hhigh := (offset_mem_reach? hr' hc).2
        obtain ⟨i, hi, h₄, h₅⟩ := exists_multiple_le (s := t.coef)
          (x := hi' + t.coef * (n - 1 : Nat) - x) (n := n - 1)
          (lt_of_le_of_ne hpos (C.nonzero t List.mem_cons_self).symm) (by omega) (by omega)
        obtain ⟨c', hc', hoffset⟩ := exists_offset_cons ht hn (Nat.sub_le (n - 1) i) hc
        refine ⟨c', hc', ?_⟩
        rw [Int.ofNat_sub hi, Int.mul_sub] at hoffset
        omega

end Affine

namespace References

variable {R : References} {e : Affine} {lo hi a : Nat}

/-- The range of a reference that spans less than the address space holds all its addresses, and
they lie on its grid. -/
theorem mem_range (hr : R.range? (.affine e) = some (lo, hi))
    (hext : Affine.extent R.loops e.terms < 2 ^ 32) (ha : e.Enumerates R.loops a) :
    lo ≤ a ∧ a ≤ hi ∧ e.step ∣ a - lo := by
  obtain ⟨low, high, hreach, hlo, hhi, hle⟩ := range?_eq_some hr
  obtain ⟨-, c, hc, rfl⟩ := Affine.enumerates_iff.mp ha
  have hbounded : Affine.Bounded R.loops e.terms c := fun t ht n hn =>
    Nat.le_sub_one_of_lt (hc t ht n hn)
  obtain ⟨h₁, h₂⟩ := Affine.toNat_eval_of_reach? (fun _ => hext) hreach hlo hhi hle hbounded
  refine ⟨h₁, h₂, ?_⟩
  -- within the range nothing wraps, so that the distance is that of the exact values
  have hsub : (((e.eval c).toNat - lo : Nat) : Int) = Affine.offset e.terms c - low := by
    have hspan := Affine.sub_of_reach? hreach
    obtain ⟨h₃, h₄⟩ := Affine.offset_mem_reach? hreach hbounded
    rw [Affine.toNat_eval] at h₁ h₂ ⊢
    omega
  exact Int.natCast_dvd_natCast.mp (hsub ▸ Affine.step_dvd_sub hreach)

/-- A reference that spans the address space or more has an address outside its range, unless a
stride leads from the end of the range round to its start. -/
theorem exists_not_mem_range (C : e.Canonical R.loops)
    (hpos : ∀ t ∈ e.terms, ∀ n, R.loops.maxIteration? t.header = some n → 0 < n)
    (hr : R.range? (.affine e) = some (lo, hi))
    (hstride : ∀ t ∈ e.terms, t.coef.natAbs + (hi - lo) < 2 ^ 32)
    (hext : 2 ^ 32 ≤ Affine.extent R.loops e.terms) :
    ∃ a, e.Enumerates R.loops a ∧ (a < lo ∨ hi < a) := by
  obtain ⟨low, high, hreach, hlo, hhi, hle⟩ := range?_eq_some hr
  have hspan := Affine.sub_of_reach? hreach
  obtain ⟨t, ht⟩ : ∃ t, t ∈ e.terms := by
    refine List.exists_mem_of_ne_nil _ fun hnil => ?_
    simp [Affine.extent, hnil] at hext
  have hcoef := Int.natAbs_pos.mpr (C.nonzero t ht)
  have hfirst := hstride t ht
  obtain ⟨c, hc, h₁, h₂⟩ := Affine.exists_offset_near (x := low + (hi - lo : Nat) + 1)
    (M := 2 ^ 32 - (hi - lo : Nat) - 1) C (by omega)
    (fun t ht => by have := hstride t ht; omega) hreach (by omega) (by omega)
  refine ⟨(e.eval c).toNat, Affine.enumerates_of_bounded hreach hpos hc, ?_⟩
  rw [Affine.toNat_eval]
  omega

/-- If the range of a reference that spans less than the address space is known, it holds every
address that the enumeration passes, and these lie whole steps above its lower end. A reference that
spans more is given a range, too, if the ends come out in order; then an address lies outside, if
all loops run and no stride leads from the end of the range round to its start. -/
theorem range_sound (hr : R.range? (.affine e) = some (lo, hi)) :
    (Affine.extent R.loops e.terms < 2 ^ 32 →
      ∀ a, e.Enumerates R.loops a → lo ≤ a ∧ a ≤ hi ∧ e.step ∣ a - lo) ∧
    (e.Canonical R.loops →
      (∀ t ∈ e.terms, ∀ n, R.loops.maxIteration? t.header = some n → 0 < n) →
      (∀ t ∈ e.terms, t.coef.natAbs + (hi - lo) < 2 ^ 32) →
      2 ^ 32 ≤ Affine.extent R.loops e.terms →
      ∃ a, e.Enumerates R.loops a ∧ (a < lo ∨ hi < a)) :=
  ⟨fun hext _ => mem_range hr hext, fun C hpos => exists_not_mem_range C hpos hr⟩

/-- A loop of three iterations around one of five. -/
def gridLoops : LoopForest :=
  ⟨[⟨⟨1, [2], [1, 2]⟩, 0, none, [2], ⟨some 3, some 3⟩⟩,
    ⟨⟨2, [2], [2]⟩, 1, some 1, [], ⟨some 5, some 5⟩⟩], [0, 1, 2, 2]⟩

/-- References in these loops, for a cache of one set. -/
def gridRefs : References := ⟨gridLoops, twoLines, 100⟩

/-- Down in the inner loop and up in the outer one. -/
def sawtooth : Affine := ⟨[⟨-12, 2⟩, ⟨8, 1⟩], 0x1000⟩

/-- A quarter of the address space in each iteration of the inner loop. -/
def quarters : Affine := ⟨[⟨0x40000000, 2⟩], 0⟩

/-- The addresses of a reference with both signs lie four bytes apart in its range; those of one
that comes back to its start do not. -/
theorem range_sound_sawtooth :
    gridRefs.range? (.affine sawtooth) = some (0xfd0, 0x1010) ∧ sawtooth.step = 4 ∧
    sawtooth.Enumerates gridLoops 0xfe4 ∧
    (0xfd0 ≤ 0xfe4 ∧ 0xfe4 ≤ 0x1010 ∧ sawtooth.step ∣ 0xfe4 - 0xfd0) ∧
    ∃ a, quarters.Enumerates gridLoops a ∧ (a < 0 ∨ 0 < a) := by
  have hrange : gridRefs.range? (.affine sawtooth) = some (0xfd0, 0x1010) := by decide +kernel
  have hpassed : sawtooth.Enumerates gridLoops 0xfe4 :=
    ⟨15, _, _, ⟨[⟨2, 5, 3⟩, ⟨1, 3, 1⟩]⟩, rfl, by decide +kernel⟩
  have hruns : ∀ t ∈ quarters.terms, ∀ n, gridLoops.maxIteration? t.header = some n → 0 < n := by
    intro t ht n hn
    cases List.mem_singleton.mp ht
    cases hn
    decide
  refine ⟨hrange, by decide, hpassed, (range_sound hrange).1 (by decide +kernel) _ hpassed, ?_⟩
  exact (range_sound (R := gridRefs) (e := quarters) (by decide +kernel)).2 (by decide +kernel)
    hruns (by decide) (by decide +kernel)

/-- Four strides of a quarter of the address space lead back to the start, and the range is taken to
be that one address. -/
theorem range_loses_addresses :
    (FlowGraph.build [⟨0, []⟩, ⟨4, []⟩, ⟨8, []⟩, ⟨12, []⟩] [(0, 1), (1, 2), (2, 2), (2, 1), (1, 3)]
      [(1, ⟨some 3, some 3⟩), (2, ⟨some 5, some 5⟩)] 0).map (·.loops) = .ok gridLoops ∧
    quarters.Canonical gridLoops ∧ gridRefs.range? (.affine quarters) = some (0, 0) ∧
    quarters.Enumerates gridLoops 0x40000000 ∧ ¬0x40000000 ≤ 0 :=
  ⟨rfl, by decide +kernel, by decide +kernel, ⟨5, _, _, ⟨[⟨2, 5, 1⟩]⟩, rfl, by decide +kernel⟩,
    by decide⟩

end References

end MissBound
