import MissBound.Proofs.Lru.Concern

/-!
Whether two references can lie in one block at equal counters. The answer is compared with all
choices of counters below the bounds. References without a range, and those whose blocks overlap
while their joint iteration space is too large, may always meet; otherwise the enumeration of that
space decides. None of this depends on the order of the references.
-/

namespace MissBound

namespace Affine

variable {L : LoopForest} {x y : Affine} {h : Nat}

/-- The size of the joint iteration space as far as it is counted: the product of the bounds of all
loops of the references, each loop taken once. -/
def jointCount (L : LoopForest) (x y : Affine) : Nat :=
  min Symbolic.countLimit
    (∏ h ∈ x.headers.toFinset ∪ y.headers.toFinset, (L.maxIteration? h).getD 0)

theorem jointCount_comm : jointCount L x y = jointCount L y x := by
  rw [jointCount, jointCount, Finset.union_comm]

theorem mem_jointHeaders_of_term {t : Term} (ht : t ∈ x.terms ++ y.terms) :
    t.header ∈ jointHeaders x y := by
  apply mem_jointHeaders.mpr
  exact (List.mem_append.mp ht).imp (List.mem_map_of_mem) (List.mem_map_of_mem)

theorem exists_term_of_mem_jointHeaders (hh : h ∈ jointHeaders x y) :
    ∃ t ∈ x.terms ++ y.terms, t.header = h := by
  rcases mem_jointHeaders.mp hh with hh | hh <;> obtain ⟨t, ht, rfl⟩ := List.mem_map.mp hh
  · exact ⟨t, List.mem_append_left _ ht, rfl⟩
  · exact ⟨t, List.mem_append_right _ ht, rfl⟩

/-- References with known bounds have a joint iteration space. -/
theorem exists_jointSpace (Cx : x.Canonical L) (Cy : y.Canonical L)
    (hx : ∀ t ∈ x.terms, (L.maxIteration? t.header).isSome)
    (hy : ∀ t ∈ y.terms, (L.maxIteration? t.header).isSome) :
    ∃ o, jointSpace? L x y = some o ∧ min Symbolic.countLimit o.size = jointCount L x y := by
  have hbound : ∀ h ∈ jointHeaders x y, L.maxIteration? h = some ((L.maxIteration? h).getD 0) := by
    intro h hh
    obtain ⟨t, ht, rfl⟩ := exists_term_of_mem_jointHeaders hh
    have hsome := (List.mem_append.mp ht).elim (hx t) (hy t)
    obtain ⟨n, hn⟩ := Option.isSome_iff_exists.mp hsome
    rw [hn, Option.getD_some]
  obtain ⟨o, ho, hsize⟩ := Odometer.exists_start? hbound
  refine ⟨o, ho, ?_⟩
  have hset : (jointHeaders x y).toFinset = x.headers.toFinset ∪ y.headers.toFinset := by
    ext h
    simp [mem_jointHeaders]
  have hnodup := nodup_jointHeaders Cx.nodup_headers Cy.nodup_headers
  rw [hsize, jointCount, ← hset, List.prod_toFinset _ hnodup]

end Affine

namespace References

variable {R : References} {x y : Affine} {g g' : Nat}

/-- At some counters below the bounds, the references lie in one block. A loop that they share has
one counter for both. -/
def Meets (R : References) (x y : Affine) : Prop :=
  ∃ c : Nat → Nat,
    (∀ t ∈ x.terms ++ y.terms, ∀ n, R.loops.maxIteration? t.header = some n → c t.header < n) ∧
    R.cache.block (x.eval c).toNat = R.cache.block (y.eval c).toNat

/-- The ranges of the references are known and their blocks overlap. -/
def Overlap (R : References) (x y : Affine) : Prop :=
  ∃ p q, R.blockRange? (.affine x) = some p ∧ R.blockRange? (.affine y) = some q ∧
    p.1 ≤ q.2 ∧ q.1 ≤ p.2

theorem Meets.symm (h : R.Meets x y) : R.Meets y x := by
  obtain ⟨c, hc, hblock⟩ := h
  refine ⟨c, fun t ht => hc t ?_, hblock.symm⟩
  exact List.mem_append.mpr (List.mem_append.mp ht).symm

theorem Overlap.symm (h : R.Overlap x y) : R.Overlap y x := by
  obtain ⟨p, q, hp, hq, h₁, h₂⟩ := h
  exact ⟨q, p, hq, hp, h₂, h₁⟩

/-- A reference meets itself, if its loops run. -/
theorem meets_self
    (hpos : ∀ t ∈ x.terms ++ x.terms, ∀ n, R.loops.maxIteration? t.header = some n → 1 ≤ n) :
    R.Meets x x :=
  ⟨fun _ => 0, hpos, rfl⟩

/-- The enumeration of the joint iteration space decides whether the references meet. -/
theorem anyNext_meetAt {o : Odometer} (ho : Affine.jointSpace? R.loops x y = some o) :
    Odometer.anyNext (R.meetAt x y) o.size o = true ↔ R.Meets x y := by
  have hx : ∀ t ∈ x.terms, t.header ∈ Affine.jointHeaders x y := fun t ht =>
    Affine.mem_jointHeaders_of_term (List.mem_append_left _ ht)
  have hy : ∀ t ∈ y.terms, t.header ∈ Affine.jointHeaders x y := fun t ht =>
    Affine.mem_jointHeaders_of_term (List.mem_append_right _ ht)
  rw [Odometer.anyNext_iff]
  constructor
  · rintro ⟨k, hk, hmeet⟩
    obtain ⟨d, hd, heval⟩ := Odometer.exists_counters ho hk
    refine ⟨d, fun t ht => hd _ (Affine.mem_jointHeaders_of_term ht), ?_⟩
    simpa [meetAt, heval x hx, heval y hy] using hmeet
  · rintro ⟨c, hc, hblock⟩
    have hbelow : ∀ h ∈ Affine.jointHeaders x y, ∀ n, R.loops.maxIteration? h = some n →
        c h < n := by
      intro h hh
      obtain ⟨t, ht, rfl⟩ := Affine.exists_term_of_mem_jointHeaders hh
      exact hc t ht
    obtain ⟨k, hk, hwheels⟩ := Odometer.exists_after_setTo ho hbelow
    have hheaders : o.wheels.map (·.header) = Affine.jointHeaders x y :=
      (Odometer.start?_eq_some ho).2.1
    rw [← hheaders] at hx hy
    refine ⟨k, hk, ?_⟩
    simp [meetAt, Odometer.eval?_setTo hwheels hx, Odometer.eval?_setTo hwheels hy, hblock]

theorem overlap_iff {p q : Nat × Nat} (hp : R.range? (.affine x) = some p)
    (hq : R.range? (.affine y) = some q) : R.Overlap x y ↔
      R.cache.block p.1 ≤ R.cache.block q.2 ∧ R.cache.block q.1 ≤ R.cache.block p.2 := by
  simp [Overlap, blockRange?, hp, hq]

/-- When two references are said to meet. -/
theorem mayMeet_iff (Cx : x.Canonical R.loops) (Cy : y.Canonical R.loops) :
    R.mayMeet (.affine x) g (.affine y) g' = true ↔
      x = y ∧ g = g' ∨ R.range? (.affine x) = none ∨ R.range? (.affine y) = none ∨
      R.Overlap x y ∧ (R.cap < Affine.jointCount R.loops x y ∨ R.Meets x y) := by
  unfold mayMeet
  by_cases heq : x = y ∧ g = g'
  · simp [heq]
  cases hp : R.range? (.affine x) with
  | none => simp [heq, blockRange?, hp, Symbolic.isBottom]
  | some p =>
    cases hq : R.range? (.affine y) with
    | none => simp [heq, blockRange?, hp, hq, Symbolic.isBottom]
    | some q =>
      obtain ⟨lo, hi, hreach, -⟩ := range?_eq_some hp
      obtain ⟨lo', hi', hreach', -⟩ := range?_eq_some hq
      obtain ⟨o, ho, hcount⟩ := Affine.exists_jointSpace Cx Cy (Affine.isSome_of_reach? hreach)
        (Affine.isSome_of_reach? hreach')
      simp only [Symbolic.affine.injEq, heq, if_false, Symbolic.isBottom, Bool.or_self,
        Bool.false_eq_true, blockRange?, hp, hq, Option.map_some, ho, Option.filter_some, hcount,
        overlap_iff hp hq, Bool.or_eq_true, decide_eq_true_eq, reduceCtorEq, false_or]
      split
      · rename_i hapart
        have hnot : ¬(R.cache.block p.1 ≤ R.cache.block q.2 ∧
            R.cache.block q.1 ≤ R.cache.block p.2) := by
          omega
        exact iff_of_false Bool.false_ne_true fun h => hnot h.1
      · rename_i hnear
        rw [and_iff_right (by omega)]
        by_cases hcap : Affine.jointCount R.loops x y ≤ R.cap
        · simp [hcap, anyNext_meetAt ho]
        · simp [hcap, Nat.lt_of_not_le hcap]

/-- References that meet have overlapping blocks, if their addresses do not run round the address
space. -/
theorem Meets.overlap {p q : Nat × Nat} (h : R.Meets x y) (hx : x.Narrow R.loops)
    (hy : y.Narrow R.loops) (hp : R.range? (.affine x) = some p)
    (hq : R.range? (.affine y) = some q) : R.Overlap x y := by
  obtain ⟨c, hc, hblock⟩ := h
  have hbounded : ∀ terms : List Term, (∀ t ∈ terms, t ∈ x.terms ++ y.terms) →
      Affine.Bounded R.loops terms c := fun terms hsub t ht n hn =>
    Nat.le_sub_one_of_lt (hc t (hsub t ht) n hn)
  obtain ⟨lo, hi, hreach, hbase, htop, hle⟩ := range?_eq_some hp
  obtain ⟨lo', hi', hreach', hbase', htop', hle'⟩ := range?_eq_some hq
  obtain ⟨h₁, h₂⟩ := Affine.toNat_eval_of_reach? hx hreach hbase htop hle
    (hbounded _ fun t ht => List.mem_append_left _ ht)
  obtain ⟨h₃, h₄⟩ := Affine.toNat_eval_of_reach? hy hreach' hbase' htop' hle'
    (hbounded _ fun t ht => List.mem_append_right _ ht)
  apply (overlap_iff hp hq).mpr
  constructor
  · calc
      R.cache.block p.1 ≤ R.cache.block (x.eval c).toNat := R.cache.block_mono h₁
      _ = R.cache.block (y.eval c).toNat := hblock
      _ ≤ R.cache.block q.2 := R.cache.block_mono h₄
  · calc
      R.cache.block q.1 ≤ R.cache.block (y.eval c).toNat := R.cache.block_mono h₃
      _ = R.cache.block (x.eval c).toNat := hblock.symm
      _ ≤ R.cache.block p.2 := R.cache.block_mono h₂

theorem mayMeet_of_meets (Cx : x.Canonical R.loops) (Cy : y.Canonical R.loops)
    (hx : x.Narrow R.loops) (hy : y.Narrow R.loops) (h : R.Meets x y) :
    R.mayMeet (.affine x) g (.affine y) g' = true := by
  apply (mayMeet_iff Cx Cy).mpr
  cases hp : R.range? (.affine x) with
  | none => exact .inr (.inl rfl)
  | some p =>
    cases hq : R.range? (.affine y) with
    | none => exact .inr (.inr (.inl rfl))
    | some q => exact .inr (.inr (.inr ⟨h.overlap hx hy hp hq, .inr h⟩))

theorem mayMeet_comm (Cx : x.Canonical R.loops) (Cy : y.Canonical R.loops) :
    R.mayMeet (.affine x) g (.affine y) g' = R.mayMeet (.affine y) g' (.affine x) g := by
  apply Bool.eq_iff_iff.mpr
  have hoverlap : R.Overlap x y ↔ R.Overlap y x := ⟨Overlap.symm, Overlap.symm⟩
  have hmeets : R.Meets x y ↔ R.Meets y x := ⟨Meets.symm, Meets.symm⟩
  rw [mayMeet_iff Cx Cy, mayMeet_iff Cy Cx, hoverlap, hmeets, Affine.jointCount_comm, eq_comm,
    eq_comm (a := g), or_left_comm (a := R.range? (.affine x) = none)]

/-- References that can lie in one block may meet, if their addresses do not run round the address
space. They may also meet if one of them has no range, or if their blocks overlap and their joint
count is larger than the cap. Otherwise, if all loops run, they may meet only if they can lie in one
block. The answer does not depend on the order of the references. The joint count is the size of
their joint iteration space, but cut off at `2^64 - 1`: with a cap of `2^64 - 1` or more no space is
too large. -/
theorem mayMeet_agrees (Cx : x.Canonical R.loops) (Cy : y.Canonical R.loops)
    (hx : x.Narrow R.loops) (hy : y.Narrow R.loops) (g g' : Nat) :
    (R.Meets x y → R.mayMeet (.affine x) g (.affine y) g' = true) ∧
    ((R.range? (.affine x) = none ∨ R.range? (.affine y) = none →
        R.mayMeet (.affine x) g (.affine y) g' = true) ∧
      (R.Overlap x y → R.cap < Affine.jointCount R.loops x y →
        R.mayMeet (.affine x) g (.affine y) g' = true)) ∧
    (R.range? (.affine x) ≠ none → R.range? (.affine y) ≠ none →
      (∀ t ∈ x.terms ++ y.terms, ∀ n, R.loops.maxIteration? t.header = some n → 1 ≤ n) →
      Affine.jointCount R.loops x y ≤ R.cap →
      R.mayMeet (.affine x) g (.affine y) g' = true → R.Meets x y) ∧
    R.mayMeet (.affine x) g (.affine y) g' = R.mayMeet (.affine y) g' (.affine x) g := by
  refine ⟨mayMeet_of_meets Cx Cy hx hy, ⟨fun hrange => ?_, fun hoverlap hcap => ?_⟩,
    fun hp hq hpos hcap h => ?_, mayMeet_comm Cx Cy⟩
  · exact (mayMeet_iff Cx Cy).mpr (.inr (hrange.imp_right .inl))
  · exact (mayMeet_iff Cx Cy).mpr (.inr (.inr (.inr ⟨hoverlap, .inl hcap⟩)))
  · rcases (mayMeet_iff Cx Cy).mp h with ⟨rfl, -⟩ | hnone | hnone | ⟨-, hlarge | hmeets⟩
    · exact meets_self hpos
    · exact absurd hnone hp
    · exact absurd hnone hq
    · exact absurd hlarge (Nat.not_lt.mpr hcap)
    · exact hmeets

/-- A block for each iteration of the inner loop. -/
def sweep : Affine := ⟨[⟨16, 2⟩], 0x1000⟩

/-- The same, one block ahead. -/
def ahead : Affine := ⟨[⟨16, 2⟩], 0x1010⟩

/-- From there on, a block for each iteration of the outer loop. -/
def across : Affine := ⟨[⟨16, 1⟩], 0x1010⟩

/-- References that count the same loop stay one block apart although their ranges overlap. Where
they count different loops one of them can reach the other. -/
theorem mayMeet_agrees_sweep :
    (rowRefs.mayMeet (.affine sweep) 0 (.affine ahead) 0 = false ∧ ¬rowRefs.Meets sweep ahead) ∧
    (rowRefs.mayMeet (.affine sweep) 0 (.affine across) 0 = true ∧ rowRefs.Meets sweep across) ∧
    rowRefs.mayMeet (.affine across) 0 (.affine sweep) 0 = true := by
  have hfalse : rowRefs.mayMeet (.affine sweep) 0 (.affine ahead) 0 = false := by decide +kernel
  have htrue : rowRefs.mayMeet (.affine sweep) 0 (.affine across) 0 = true := by decide +kernel
  have hruns : ∀ t ∈ sweep.terms ++ across.terms, ∀ n,
      rowRefs.loops.maxIteration? t.header = some n → 1 ≤ n := by
    intro t ht n hn
    rcases List.mem_append.mp ht with ht | ht <;> cases List.mem_singleton.mp ht <;>
      cases hn <;> decide
  obtain ⟨hsound, -⟩ := mayMeet_agrees (R := rowRefs) (x := sweep) (y := ahead) (by decide +kernel)
    (by decide +kernel) (by decide +kernel) (by decide +kernel) 0 0
  obtain ⟨-, -, hexact, hcomm⟩ := mayMeet_agrees (R := rowRefs) (x := sweep) (y := across)
    (by decide +kernel) (by decide +kernel) (by decide +kernel) (by decide +kernel) 0 0
  refine ⟨⟨hfalse, fun h => ?_⟩, ⟨htrue, ?_⟩, hcomm ▸ htrue⟩
  · rw [hsound h] at hfalse
    cases hfalse
  · exact hexact (by decide +kernel) (by decide +kernel) hruns (by decide +kernel) htrue

end References

end MissBound
