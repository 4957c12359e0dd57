import MissBound.Proofs.Symbolic.Value

/-!
Symbolic arithmetic against the arithmetic of 32-bit words. Whenever an operation yields an
expression, the value of that expression at any counters is what the operation makes of the values
of its operands. Coefficients are checked and the constant wraps, but none of this shows in the
value modulo `2^32`.
-/

namespace MissBound

theorem word_neg {x : Int} : word (-x) = word x * -1 := by
  have hneg : word (-1) = -1 := rfl
  rw [← hneg, ← word_mul, Int.mul_neg_one]

/-- A shift by fewer bits than a word has is a product. -/
theorem shiftLeft_eq_mul {x k : UInt32} (hk : k.toNat < 32) :
    x <<< k = x * UInt32.ofNat (2 ^ k.toNat) := by
  apply UInt32.toNat_inj.mp
  rw [UInt32.toNat_shiftLeft, UInt32.toNat_mul, UInt32.toNat_ofNat', Nat.mod_eq_of_lt hk,
    Nat.shiftLeft_eq, Nat.mul_mod_mod]

namespace Affine

variable {L : LoopForest} {e : Affine} {t : Term} {terms xs ys zs ts : List Term} {c : Nat → Nat}
  {both : Int → Int → Option Int} {f : Int → Option Int} {w : UInt32}

theorem offset_cons : offset (t :: terms) c = t.coef * (c t.header : Int) + offset terms c := rfl

theorem eval_eq_add : e.eval c = e.constant + word (offset e.terms c) := by
  rw [eval_eq, word_add, word_toNat]

theorem eval_update_of_free {h n : Nat} (hfree : e.coefficient? h = none) :
    e.eval (Function.update c h n) = e.eval c := by
  apply eval_congr
  intro t ht
  rw [Function.update_of_ne (Canonical.coefficient?_eq_none.mp hfree t ht)]

/-- A term that is put into a list adds its value, whether it finds a term of its header or not. -/
theorem offset_insert (hadd : ∀ a b r, both a b = some r → r = a + b)
    (hz : Term.insert L.compareHeaders both t terms = some zs) :
    offset zs c = t.coef * (c t.header : Int) + offset terms c := by
  induction terms generalizing zs with
  | nil =>
    cases hz
    rfl
  | cons u terms ih =>
    rcases Term.insert_cons hz with ⟨-, rfl⟩ | ⟨heq, r, hr, rfl⟩ | ⟨-, ws, hws, rfl⟩
    · rfl
    · have hsum : t.coef * (c t.header : Int) + u.coef * (c u.header : Int) =
          r * (c u.header : Int) := by
        rw [hadd _ _ _ hr, heq, Int.add_mul, Int.add_comm]
      rw [offset_cons, ← Int.add_assoc, hsum]
      split
      · rename_i hzero
        rw [hzero, Int.zero_mul, Int.zero_add]
      · rfl
    · rw [offset_cons, offset_cons, ih hws]
      omega

theorem offset_merge (hadd : ∀ a b r, both a b = some r → r = a + b)
    (hz : Term.merge L.compareHeaders both xs ys = some zs) :
    offset zs c = offset xs c + offset ys c := by
  induction ys generalizing xs with
  | nil =>
    cases hz
    exact (Int.add_zero _).symm
  | cons t ys ih =>
    obtain ⟨ws, hws, hz⟩ := Term.merge_cons hz
    rw [ih hz, offset_insert hadd hws, offset_cons]
    omega

/-- Coefficients that are multiplied one by one multiply the sum. -/
theorem word_offset_mapM (hf : ∀ a r, f a = some r → word r = word a * w)
    (h : terms.mapM (fun t => (f t.coef).map (Term.mk · t.header)) = some ts) :
    word (offset ts c) = word (offset terms c) * w := by
  induction terms generalizing ts with
  | nil =>
    cases h
    exact UInt32.zero_mul.symm
  | cons u terms ih =>
    rw [List.mapM_cons] at h
    obtain ⟨t, ht, h⟩ := Option.bind_eq_some_iff.mp h
    obtain ⟨us, hus, h⟩ := Option.bind_eq_some_iff.mp h
    obtain ⟨r, hr, rfl⟩ := Option.map_eq_some_iff.mp ht
    cases h
    simp only [offset_cons, word_add, word_mul, ih hus, hf _ _ hr]
    grind

/-- Terms with coefficient zero have no value. -/
theorem offset_nonzero : offset (terms.filter fun t => t.coef != 0) c = offset terms c := by
  induction terms with
  | nil => rfl
  | cons t terms ih =>
    by_cases hzero : t.coef = 0
    · rw [List.filter_cons_of_neg (by simpa using hzero), ih, offset_cons, hzero, Int.zero_mul,
        Int.zero_add]
    · rw [List.filter_cons_of_pos (by simpa using hzero), offset_cons, ih, offset_cons]

end Affine

namespace Term

theorem word_negCoef? {a r : Int} (h : negCoef? a = some r) : word r = word a * -1 := by
  rw [negCoef?_eq_some h]
  exact word_neg

theorem shiftCoef?_eq_some {a r : Int} {shift : Nat} (h : shiftCoef? a shift = some r) :
    r = a * 2 ^ shift := by
  obtain ⟨-, heq⟩ := Option.ite_none_right_eq_some.mp h
  cases heq
  exact Int.shiftLeft_eq a shift

theorem word_shiftCoef? {a r : Int} {shift : Nat} (h : shiftCoef? a shift = some r) :
    word r = word a * UInt32.ofNat (2 ^ shift) := by
  rw [shiftCoef?_eq_some h, word_mul, ← word_natCast, Nat.cast_pow, Nat.cast_ofNat]

end Term

namespace Symbolic

variable {L : LoopForest} {a b r : Affine} {c : Nat → Nat} {h n : Nat} {k : UInt32}

theorem eval_add (hr : add L (.affine a) (.affine b) = .affine r) :
    r.eval c = a.eval c + b.eval c := by
  obtain ⟨ts, hts, rfl⟩ := ofTerms?_eq_affine hr
  have hsum := Affine.offset_merge (c := c) (fun _ _ _ => Term.addCoef?_eq_some) hts
  simp only [Affine.eval_eq_add, hsum, word_add]
  grind

theorem eval_sub (hr : sub L (.affine a) (.affine b) = .affine r) :
    r.eval c = a.eval c - b.eval c := by
  obtain ⟨ts, hts, rfl⟩ := ofTerms?_eq_affine hr
  obtain ⟨ys, hys, hts⟩ := Option.bind_eq_some_iff.mp hts
  have hsum := Affine.offset_merge (c := c) (fun _ _ _ => Term.addCoef?_eq_some) hts
  have hneg := Affine.word_offset_mapM (c := c) (fun _ _ => Term.word_negCoef?) hys
  simp only [Affine.eval_eq_add, hsum, word_add, hneg]
  grind

theorem eval_scale (hr : scale a k = .affine r) : r.eval c = a.eval c * k := by
  obtain ⟨ts, hts, rfl⟩ := ofTerms?_eq_affine hr
  obtain ⟨us, hus, rfl⟩ := Option.map_eq_some_iff.mp hts
  have hmul := Affine.word_offset_mapM (c := c) (w := k) (f := (Term.mulCoef? · (signed k)))
    (fun _ _ hr => by rw [Term.word_mulCoef? hr, word_signed]) hus
  simp only [Affine.eval_eq_add, Affine.offset_nonzero, hmul, UInt32.add_mul]

theorem eval_mul (hr : mul (.affine a) (.affine b) = .affine r) :
    r.eval c = a.eval c * b.eval c := by
  simp only [mul, lift] at hr
  split at hr
  · rename_i hb
    rw [eval_scale hr, Affine.eval_of_isConstant hb]
  · split at hr
    · rename_i ha
      rw [eval_scale hr, Affine.eval_of_isConstant ha, UInt32.mul_comm]
    · cases hr

theorem eval_or (hr : or (.affine a) (.affine b) = .affine r) :
    r.eval c = a.eval c ||| b.eval c := by
  simp only [or, lift] at hr
  split at hr
  · rename_i hconst
    rw [Bool.and_eq_true] at hconst
    cases hr
    rw [Affine.eval_of_isConstant hconst.1, Affine.eval_of_isConstant hconst.2]
    rfl
  · cases hr

/-- Only a constant below 31 shifts, and it shifts the value. -/
theorem eval_shl (hr : shl (.affine a) (.affine b) = .affine r) :
    ∃ k, b = ⟨[], k⟩ ∧ k.toNat < 31 ∧ r.eval c = a.eval c <<< k := by
  simp only [shl, lift] at hr
  split at hr
  · rename_i hcond
    rw [Bool.and_eq_true, decide_eq_true_eq] at hcond
    obtain ⟨hb, hlt⟩ := hcond
    have hk : b.constant.toNat < 31 := hlt
    obtain ⟨ts, hts, rfl⟩ := ofTerms?_eq_affine hr
    refine ⟨b.constant, ?_, hk, ?_⟩
    · rw [← List.isEmpty_iff.mp hb]
    · have hshift := Affine.word_offset_mapM (c := c) (f := (Term.shiftCoef? · b.constant.toNat))
        (fun _ _ => Term.word_shiftCoef?) hts
      have hk' : b.constant.toNat < 32 := by omega
      simp only [Affine.eval_eq_add, hshift, shiftLeft_eq_mul hk', UInt32.add_mul]
  · cases hr

/-- Replacing a counter by a number gives the value at that number. -/
theorem eval_substitute_update (C : a.Canonical L) (hr : substitute (.affine a) h n = .affine r) :
    r.eval c = a.eval (Function.update c h n) := by
  have hfree := Affine.Canonical.coefficient?_eq_none.mpr fun t ht => ((C.substitute hr).2 t ht).2
  rw [← Affine.eval_update_of_free (n := n) hfree, C.eval_substitute hr (Function.update_self ..)]

/-- Leaving a loop with an exact bound gives the value in the last iteration. -/
theorem eval_afterLoop (C : a.Canonical L) (hbound : (L.boundOf h).exactCount? = some n)
    (hr : afterLoop L h (.affine a) = .affine r) :
    r.eval c = a.eval (Function.update c h (n - 1)) := by
  unfold afterLoop at hr
  rw [hbound] at hr
  split at hr
  · rename_i hnone
    cases hr
    exact (Affine.eval_update_of_free (Option.isNone_iff_eq_none.mp hnone)).symm
  · exact eval_substitute_update C hr

/-- Where an operation yields an expression, it has at all counters the value that the operation on
words gives: sum, difference, product, disjunction and shift of the values of the operands, or the
value with the counter of `h` replaced, on leaving the loop of `h` by that of its last iteration. -/
theorem arithmetic_exact (C : a.Canonical L) (c : Nat → Nat) (h : Nat) (r : Affine) :
    (add L (.affine a) (.affine b) = .affine r → r.eval c = a.eval c + b.eval c) ∧
    (sub L (.affine a) (.affine b) = .affine r → r.eval c = a.eval c - b.eval c) ∧
    (mul (.affine a) (.affine b) = .affine r → r.eval c = a.eval c * b.eval c) ∧
    (or (.affine a) (.affine b) = .affine r → r.eval c = a.eval c ||| b.eval c) ∧
    (shl (.affine a) (.affine b) = .affine r → ∃ k, b = ⟨[], k⟩ ∧
      (r.eval c).toNat = (a.eval c).toNat * 2 ^ k.toNat % 2 ^ 32) ∧
    (∀ n, substitute (.affine a) h n = .affine r → r.eval c = a.eval (Function.update c h n)) ∧
    (∀ m, (L.boundOf h).exactCount? = some (m + 1) → afterLoop L h (.affine a) = .affine r →
      r.eval c = a.eval (Function.update c h m)) := by
  refine ⟨eval_add, eval_sub, eval_mul, eval_or, fun hr => ?_, fun n => eval_substitute_update C,
    fun m hbound hr => ?_⟩
  · obtain ⟨k, hb, hk, heval⟩ := eval_shl (c := c) hr
    refine ⟨k, hb, ?_⟩
    have hk' : k.toNat < 32 := by omega
    rw [heval, UInt32.toNat_shiftLeft, Nat.mod_eq_of_lt hk', Nat.shiftLeft_eq]
  · rw [eval_afterLoop C hbound hr, Nat.add_sub_cancel]

/-- A loop over three rows around one over four columns. -/
def matrixLoops : LoopForest :=
  ⟨[⟨⟨1, [2], [1, 2]⟩, 0, none, [2], ⟨some 3, some 3⟩⟩,
    ⟨⟨2, [2], [2]⟩, 1, some 1, [], ⟨some 4, some 4⟩⟩], [0, 1, 2, 2]⟩

/-- The address of a cell. -/
def cell : Affine := ⟨[⟨4, 2⟩, ⟨16, 1⟩], 0x1000⟩

/-- Back to the first row, and two words further. -/
def firstRow : Affine := ⟨[⟨-16, 1⟩], 8⟩

/-- In the second row and the third column: a sum in which a term cancels, a difference, a product,
a disjunction, a shift, the cell of the last row and that of the last column. -/
theorem arithmetic_exact_cell :
    cell.eval id = 0x1018 ∧
    (add matrixLoops (.affine cell) (.affine firstRow) = .affine ⟨[⟨4, 2⟩], 0x1008⟩ ∧
      (⟨[⟨4, 2⟩], 0x1008⟩ : Affine).eval id = cell.eval id + firstRow.eval id) ∧
    (sub matrixLoops (.affine cell) (.affine firstRow) = .affine ⟨[⟨4, 2⟩, ⟨32, 1⟩], 0xff8⟩ ∧
      (⟨[⟨4, 2⟩, ⟨32, 1⟩], 0xff8⟩ : Affine).eval id = cell.eval id - firstRow.eval id) ∧
    (mul (.affine ⟨[], 0xffffffff⟩) (.affine cell) = .affine ⟨[⟨-4, 2⟩, ⟨-16, 1⟩], 0xfffff000⟩ ∧
      (⟨[⟨-4, 2⟩, ⟨-16, 1⟩], 0xfffff000⟩ : Affine).eval id =
        (⟨[], 0xffffffff⟩ : Affine).eval id * cell.eval id) ∧
    (or (.affine ⟨[], 0x1200⟩) (.affine ⟨[], 0x34⟩) = .affine ⟨[], 0x1234⟩ ∧
      (⟨[], 0x1234⟩ : Affine).eval id =
        (⟨[], 0x1200⟩ : Affine).eval id ||| (⟨[], 0x34⟩ : Affine).eval id) ∧
    (shl (.affine cell) (.affine ⟨[], 20⟩) = .affine ⟨[⟨0x400000, 2⟩, ⟨0x1000000, 1⟩], 0⟩ ∧
      ∃ k, (⟨[], 20⟩ : Affine) = ⟨[], k⟩ ∧
        ((⟨[⟨0x400000, 2⟩, ⟨0x1000000, 1⟩], 0⟩ : Affine).eval id).toNat =
          (cell.eval id).toNat * 2 ^ k.toNat % 2 ^ 32) ∧
    (substitute (.affine cell) 1 2 = .affine ⟨[⟨4, 2⟩], 0x1020⟩ ∧
      (⟨[⟨4, 2⟩], 0x1020⟩ : Affine).eval id = cell.eval (Function.update id 1 2)) ∧
    (afterLoop matrixLoops 2 (.affine cell) = .affine ⟨[⟨16, 1⟩], 0x100c⟩ ∧
      (⟨[⟨16, 1⟩], 0x100c⟩ : Affine).eval id = cell.eval (Function.update id 2 3)) := by
  have hcell : cell.Canonical matrixLoops := by decide +kernel
  have hadd : add matrixLoops (.affine cell) (.affine firstRow) = .affine ⟨[⟨4, 2⟩], 0x1008⟩ := by
    decide +kernel
  have hsub : sub matrixLoops (.affine cell) (.affine firstRow) =
      .affine ⟨[⟨4, 2⟩, ⟨32, 1⟩], 0xff8⟩ := by decide +kernel
  have hmul : mul (.affine ⟨[], 0xffffffff⟩) (.affine cell) =
      .affine ⟨[⟨-4, 2⟩, ⟨-16, 1⟩], 0xfffff000⟩ := by decide +kernel
  have hor : or (.affine ⟨[], 0x1200⟩) (.affine ⟨[], 0x34⟩) =
      .affine ⟨[], 0x1234⟩ := by decide +kernel
  have hshl : shl (.affine cell) (.affine ⟨[], 20⟩) =
      .affine ⟨[⟨0x400000, 2⟩, ⟨0x1000000, 1⟩], 0⟩ := by decide +kernel
  have hsubstitute : substitute (.affine cell) 1 2 = .affine ⟨[⟨4, 2⟩], 0x1020⟩ := by decide +kernel
  have hafter : afterLoop matrixLoops 2 (.affine cell) = .affine ⟨[⟨16, 1⟩], 0x100c⟩ := by
    decide +kernel
  exact ⟨by decide +kernel, ⟨hadd, (arithmetic_exact hcell id 0 _).1 hadd⟩,
    ⟨hsub, (arithmetic_exact hcell id 0 _).2.1 hsub⟩,
    ⟨hmul, (arithmetic_exact (L := matrixLoops) Affine.canonical_const id 0 _).2.2.1 hmul⟩,
    ⟨hor, (arithmetic_exact (L := matrixLoops) Affine.canonical_const id 0 _).2.2.2.1 hor⟩,
    ⟨hshl, (arithmetic_exact hcell id 0 _).2.2.2.2.1 hshl⟩,
    ⟨hsubstitute, (arithmetic_exact (b := cell) hcell id 1 _).2.2.2.2.2.1 2 hsubstitute⟩,
    ⟨hafter, (arithmetic_exact (b := cell) hcell id 2 _).2.2.2.2.2.2 3 rfl hafter⟩⟩

end Symbolic

end MissBound
