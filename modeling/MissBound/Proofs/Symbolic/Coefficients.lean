import MissBound.Proofs.Symbolic.Arithmetic

/-!
Coefficients over the integers. A sum, a difference or a shift has exactly the coefficients that
unbounded arithmetic gives, or is unknown. A product is checked by the highest bits of its factors
only, which lets pass whatever is less than `2^32`; from `2^31` on the coefficient comes out with
the other sign.
-/

namespace MissBound

/-- A number of 32 signed bits. -/
def Fits (x : Int) : Prop := -(2 ^ 31) ≤ x ∧ x < 2 ^ 31

instance (x : Int) : Decidable (Fits x) := inferInstanceAs (Decidable (_ ∧ _))

/-- What 32 signed bits hold of a number whose magnitude is less than `2^32`. -/
inductive WrapsTo (x : Int) : Int → Prop
  | fits : Fits x → WrapsTo x x
  | above : 2 ^ 31 ≤ x → x < 2 ^ 32 → WrapsTo x (x - 2 ^ 32)
  | below : -(2 ^ 32) < x → x < -(2 ^ 31) → WrapsTo x (x + 2 ^ 32)

theorem wrapsTo_bmod {x : Int} (hx : x.natAbs < 2 ^ 32) : WrapsTo x (x.bmod (2 ^ 32)) := by
  rcases lt_or_ge x (-(2 ^ 31)) with hlow | hlow
  · have heq : x.bmod (2 ^ 32) = x + 2 ^ 32 := by
      rw [Int.bmod_def]
      omega
    rw [heq]
    exact .below (by omega) hlow
  · rcases lt_or_ge x (2 ^ 31) with hhigh | hhigh
    · rw [Int.bmod_eq_of_le (by omega) (by omega)]
      exact .fits ⟨hlow, hhigh⟩
    · have heq : x.bmod (2 ^ 32) = x - 2 ^ 32 := by
        rw [Int.bmod_def]
        omega
      rw [heq]
      exact .above hhigh (by omega)

namespace Term

variable {terms : List Term} {a b r : Int} {n : Nat}

/-- A product that is let through is less than `2^32`: each factor is less than twice its highest
bit. -/
theorem wrapsTo_mulCoef? (h : mulCoef? a b = some r) : WrapsTo (a * b) r := by
  obtain ⟨hbits, heq⟩ := Option.ite_none_left_eq_some.mp h
  cases heq
  apply wrapsTo_bmod
  calc
    (a * b).natAbs = a.natAbs * b.natAbs := Int.natAbs_mul a b
    _ < 2 ^ (a.natAbs.log2 + 1) * 2 ^ (b.natAbs.log2 + 1) :=
      Nat.mul_lt_mul'' Nat.lt_log2_self Nat.lt_log2_self
    _ = 2 ^ (a.natAbs.log2 + b.natAbs.log2 + 2) := by rw [← Nat.pow_add]; congr 1; omega
    _ ≤ 2 ^ 32 := Nat.pow_le_pow_right (by decide) (by omega)

theorem coefOf_nonzero : coefOf (terms.filter fun t => t.coef != 0) n = coefOf terms n := by
  induction terms with
  | nil => rfl
  | cons t terms ih =>
    rw [List.filter_cons, coefOf_cons]
    split
    · rw [coefOf_cons, ih]
    · rename_i hzero
      rw [ih, show t.coef = 0 by simpa using hzero, ite_self, Int.zero_add]

/-- Taking out the terms of a header leaves the other coefficients. -/
theorem coefOf_filter {h : Nat} : coefOf (terms.filter fun t => t.header != h) n =
    if n = h then 0 else coefOf terms n := by
  induction terms with
  | nil => simp
  | cons t terms ih =>
    rw [List.filter_cons, coefOf_cons]
    split
    · rename_i hne
      have hne : t.header ≠ h := by simpa using hne
      rw [coefOf_cons, ih]
      grind
    · rename_i heq
      have heq : t.header = h := by simpa using heq
      rw [ih]
      grind

end Term

namespace Affine

variable {L : LoopForest} {P : Nat → Prop} {e : Affine} {h : Nat}

theorem Proper.fits (H : e.Proper L P) : Fits (e.coefficient h) := by
  rw [H.coefficient_eq]
  exact coefOf_small H

end Affine

namespace Symbolic

variable {L : LoopForest} {P : Nat → Prop} {a b r : Affine} {v : Symbolic} {k : UInt32}
  {coef : Nat → Int} {h n : Nat}

/-- The value is unknown, or an expression with the given coefficients, which fit. -/
def Exact (v : Symbolic) (coef : Nat → Int) : Prop :=
  v = .top ∨ ∃ r, v = .affine r ∧ ∀ h, r.coefficient h = coef h ∧ Fits (coef h)

theorem exact_of_proper (hv : v.Proper L P)
    (h : ∀ r, v = .affine r → ∀ n, Term.coefOf r.terms n = coef n) : v.Exact coef := by
  cases hv with
  | top => exact .inl rfl
  | @affine r hr =>
    have hcoef : ∀ n, r.coefficient n = coef n := fun n => by rw [hr.coefficient_eq, h r rfl]
    exact .inr ⟨r, rfl, fun n => ⟨hcoef n, hcoef n ▸ hr.fits⟩⟩

theorem exact_add (ha : a.Proper L P) (hb : b.Proper L P) :
    (add L (.affine a) (.affine b)).Exact fun h => a.coefficient h + b.coefficient h := by
  apply exact_of_proper (proper_add (.affine ha) (.affine hb))
  intro r hr n
  obtain ⟨ts, hts, rfl⟩ := ofTerms?_eq_affine hr
  rw [ha.coefficient_eq, hb.coefficient_eq]
  exact Term.coefOf_merge (fun _ _ _ => Term.addCoef?_eq_some) hts

theorem exact_sub (ha : a.Proper L P) (hb : b.Proper L P) :
    (sub L (.affine a) (.affine b)).Exact fun h => a.coefficient h - b.coefficient h := by
  apply exact_of_proper (proper_sub (.affine ha) (.affine hb))
  intro r hr n
  obtain ⟨ts, hts, rfl⟩ := ofTerms?_eq_affine hr
  obtain ⟨ys, hys, hts⟩ := Option.bind_eq_some_iff.mp hts
  rw [ha.coefficient_eq, hb.coefficient_eq,
    Term.coefOf_merge (fun _ _ _ => Term.addCoef?_eq_some) hts, Term.coefOf_negated hb.sorted hys]
  rfl

theorem exact_shl (ha : a.Proper L P) (hb : b.Proper L P) :
    (shl (.affine a) (.affine b)).Exact fun h => a.coefficient h * 2 ^ b.constant.toNat := by
  apply exact_of_proper (proper_shl (.affine ha) (.affine hb))
  intro r hr n
  simp only [shl, lift] at hr
  split at hr
  · obtain ⟨ts, hts, rfl⟩ := ofTerms?_eq_affine hr
    rw [ha.coefficient_eq]
    exact Term.coefOf_mapM (R := fun c r => r = c * 2 ^ b.constant.toNat) (Int.zero_mul _).symm
      (fun _ _ => Term.shiftCoef?_eq_some) ha.sorted hts n
  · cases hr

theorem wrapsTo_scale (ha : a.Proper L P) (hr : scale a k = .affine r) :
    WrapsTo (a.coefficient h * signed k) (r.coefficient h) := by
  have hproper := proper_scale (k := k) ha
  rw [hr] at hproper
  cases hproper with
  | affine hr' =>
    obtain ⟨ts, hts, rfl⟩ := ofTerms?_eq_affine hr
    obtain ⟨us, hus, rfl⟩ := Option.map_eq_some_iff.mp hts
    rw [ha.coefficient_eq, hr'.coefficient_eq, Term.coefOf_nonzero]
    refine Term.coefOf_mapM (R := fun c r => WrapsTo (c * signed k) r) ?_
      (fun _ _ => Term.wrapsTo_mulCoef?) ha.sorted hus h
    rw [Int.zero_mul]
    exact .fits (by decide)

/-- A product has a constant factor, and its coefficients are those of the other factor,
multiplied. -/
theorem wrapsTo_mul (ha : a.Proper L P) (hb : b.Proper L P)
    (hr : mul (.affine a) (.affine b) = .affine r) :
    ∃ e k, (a = e ∧ b = ⟨[], k⟩ ∨ a = ⟨[], k⟩ ∧ b = e) ∧
      ∀ h, WrapsTo (e.coefficient h * signed k) (r.coefficient h) := by
  simp only [mul, lift] at hr
  split at hr
  · rename_i hconst
    refine ⟨a, b.constant, .inl ⟨rfl, ?_⟩, fun h => wrapsTo_scale ha hr⟩
    rw [← List.isEmpty_iff.mp hconst]
  · split at hr
    · rename_i hconst
      refine ⟨b, a.constant, .inr ⟨?_, rfl⟩, fun h => wrapsTo_scale hb hr⟩
      rw [← List.isEmpty_iff.mp hconst]
    · cases hr

/-- Replacing a counter takes its coefficient into the constant and leaves the others. -/
theorem wrapsTo_substitute (ha : a.Proper L P) (hr : substitute (.affine a) h n = .affine r) :
    (∃ d, WrapsTo (a.coefficient h * n) d ∧ r.constant = a.constant + word d) ∧
      ∀ m, r.coefficient m = if m = h then 0 else a.coefficient m := by
  rcases Affine.Canonical.substitute_cases hr with ⟨hnone, rfl⟩ | ⟨k, d, hk, hd, rfl⟩
  · have hzero : r.coefficient h = 0 := by rw [Affine.coefficient, hnone]; rfl
    refine ⟨⟨0, ?_, (UInt32.add_zero _).symm⟩, fun m => ?_⟩
    · rw [hzero, Int.zero_mul]
      exact .fits (by decide)
    · split
      · rename_i heq
        rw [heq, hzero]
      · rfl
  · have hcoef : a.coefficient h = k := by rw [Affine.coefficient, hk]; rfl
    refine ⟨⟨d, hcoef ▸ Term.wrapsTo_mulCoef? hd, rfl⟩, fun m => ?_⟩
    rw [ha.filter.coefficient_eq, ha.coefficient_eq, Term.coefOf_filter]

/-- Sums, differences and shifts are unknown or have the coefficients of unbounded arithmetic, which
then fit. A product that is known, or the number that a replaced counter adds, is less than `2^32`,
and 32 signed bits hold it only where it fits; otherwise it is off by `2^32`. -/
theorem coefficients_exact (ha : a.Proper L P) (hb : b.Proper L P) :
    (add L (.affine a) (.affine b)).Exact (fun h => a.coefficient h + b.coefficient h) ∧
    (sub L (.affine a) (.affine b)).Exact (fun h => a.coefficient h - b.coefficient h) ∧
    (shl (.affine a) (.affine b)).Exact (fun h => a.coefficient h * 2 ^ b.constant.toNat) ∧
    (∀ r, mul (.affine a) (.affine b) = .affine r →
      ∃ e k, (a = e ∧ b = ⟨[], k⟩ ∨ a = ⟨[], k⟩ ∧ b = e) ∧
        ∀ h, WrapsTo (e.coefficient h * signed k) (r.coefficient h)) ∧
    (∀ h n r, substitute (.affine a) h n = .affine r →
      (∃ d, WrapsTo (a.coefficient h * n) d ∧ r.constant = a.constant + word d) ∧
        ∀ m, r.coefficient m = if m = h then 0 else a.coefficient m) :=
  ⟨exact_add ha hb, exact_sub ha hb, exact_shl ha hb, fun _ => wrapsTo_mul ha hb,
    fun _ _ _ => wrapsTo_substitute ha⟩

/-- An address with a stride of 16 bits in the inner loop. -/
def wide : Affine := ⟨[⟨0xffff, 2⟩, ⟨4, 1⟩], 0x1000⟩

/-- A sum, a difference, a shift that just fits, a product, and a counter whose product does not
fit. -/
theorem coefficients_exact_wide :
    wide.Proper matrixLoops (fun _ => True) ∧
    (⟨[], 15⟩ : Affine).Proper matrixLoops (fun _ => True) ∧
      (add matrixLoops (.affine wide) (.affine ⟨[], 15⟩) = .affine ⟨[⟨0xffff, 2⟩, ⟨4, 1⟩], 0x100f⟩ ∧
        (add matrixLoops (.affine wide) (.affine ⟨[], 15⟩)).Exact fun h =>
        wide.coefficient h + (⟨[], 15⟩ : Affine).coefficient h) ∧
    (sub matrixLoops (.affine wide) (.affine ⟨[], 15⟩) = .affine ⟨[⟨0xffff, 2⟩, ⟨4, 1⟩], 0xff1⟩ ∧
      (sub matrixLoops (.affine wide) (.affine ⟨[], 15⟩)).Exact fun h =>
        wide.coefficient h - (⟨[], 15⟩ : Affine).coefficient h) ∧
    (shl (.affine wide) (.affine ⟨[], 15⟩) =
        .affine ⟨[⟨0x7fff8000, 2⟩, ⟨0x20000, 1⟩], 0x8000000⟩ ∧
      (shl (.affine wide) (.affine ⟨[], 15⟩)).Exact fun h => wide.coefficient h * 2 ^ 15) ∧
    (mul (.affine wide) (.affine ⟨[], 15⟩) = .affine ⟨[⟨0xefff1, 2⟩, ⟨60, 1⟩], 0xf000⟩ ∧
      ∃ e k, (wide = e ∧ (⟨[], 15⟩ : Affine) = ⟨[], k⟩ ∨ wide = ⟨[], k⟩ ∧ ⟨[], 15⟩ = e) ∧
        ∀ h, WrapsTo (e.coefficient h * signed k)
          ((⟨[⟨0xefff1, 2⟩, ⟨60, 1⟩], 0xf000⟩ : Affine).coefficient h)) ∧
    (substitute (.affine wide) 2 0xffff = .affine ⟨[⟨4, 1⟩], 0xfffe1001⟩ ∧
      ∃ d, WrapsTo (wide.coefficient 2 * 0xffff) d ∧ (0xfffe1001 : UInt32) = 0x1000 + word d) := by
  have hwide : wide.Proper matrixLoops fun _ => True := by decide +kernel
  have hshift : (⟨[], 15⟩ : Affine).Proper matrixLoops fun _ => True := by decide +kernel
  have hmul : mul (.affine wide) (.affine ⟨[], 15⟩) =
      .affine ⟨[⟨0xefff1, 2⟩, ⟨60, 1⟩], 0xf000⟩ := by
    decide +kernel
  have hsubstitute : substitute (.affine wide) 2 0xffff = .affine ⟨[⟨4, 1⟩], 0xfffe1001⟩ := by
    decide +kernel
  obtain ⟨hadd, hsub, hshl, hproduct, hcounter⟩ := coefficients_exact hwide hshift
  exact ⟨hwide, hshift, ⟨by decide +kernel, hadd⟩, ⟨by decide +kernel, hsub⟩,
    ⟨by decide +kernel, hshl⟩,
    ⟨hmul, hproduct _ hmul⟩, ⟨hsubstitute, (hcounter 2 0xffff _ hsubstitute).1⟩⟩

/-- A product of two numbers of 16 bits passes the check also where it does not fit: as a
coefficient it turns negative, and for a counter the value does not become unknown. -/
theorem product_turns_negative :
    wide.Proper matrixLoops (fun _ => True) ∧ wide.coefficient 2 * signed 0xffff = 0xfffe0001 ∧
    ¬Fits 0xfffe0001 ∧
    mul (.affine wide) (.affine ⟨[], 0xffff⟩) =
      .affine ⟨[⟨-0x1ffff, 2⟩, ⟨0x3fffc, 1⟩], 0xffff000⟩ ∧
    (⟨[⟨-0x1ffff, 2⟩, ⟨0x3fffc, 1⟩], 0xffff000⟩ : Affine).coefficient 2 ≠ 0xfffe0001 ∧
    substitute (.affine wide) 2 0xffff ≠ .top := by
  decide +kernel

end Symbolic

end MissBound
