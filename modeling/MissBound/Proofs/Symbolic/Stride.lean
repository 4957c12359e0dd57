import MissBound.Proofs.Symbolic.Laws

/-!
Widening a value that moves by a constant in each iteration. The constant becomes the coefficient of
the loop, and the widened value, moved by the constant again, is widened to itself. Widening gives
up only where a coefficient cannot be negated, for it subtracts, or where there is no place for
another term.
-/

namespace MissBound

namespace Term

variable {L : LoopForest} {both : Int → Int → Option Int} {f : Int → Option Int} {t : Term}
  {terms zs : List Term}

theorem isSome_mapM : (terms.mapM fun t => (f t.coef).map (Term.mk · t.header)).isSome ↔
    ∀ t ∈ terms, (f t.coef).isSome := by
  induction terms with
  | nil => simp
  | cons t terms ih =>
    rw [List.mapM_cons, List.forall_mem_cons, ← ih]
    cases f t.coef with
    | none => simp
    | some c =>
      cases terms.mapM fun t => (f t.coef).map (Term.mk · t.header) <;> simp

theorem isSome_negCoef? {c : Int} : (negCoef? c).isSome ↔ c ≠ -(2 ^ 31) := by
  unfold negCoef?
  split <;> simp_all

/-- A number and its opposite are never too large to be added. -/
theorem isSome_addCoef?_neg {c : Int} (hc : c ≠ 0) : (addCoef? c (-c)).isSome := by
  have hsign : (decide (c < 0) == decide (-c < 0)) = false := by
    rcases lt_or_gt_of_ne hc with hlt | hgt
    · simp [hlt, Int.le_of_lt hlt]
    · simp [hgt, Int.le_of_lt hgt]
  rw [addCoef?, hsign]
  rfl

/-- A term of a new header makes a list longer. -/
theorem length_insert (hfree : ∀ u ∈ terms, u.header ≠ t.header)
    (hz : insert L.compareHeaders both t terms = some zs) : zs.length = terms.length + 1 := by
  induction terms generalizing zs with
  | nil =>
    cases hz
    rfl
  | cons u terms ih =>
    obtain ⟨hu, hfree⟩ := List.forall_mem_cons.mp hfree
    rcases insert_cons hz with ⟨-, rfl⟩ | ⟨heq, -⟩ | ⟨-, ws, hws, rfl⟩
    · rfl
    · exact absurd heq.symm hu
    · exact congrArg (· + 1) (ih hfree hws)

end Term

namespace Symbolic

variable {L : LoopForest} {P : Nat → Prop} {p w : Affine} {k : UInt32} {c : Int} {h : Nat}

theorem add_const (hp : p.Proper L P) :
    add L (.affine p) (const k) = .affine ⟨p.terms, p.constant + k⟩ :=
  if_neg (Nat.not_lt_of_le hp.length_le)

/-- All terms cancel if they can be negated. -/
theorem sub_moved (hp : p.Proper L P) : sub L (.affine ⟨p.terms, p.constant + k⟩) (.affine p) =
    if ∃ t ∈ p.terms, t.coef = -(2 ^ 31) then .top else const k := by
  simp only [sub, lift]
  cases hneg : p.terms.mapM fun t => (Term.negCoef? t.coef).map (Term.mk · t.header) with
  | none =>
    have hnot := mt Term.isSome_mapM.mpr (by rw [hneg]; simp)
    rw [if_pos (by simpa [Term.isSome_negCoef?] using hnot)]
    rfl
  | some ys =>
    have hall := Term.isSome_mapM.mp (by rw [hneg]; rfl)
    rw [if_neg (by simpa [Term.isSome_negCoef?] using hall)]
    obtain ⟨hheaders, hmem⟩ := Term.mapM_coef hneg
    have hopposite : ∀ u ∈ ys, ∃ t ∈ p.terms, t.header = u.header ∧ u.coef = -t.coef := by
      intro u hu
      obtain ⟨t, ht, heq, hcoef⟩ := hmem u hu
      exact ⟨t, ht, heq, Term.negCoef?_eq_some hcoef⟩
    have hmerge : (Term.merge L.compareHeaders Term.addCoef? p.terms ys).isSome := by
      apply (Term.isSome_merge hp.sorted (Term.sorted_of_headers hp.sorted hheaders)).mpr
      intro u hu t ht heq
      obtain ⟨t', ht', heq', hcoef⟩ := hopposite u hu
      rw [hcoef, hp.canonical.eq_of_header ht' ht (heq'.trans heq.symm)]
      exact Term.isSome_addCoef?_neg (hp.terms t ht).nonzero
    obtain ⟨ts, hts⟩ := Option.isSome_iff_exists.mp hmerge
    have hnonzero : ∀ t ∈ ts, t.coef ≠ 0 := by
      refine Term.forall_merge (P := fun t => t.coef ≠ 0) (fun t ht => (hp.terms t ht).nonzero)
        (fun u hu => ?_) (fun _ _ _ _ _ _ _ hne => hne) hts
      obtain ⟨t, ht, -, hcoef⟩ := hopposite u hu
      rw [hcoef]
      exact Int.neg_ne_zero.mpr (hp.terms t ht).nonzero
    have hnil : ts = [] := by
      apply Term.eq_of_coefOf (Term.sorted_merge hp.sorted hts) .nil hnonzero (by simp)
      intro n
      rw [Term.coefOf_merge (fun _ _ _ => Term.addCoef?_eq_some) hts,
        Term.coefOf_negated hp.sorted hneg, Int.add_right_neg]
      rfl
    rw [Option.bind_some, hts, hnil, UInt32.add_comm, UInt32.add_sub_cancel]
    rfl

/-- Widening a value against itself moved by a constant. -/
theorem widen_moved (hp : p.Proper L P) (hk : k ≠ 0) :
    widen L h (.affine p) (.affine ⟨p.terms, p.constant + k⟩) =
      if ∃ t ∈ p.terms, t.coef = -(2 ^ 31) then .top
      else if p.coefficient? h = some (signed k) then .affine p
      else if (p.coefficient? h).isSome then .top
      else add L (.affine p) (term (signed k) h) := by
  have hne : p.constant + k ≠ p.constant := by simpa using hk
  have hincludes : ¬includes (.affine ⟨p.terms, p.constant + k⟩) (.affine p) = true := by
    intro h
    exact hne (part_of_includes h).constant.symm
  simp only [widen, lift]
  rw [if_neg hincludes, sub_moved hp]
  by_cases hlowest : ∃ t ∈ p.terms, t.coef = -(2 ^ 31)
  · rw [if_pos hlowest, if_pos hlowest]
    rfl
  · rw [if_neg hlowest, if_neg hlowest]
    rfl

theorem signed_ne_zero (hk : k ≠ 0) : signed k ≠ 0 := by
  intro hzero
  apply hk
  rw [← word_signed k, hzero]
  rfl

/-- A new term finds a place unless there are as many as there can be. -/
theorem add_term_cases (hp : p.Proper L P) (hc : c ≠ 0) (hfree : p.coefficient? h = none) :
    p.terms.length = maxTerms ∧ add L (.affine p) (term c h) = .top ∨
    p.terms.length < maxTerms ∧ ∃ w, add L (.affine p) (term c h) = .affine w := by
  have hnone := Affine.Canonical.coefficient?_eq_none.mp hfree
  have hinsert : (Term.insert L.compareHeaders Term.addCoef? ⟨c, h⟩ p.terms).isSome :=
    (Term.isSome_insert hp.sorted).mpr fun u hu heq => absurd heq (hnone u hu)
  obtain ⟨zs, hzs⟩ := Option.isSome_iff_exists.mp hinsert
  have hlength := Term.length_insert hnone hzs
  have hadd : add L (.affine p) (term c h) = ofTerms zs (p.constant + 0) := by
    rw [term, if_neg hc, add_affine, Term.merge, List.foldlM_cons, hzs]
    rfl
  rw [hadd, ofTerms]
  rcases Nat.lt_or_eq_of_le hp.length_le with hlt | heq
  · exact .inr ⟨hlt, _, if_neg (by omega)⟩
  · exact .inl ⟨heq, if_pos (by omega)⟩

/-- The new term counts the iterations. -/
theorem eval_add_term (hc : c ≠ 0) (hfree : p.coefficient? h = none)
    (hw : add L (.affine p) (term c h) = .affine w) {counter : Nat → Nat} {i : Nat} :
    w.eval (Function.update counter h i) = p.eval counter + word c * UInt32.ofNat i := by
  rw [term, if_neg hc] at hw
  rw [eval_add hw, Affine.eval_update_of_free hfree]
  simp [Affine.eval]

/-- A value without a term for `h` that moves by `k` is widened to one that is `k` larger in each
iteration of `h`, unless a coefficient cannot be negated or there is no place for a term. If the
loop has got a term, the widened value moved by `k` again is widened to itself, or to the unknown
value where a coefficient cannot be negated. -/
theorem widen_captures_stride (hp : p.Proper L P) (hfree : p.coefficient? h = none) (k : UInt32) :
    (widen L h (.affine p) (add L (.affine p) (const k)) = .top ↔
      k ≠ 0 ∧ ((∃ t ∈ p.terms, t.coef = -(2 ^ 31)) ∨ p.terms.length = maxTerms)) ∧
    (widen L h (.affine p) (add L (.affine p) (const k)) = .top ∨
      ∃ w, widen L h (.affine p) (add L (.affine p) (const k)) = .affine w ∧
        (∀ counter i,
          w.eval (Function.update counter h i) = p.eval counter + k * UInt32.ofNat i) ∧
        ((w.coefficient? h).isSome → widen L h (.affine w) (add L (.affine w) (const k)) =
          if ∃ t ∈ w.terms, t.coef = -(2 ^ 31) then .top else .affine w)) := by
  rcases eq_or_ne k 0 with rfl | hk
  · have hstill : widen L h (.affine p) (add L (.affine p) (const 0)) = .affine p := by
      rw [add_const hp, UInt32.add_zero]
      exact if_pos (by simp [includes])
    rw [hstill]
    refine ⟨by simp, .inr ⟨p, rfl, fun counter i => ?_, fun hsome => ?_⟩⟩
    · rw [Affine.eval_update_of_free hfree, UInt32.zero_mul, UInt32.add_zero]
    · rw [hfree] at hsome
      cases hsome
  · rw [add_const hp, widen_moved hp hk]
    by_cases hlowest : ∃ t ∈ p.terms, t.coef = -(2 ^ 31)
    · rw [if_pos hlowest]
      exact ⟨iff_of_true rfl ⟨hk, .inl hlowest⟩, .inl rfl⟩
    · rw [if_neg hlowest, hfree, if_neg (by simp), if_neg (by simp)]
      rcases add_term_cases hp (signed_ne_zero hk) hfree with ⟨hfull, htop⟩ | ⟨hlt, w, hw⟩
      · rw [htop]
        exact ⟨iff_of_true rfl ⟨hk, .inr hfull⟩, .inl rfl⟩
      · rw [hw]
        refine ⟨iff_of_false (by simp) fun hstop => ?_,
          .inr ⟨w, rfl, fun counter i => ?_, fun _ => ?_⟩⟩
        · rcases hstop.2 with hstop | hstop
          · exact hlowest hstop
          · exact absurd hstop (Nat.ne_of_lt hlt)
        · rw [eval_add_term (signed_ne_zero hk) hfree hw, word_signed]
        · have hproper : (add L (.affine p) (term (signed k) h)).Proper L fun _ => True :=
            proper_add (.affine (hp.mono fun _ _ _ => trivial))
              (proper_term (signed_ge k) (signed_lt k) trivial)
          rw [hw] at hproper
          cases hproper with
          | affine hw' =>
            have hcoef := hw'.canonical.coefficient?_eq_some.mpr
              (add_term hp (signed_ne_zero hk) hfree hw).2.1
            rw [add_const hw', widen_moved hw' hk, if_pos hcoef]

/-- The first cell of a row. -/
def rowStart : Affine := ⟨[⟨16, 1⟩], 0x1000⟩

/-- A pointer that starts at the first cell of a row and moves from word to word. -/
theorem widen_captures_stride_cell :
    (rowStart.Proper matrixLoops (fun _ => True) ∧ rowStart.coefficient? 2 = none) ∧
    widen matrixLoops 2 (.affine rowStart) (add matrixLoops (.affine rowStart) (const 4)) =
      .affine cell ∧
    (∀ counter i,
      cell.eval (Function.update counter 2 i) = rowStart.eval counter + 4 * UInt32.ofNat i) ∧
    widen matrixLoops 2 (.affine cell) (add matrixLoops (.affine cell) (const 4)) =
      .affine cell := by
  have hrow : rowStart.Proper matrixLoops fun _ => True := by decide +kernel
  have hfree : rowStart.coefficient? 2 = none := by decide +kernel
  have hcell : widen matrixLoops 2 (.affine rowStart)
      (add matrixLoops (.affine rowStart) (const 4)) = .affine cell := by decide +kernel
  obtain ⟨w, hw, heval, hstable⟩ :=
    (widen_captures_stride hrow hfree 4).2.resolve_left (by rw [hcell]; simp)
  cases hcell.symm.trans hw
  exact ⟨⟨hrow, hfree⟩, hcell, heval, (hstable rfl).trans (if_neg (by decide +kernel))⟩

end Symbolic

end MissBound
