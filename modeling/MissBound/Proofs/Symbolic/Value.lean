import MissBound.Proofs.Symbolic.Terms

/-!
Symbolic values that can arise. Every operation yields the unknown value or an expression in
canonical form, with coefficients of 32 bits, over the loops of its operands. Such an expression is
determined by its values.
-/

namespace MissBound

/-- A term with a coefficient of 32 bits, for a loop in `P`. -/
structure Term.Proper (P : Nat → Prop) (t : Term) : Prop where
  nonzero : t.coef ≠ 0
  ge : -(2 ^ 31) ≤ t.coef
  lt : t.coef < 2 ^ 31
  scope : P t.header

structure Affine.Proper (L : LoopForest) (P : Nat → Prop) (e : Affine) : Prop where
  sorted : Term.Sorted L e.terms
  terms : ∀ t ∈ e.terms, t.Proper P
  length_le : e.terms.length ≤ maxTerms

instance {P : Nat → Prop} [DecidablePred P] {t : Term} : Decidable (t.Proper P) :=
  decidable_of_iff (t.coef ≠ 0 ∧ -(2 ^ 31) ≤ t.coef ∧ t.coef < 2 ^ 31 ∧ P t.header)
    ⟨fun h => ⟨h.1, h.2.1, h.2.2.1, h.2.2.2⟩, fun h => ⟨h.nonzero, h.ge, h.lt, h.scope⟩⟩

instance {L : LoopForest} {P : Nat → Prop} [DecidablePred P] {e : Affine} :
    Decidable (e.Proper L P) :=
  decidable_of_iff (Term.Sorted L e.terms ∧ (∀ t ∈ e.terms, t.Proper P) ∧ e.terms.length ≤ maxTerms)
    ⟨fun h => ⟨h.1, h.2.1, h.2.2⟩, fun h => ⟨h.sorted, h.terms, h.length_le⟩⟩

/-- A value that operations on registers can yield. -/
inductive Symbolic.Proper (L : LoopForest) (P : Nat → Prop) : Symbolic → Prop
  | top : Proper L P .top
  | affine {e : Affine} : e.Proper L P → Proper L P (.affine e)

theorem word_signed (k : UInt32) : word (signed k) = k := by
  unfold word signed
  rw [Int32.ofInt_toInt]
  rfl

theorem signed_ge (k : UInt32) : -(2 ^ 31) ≤ signed k := k.toInt32.le_toInt

theorem signed_lt (k : UInt32) : signed k < 2 ^ 31 := k.toInt32.toInt_lt

namespace Affine

variable {L : LoopForest} {P Q : Nat → Prop} {e x y : Affine} {c : Nat → Nat} {h n : Nat}

theorem Proper.canonical (H : e.Proper L P) : e.Canonical L :=
  ⟨H.sorted, fun t ht => (H.terms t ht).nonzero⟩

theorem Proper.mono (H : e.Proper L P) (hPQ : ∀ t ∈ e.terms, P t.header → Q t.header) :
    e.Proper L Q :=
  { H with terms := fun t ht => { H.terms t ht with scope := hPQ t ht (H.terms t ht).scope } }

theorem Proper.filter (H : e.Proper L P) {keep : Term → Bool} {k : UInt32} :
    (⟨e.terms.filter keep, k⟩ : Affine).Proper L P :=
  ⟨List.Pairwise.filter _ H.sorted, fun t ht => H.terms t (List.mem_of_mem_filter ht),
    Nat.le_trans (List.length_filter_le ..) H.length_le⟩

/-- The coefficient of a header, zero if it has no term. -/
def coefficient (e : Affine) (h : Nat) : Int := (e.coefficient? h).getD 0

theorem Proper.coefficient_eq (H : e.Proper L P) : e.coefficient h = Term.coefOf e.terms h := by
  unfold coefficient
  cases hk : e.coefficient? h with
  | none => exact (Term.coefOf_eq_zero (Canonical.coefficient?_eq_none.mp hk)).symm
  | some k => exact (Term.coefOf_of_mem H.sorted (H.canonical.coefficient?_eq_some.mp hk)).symm

/-- Setting the counter of `h` splits off its term. -/
theorem offset_update {terms : List Term} : offset terms (Function.update c h n) =
    Term.coefOf terms h * n + offset (terms.filter fun t => t.header != h) c := by
  induction terms with
  | nil => simp [offset]
  | cons t terms ih =>
    simp only [offset, List.map_cons, List.sum_cons, Term.coefOf_cons, List.filter_cons] at ih ⊢
    by_cases ht : t.header = h
    · rw [ih, if_pos ht, ht, Function.update_self, if_neg (by simp), Int.add_mul]
      omega
    · rw [ih, if_neg ht, Function.update_of_ne ht, if_pos (by simpa using ht), Int.zero_add]
      simp only [List.map_cons, List.sum_cons]
      omega

theorem eval_update : e.eval (Function.update c h n) =
    (⟨e.terms.filter fun t => t.header != h, e.constant⟩ : Affine).eval c +
      word (Term.coefOf e.terms h) * word n := by
  rw [eval_eq, eval_eq, offset_update, word_add, word_add, word_add, word_mul, word_toNat]
  rw [UInt32.add_assoc, UInt32.add_comm (word _ * _)]

theorem coefOf_small (H : e.Proper L P) : -(2 ^ 31) ≤ Term.coefOf e.terms h ∧
    Term.coefOf e.terms h < 2 ^ 31 := by
  by_cases hzero : Term.coefOf e.terms h = 0
  · rw [hzero]
    decide
  · have ht := H.terms _ (Term.mem_of_coefOf H.sorted hzero)
    exact ⟨ht.ge, ht.lt⟩

theorem eq_of_word_eq {a b : Int} (ha : -(2 ^ 31) ≤ a ∧ a < 2 ^ 31)
    (hb : -(2 ^ 31) ≤ b ∧ b < 2 ^ 31) (h : word a = word b) : a = b := by
  have h' := congrArg UInt32.toNat h
  rw [toNat_word, toNat_word] at h'
  omega

/-- `y` is `x` without some of its terms. -/
structure Part (y x : Affine) : Prop where
  constant : y.constant = x.constant
  terms : ∀ t ∈ y.terms, t ∈ x.terms

theorem Part.refl : e.Part e := ⟨rfl, fun _ ht => ht⟩

theorem Part.trans {z : Affine} (h₁ : z.Part y) (h₂ : y.Part x) : z.Part x :=
  ⟨h₁.constant.trans h₂.constant, fun t ht => h₂.terms t (h₁.terms t ht)⟩

/-- Values at all counters determine an expression. -/
theorem Proper.eq_of_eval (hx : x.Proper L P) (hy : y.Proper L Q)
    (heq : ∀ c, x.eval c = y.eval c) : x = y := by
  have hzero : ∀ e : Affine, e.eval (fun _ => 0) = e.constant := by
    intro e
    have hoff : offset e.terms (fun _ => 0) = 0 := by
      unfold offset
      simp
    rw [eval_eq, hoff, Int.add_zero, word_toNat]
  have hconst : x.constant = y.constant := by rw [← hzero x, heq, hzero]
  have hcoef : ∀ h, Term.coefOf x.terms h = Term.coefOf y.terms h := by
    intro h
    refine eq_of_word_eq (coefOf_small hx) (coefOf_small hy) ?_
    have h1 := heq (Function.update (fun _ => 0) h 1)
    rw [eval_update, eval_update, hzero, hzero] at h1
    simp only [hconst] at h1
    have hone : word ((1 : Nat) : Int) = 1 := rfl
    rw [hone, UInt32.mul_one, UInt32.mul_one] at h1
    exact UInt32.add_right_inj _ |>.mp h1
  have hterms := Term.eq_of_coefOf hx.sorted hy.sorted (fun t ht => (hx.terms t ht).nonzero)
    (fun t ht => (hy.terms t ht).nonzero) hcoef
  obtain ⟨xs, k⟩ := x
  obtain ⟨ys, k'⟩ := y
  cases hterms
  cases hconst
  rfl

end Affine

namespace Term

variable {L : LoopForest} {P : Nat → Prop} {terms ts : List Term} {f : Int → Option Int} {h : Nat}

theorem add_small {c d r : Int} (hc : -(2 ^ 31) ≤ c ∧ c < 2 ^ 31) (hd : -(2 ^ 31) ≤ d ∧ d < 2 ^ 31)
    (h : addCoef? c d = some r) : -(2 ^ 31) ≤ r ∧ r < 2 ^ 31 := by
  have hlog : ∀ x : Int, x.natAbs.log2 < 30 → x.natAbs < 2 ^ 30 := by
    intro x hx
    by_cases hzero : x.natAbs = 0
    · omega
    · exact (Nat.log2_lt hzero).mp hx
  unfold addCoef? at h
  split at h
  · cases h
  · rename_i hcond
    cases h
    rw [Bool.and_eq_true, not_and_or, beq_iff_eq, decide_eq_true_eq] at hcond
    rcases hcond with hsign | hlarge
    · by_cases hc0 : c < 0 <;> by_cases hd0 : d < 0 <;> simp [hc0, hd0] at hsign <;> omega
    · have h1 := hlog c (by omega)
      have h2 := hlog d (by omega)
      omega

theorem shift_small {c r : Int} {shift : Nat} (hshift : shift < 31) (hc : c ≠ 0)
    (h : shiftCoef? c shift = some r) : r ≠ 0 ∧ -(2 ^ 31) ≤ r ∧ r < 2 ^ 31 := by
  have hpos : (0 : Int) < 2 ^ shift := Int.pow_pos (by decide)
  have hpow : (2 : Int) ^ (31 - shift) * 2 ^ shift = 2 ^ 31 := by
    rw [← Int.pow_add, show 31 - shift + shift = 31 by omega]
  simp only [shiftCoef?, Nat.one_shiftLeft, Nat.cast_pow, Nat.cast_ofNat, Int.shiftLeft_eq] at h
  split at h
  · rename_i hrange
    cases h
    have hge := Int.mul_le_mul_of_nonneg_right hrange.1 (Int.le_of_lt hpos)
    have hlt := Int.mul_lt_mul_of_pos_right hrange.2 hpos
    rw [Int.neg_mul, hpow] at hge
    rw [hpow] at hlt
    exact ⟨Int.mul_ne_zero hc (Int.ne_of_gt hpos), hge, hlt⟩
  · cases h

/-- Changing coefficients leaves the headers alone. -/
theorem mapM_coef (h : terms.mapM (fun t => (f t.coef).map (Term.mk · t.header)) = some ts) :
    ts.map (·.header) = terms.map (·.header) ∧
      ∀ t ∈ ts, ∃ u ∈ terms, u.header = t.header ∧ f u.coef = some t.coef := by
  induction terms generalizing ts with
  | nil =>
    cases h
    exact ⟨rfl, fun t ht => (by cases ht)⟩
  | cons u terms ih =>
    rw [List.mapM_cons] at h
    obtain ⟨t, ht, h⟩ := Option.bind_eq_some_iff.mp h
    obtain ⟨ts', hts, h⟩ := Option.bind_eq_some_iff.mp h
    obtain ⟨c, hc, rfl⟩ := Option.map_eq_some_iff.mp ht
    cases h
    obtain ⟨hheaders, hmem⟩ := ih hts
    refine ⟨by simp [hheaders], fun t ht => ?_⟩
    rcases List.mem_cons.mp ht with rfl | ht
    · exact ⟨u, List.mem_cons_self, rfl, hc⟩
    · obtain ⟨v, hv, h⟩ := hmem t ht
      exact ⟨v, List.mem_cons_of_mem _ hv, h⟩

theorem sorted_of_headers (hs : Sorted L terms) (h : ts.map (·.header) = terms.map (·.header)) :
    Sorted L ts := by
  have hp : (terms.map (·.header)).Pairwise fun a b => L.compareHeaders a b = .lt :=
    List.pairwise_map.mpr hs
  rw [← h] at hp
  exact List.pairwise_map.mp hp

/-- The coefficient of a header is changed as each coefficient is. -/
theorem coefOf_mapM {R : Int → Int → Prop} (hzero : R 0 0) (hf : ∀ c r, f c = some r → R c r)
    (hs : Sorted L terms)
    (h : terms.mapM (fun t => (f t.coef).map (Term.mk · t.header)) = some ts) (n : Nat) :
    R (coefOf terms n) (coefOf ts n) := by
  obtain ⟨hheaders, hmem⟩ := mapM_coef h
  by_cases hn : ∃ t ∈ ts, t.header = n
  · obtain ⟨t, ht, rfl⟩ := hn
    obtain ⟨u, hu, heq, hcoef⟩ := hmem t ht
    rw [coefOf_of_mem (sorted_of_headers hs hheaders) ht, ← heq, coefOf_of_mem hs hu]
    exact hf _ _ hcoef
  · have hts : ∀ t ∈ ts, t.header ≠ n := fun t ht heq => hn ⟨t, ht, heq⟩
    have hterms : ∀ t ∈ terms, t.header ≠ n := by
      intro t ht heq
      have hmap : t.header ∈ ts.map (·.header) := hheaders ▸ List.mem_map_of_mem ht
      obtain ⟨u, hu, hut⟩ := List.mem_map.mp hmap
      exact hts u hu (hut.trans heq)
    rw [coefOf_eq_zero hts, coefOf_eq_zero hterms]
    exact hzero

theorem negCoef?_eq_some {c r : Int} (h : negCoef? c = some r) : r = -c := by
  obtain ⟨-, heq⟩ := Option.ite_none_left_eq_some.mp h
  exact (Option.some.inj heq).symm

theorem coefOf_negated (hs : Sorted L terms)
    (h : terms.mapM (fun t => (negCoef? t.coef).map (Term.mk · t.header)) = some ts) (n : Nat) :
    coefOf ts n = -coefOf terms n :=
  coefOf_mapM (R := fun c r => r = -c) rfl (fun _ _ => negCoef?_eq_some) hs h n

end Term

namespace Symbolic

variable {L : LoopForest} {P Q : Nat → Prop} {a b v : Symbolic} {k : UInt32} {terms : List Term}

theorem Proper.ne_bottom (h : v.Proper L P) : v ≠ .bottom := by
  rintro rfl
  cases h

theorem Proper.mono (h : v.Proper L P)
    (hPQ : ∀ e t, v = .affine e → t ∈ e.terms → P t.header → Q t.header) : v.Proper L Q := by
  cases h with
  | top => exact .top
  | affine h => exact .affine (h.mono fun t ht => hPQ _ t rfl ht)

theorem proper_const : (const k).Proper L P :=
  .affine ⟨.nil, fun t ht => (by cases ht), Nat.zero_le _⟩

theorem proper_ofTerms (hs : Term.Sorted L terms) (ht : ∀ t ∈ terms, t.Proper P) :
    (ofTerms terms k).Proper L P := by
  unfold ofTerms
  split
  · exact .top
  · rename_i hlength
    exact .affine ⟨hs, ht, Nat.le_of_not_lt hlength⟩

theorem proper_ofTerms? {terms : Option (List Term)}
    (h : ∀ ts, terms = some ts → Term.Sorted L ts ∧ ∀ t ∈ ts, t.Proper P) :
    (ofTerms? terms k).Proper L P := by
  cases terms with
  | none => exact .top
  | some ts => exact proper_ofTerms (h ts rfl).1 (h ts rfl).2

theorem ofTerms?_eq_affine {terms : Option (List Term)} {e : Affine}
    (h : ofTerms? terms k = .affine e) : ∃ ts, terms = some ts ∧ e = ⟨ts, k⟩ := by
  cases terms with
  | none => cases h
  | some ts =>
    simp only [ofTerms?, ofTerms] at h
    split at h
    · cases h
    · cases h
      exact ⟨ts, rfl, rfl⟩

theorem proper_term {coef : Int} {h : Nat} (hge : -(2 ^ 31) ≤ coef)
    (hlt : coef < 2 ^ 31) (hP : P h) : (term coef h).Proper L P := by
  unfold term
  split
  · exact proper_const
  · rename_i hne
    refine .affine ⟨List.pairwise_singleton .., fun t ht => ?_, Nat.le_add_left 1 6⟩
    cases List.mem_singleton.mp ht
    exact ⟨hne, hge, hlt, hP⟩

theorem proper_lift {f : Affine → Affine → Symbolic}
    (hf : ∀ x y : Affine, x.Proper L P → y.Proper L P → (f x y).Proper L P) (ha : a.Proper L P)
    (hb : b.Proper L P) : (lift f a b).Proper L P := by
  cases ha with
  | top => cases hb <;> exact .top
  | affine hx =>
    cases hb with
    | top => exact .top
    | affine hy => exact hf _ _ hx hy

theorem proper_merge {xs ys ts : List Term} (hx : Term.Sorted L xs) (hxp : ∀ t ∈ xs, t.Proper P)
    (hyp : ∀ t ∈ ys, t.Proper P)
    (hz : Term.merge L.compareHeaders Term.addCoef? xs ys = some ts) :
    Term.Sorted L ts ∧ ∀ t ∈ ts, t.Proper P := by
  refine ⟨Term.sorted_merge hx hz, Term.forall_merge hxp hyp (fun c d r h hc hd hr hne => ?_) hz⟩
  have hsmall := Term.add_small ⟨hc.ge, hc.lt⟩ ⟨hd.ge, hd.lt⟩ hr
  exact ⟨hne, hsmall.1, hsmall.2, hc.scope⟩

theorem add_affine {x y : Affine} : add L (.affine x) (.affine y) =
    ofTerms? (Term.merge L.compareHeaders Term.addCoef? x.terms y.terms)
      (x.constant + y.constant) :=
  rfl

theorem proper_add (ha : a.Proper L P) (hb : b.Proper L P) : (add L a b).Proper L P := by
  refine proper_lift (fun x y hx hy => proper_ofTerms? fun ts hts => ?_) ha hb
  exact proper_merge hx.sorted hx.terms hy.terms hts

theorem proper_sub (ha : a.Proper L P) (hb : b.Proper L P) : (sub L a b).Proper L P := by
  refine proper_lift (fun x y hx hy => proper_ofTerms? fun ts hts => ?_) ha hb
  obtain ⟨ys, hys, hts⟩ := Option.bind_eq_some_iff.mp hts
  refine proper_merge hx.sorted hx.terms (fun t ht => ?_) hts
  obtain ⟨u, hu, hheader, hneg⟩ := (Term.mapM_coef hys).2 t ht
  have hu' := hy.terms u hu
  have hne := hu'.nonzero
  have hge := hu'.ge
  have hlt := hu'.lt
  unfold Term.negCoef? at hneg
  split at hneg
  · cases hneg
  · have heq := Option.some.inj hneg
    exact ⟨by omega, by omega, by omega, hheader ▸ hu'.scope⟩

theorem proper_shl (ha : a.Proper L P) (hb : b.Proper L P) : (shl a b).Proper L P := by
  refine proper_lift (fun x y hx hy => ?_) ha hb
  split
  · rename_i hcond
    have hshift : y.constant.toNat < 31 := by
      rw [Bool.and_eq_true, decide_eq_true_eq] at hcond
      exact hcond.2
    refine proper_ofTerms? fun ts hts => ?_
    obtain ⟨hheaders, hmem⟩ := Term.mapM_coef (f := (Term.shiftCoef? · y.constant.toNat)) hts
    refine ⟨Term.sorted_of_headers hx.sorted hheaders, fun t ht => ?_⟩
    obtain ⟨u, hu, hheader, hcoef⟩ := hmem t ht
    obtain ⟨hne, hge, hlt⟩ := Term.shift_small hshift (hx.terms u hu).nonzero hcoef
    exact ⟨hne, hge, hlt, hheader ▸ (hx.terms u hu).scope⟩
  · exact .top

theorem proper_scale {e : Affine} (he : e.Proper L P) : (scale e k).Proper L P := by
  refine proper_ofTerms? fun ts hts => ?_
  obtain ⟨us, hus, rfl⟩ := Option.map_eq_some_iff.mp hts
  obtain ⟨hheaders, hmem⟩ := Term.mapM_coef (f := (Term.mulCoef? · (signed k))) hus
  refine ⟨(Term.sorted_of_headers he.sorted hheaders).filter _, fun t ht => ?_⟩
  obtain ⟨ht, hne⟩ := List.mem_filter.mp ht
  obtain ⟨u, hu, hheader, hcoef⟩ := hmem t ht
  unfold Term.mulCoef? at hcoef
  split at hcoef
  · cases hcoef
  · have heq := Option.some.inj hcoef
    have hge := Int.le_bmod (x := u.coef * signed k) (m := 0x100000000) (by decide)
    have hlt := Int.bmod_lt (x := u.coef * signed k) (m := 0x100000000) (by decide)
    exact ⟨by simpa using hne, by omega, by omega, hheader ▸ (he.terms u hu).scope⟩

theorem proper_mul (ha : a.Proper L P) (hb : b.Proper L P) : (mul a b).Proper L P := by
  refine proper_lift (fun x y hx hy => ?_) ha hb
  split
  · exact proper_scale hx
  · split
    · exact proper_scale hy
    · exact .top

theorem proper_or (ha : a.Proper L P) (hb : b.Proper L P) : (or a b).Proper L P := by
  refine proper_lift (fun x y hx hy => ?_) ha hb
  split
  · exact proper_const
  · exact .top

/-- Replacing a counter by a number takes it out of a value. -/
theorem proper_substitute {h n : Nat} (hv : v.Proper L P) :
    (substitute v h n).Proper L fun m => P m ∧ m ≠ h := by
  cases hv with
  | top => exact .top
  | @affine e he =>
    cases hs : (affine e).substitute h n with
    | top => exact .top
    | bottom => exact absurd hs Affine.substitute_ne_bottom
    | affine e' =>
      rcases Affine.Canonical.substitute_cases hs with ⟨hk, rfl⟩ | ⟨k, d, -, -, rfl⟩
      · have hfree := Affine.Canonical.coefficient?_eq_none.mp hk
        exact .affine (he.mono fun t ht hP => ⟨hP, hfree t ht⟩)
      · refine .affine (he.filter.mono fun t ht hP => ⟨hP, ?_⟩)
        exact bne_iff_ne.mp (List.mem_filter.mp ht).2

/-- Leaving a loop takes its counter out of a value. -/
theorem proper_afterLoop {h : Nat} (hv : v.Proper L P) :
    (afterLoop L h v).Proper L fun n => P n ∧ n ≠ h := by
  cases hv with
  | top => exact .top
  | @affine e he =>
    unfold afterLoop
    split
    · rename_i hnone
      have hfree := Affine.Canonical.coefficient?_eq_none.mp (Option.isNone_iff_eq_none.mp hnone)
      exact .affine (he.mono fun t ht hP => ⟨hP, hfree t ht⟩)
    · split
      · exact proper_substitute (.affine he)
      · exact .top

/-- A join that is an expression has the terms of both sides, and their constant. -/
theorem join_eq_affine {x : Affine} (ha : a.Proper L P) (hb : b.Proper L P)
    (h : join L a b = .affine x) :
    ∃ y z, a = .affine y ∧ b = .affine z ∧ y.Part x ∧ z.Part x := by
  unfold join at h
  split at h
  · rename_i hab
    subst hab
    exact ⟨x, x, h, h, .refl, .refl⟩
  · cases ha with
    | top => cases hb <;> cases h
    | @affine y hy =>
      cases hb with
      | top => cases h
      | @affine z hz =>
        refine ⟨y, z, rfl, rfl, ?_⟩
        simp only [lift] at h
        split at h
        · rename_i hconst
          obtain ⟨ts, hts, rfl⟩ := ofTerms?_eq_affine h
          have hsub := Term.subset_merge (fun c d r hr => ?_) (fun t ht =>
            (hz.terms t ht).nonzero) hts
          · exact ⟨⟨rfl, fun t ht => hsub t (.inl ht)⟩, hconst.symm, fun t ht => hsub t (.inr ht)⟩
          · split at hr
            · exact ⟨‹_›, (Option.some.inj hr).symm⟩
            · cases hr
        · cases h

theorem proper_join (ha : a.Proper L P) (hb : b.Proper L P) : (join L a b).Proper L P := by
  unfold join
  split
  · exact ha
  · refine proper_lift (fun x y hx hy => ?_) ha hb
    split
    · refine proper_ofTerms? fun ts hts => ⟨Term.sorted_merge hx.sorted hts, ?_⟩
      refine Term.forall_merge hx.terms hy.terms (fun c d r h hc _ hr _ => ?_) hts
      split at hr
      · exact Option.some.inj hr ▸ hc
      · cases hr
    · exact .top

/-- Two expressions that differ by a constant have the same terms. -/
theorem terms_eq_of_sub {x y : Affine} (hx : x.Proper L P) (hy : y.Proper L P)
    (h : (sub L (.affine x) (.affine y)).constant? = some k) :
    x.terms = y.terms ∧ x.constant = y.constant + k := by
  cases hs : sub L (.affine x) (.affine y) with
  | top =>
    rw [hs] at h
    cases h
  | bottom =>
    rw [hs] at h
    cases h
  | affine d =>
    rw [hs] at h
    obtain ⟨ts, hts, rfl⟩ := ofTerms?_eq_affine hs
    obtain ⟨ys, hys, hts⟩ := Option.bind_eq_some_iff.mp hts
    obtain ⟨hempty, hk⟩ := Option.ite_none_right_eq_some.mp h
    cases hk
    cases List.isEmpty_iff.mp hempty
    refine ⟨Term.eq_of_coefOf hx.sorted hy.sorted (fun t ht => (hx.terms t ht).nonzero)
      (fun t ht => (hy.terms t ht).nonzero) fun n => ?_, ?_⟩
    · have hsum := Term.coefOf_merge (h := n) (fun _ _ _ => Term.addCoef?_eq_some) hts
      rw [Term.coefOf_negated hy.sorted hys, Term.coefOf_nil] at hsum
      omega
    · rw [UInt32.add_comm, UInt32.sub_add_cancel]

/-- A new term is added to an expression that has none for its header. -/
theorem add_term {x p : Affine} {c : Int} {h : Nat} (hp : p.Proper L P) (hc : c ≠ 0)
    (hfree : p.coefficient? h = none) (hadd : add L (.affine p) (term c h) = .affine x) :
    x.constant = p.constant ∧ ⟨c, h⟩ ∈ x.terms ∧ ∀ t ∈ p.terms, t ∈ x.terms := by
  rw [term, if_neg hc, add_affine] at hadd
  obtain ⟨ts, hts, rfl⟩ := ofTerms?_eq_affine hadd
  have hsorted := Term.sorted_merge hp.sorted hts
  have hnone := Affine.Canonical.coefficient?_eq_none.mp hfree
  have hsum : ∀ n, Term.coefOf ts n = Term.coefOf p.terms n + if h = n then c else 0 := by
    intro n
    rw [Term.coefOf_merge (fun _ _ _ => Term.addCoef?_eq_some) hts, Term.coefOf_cons,
      Term.coefOf_nil, Int.add_zero]
  refine ⟨UInt32.add_zero _, ?_, fun t ht => ?_⟩
  · have heq : Term.coefOf ts h = c := by
      rw [hsum, Term.coefOf_eq_zero hnone, if_pos rfl, Int.zero_add]
    have hmem := Term.mem_of_coefOf hsorted (h := h) (by rw [heq]; exact hc)
    rwa [heq] at hmem
  · have heq : Term.coefOf ts t.header = t.coef := by
      rw [hsum, Term.coefOf_of_mem hp.sorted ht, if_neg (hnone t ht).symm, Int.add_zero]
    have hmem := Term.mem_of_coefOf hsorted (h := t.header)
      (by rw [heq]; exact (hp.terms t ht).nonzero)
    rwa [heq] at hmem

theorem part_of_includes {w n : Affine} (h : includes (.affine w) (.affine n) = true) :
    n.Part w := by
  simp only [includes, Bool.or_eq_true, Bool.and_eq_true, beq_iff_eq, affine.injEq] at h
  rcases h with rfl | ⟨⟨-, hconst⟩, hterms⟩
  · exact .refl
  · exact ⟨hconst.symm, fun t ht => List.mem_of_mem_tail (hterms ▸ ht)⟩

/-- The ways in which a value is widened against the one before it. -/
theorem widen_affine {h : Nat} {p n x : Affine} (hp : p.Proper L P) (hn : n.Proper L P)
    (hw : widen L h (.affine p) (.affine n) = .affine x) :
    x = n ∧ p.Part n ∨ n.terms = p.terms ∧ ∃ k, n.constant = p.constant + k ∧
      (⟨signed k, h⟩ ∈ n.terms ∧ x = p ∨
        p.coefficient? h = none ∧ add L (.affine p) (term (signed k) h) = .affine x) := by
  simp only [widen, lift] at hw
  split at hw
  · rename_i hincludes
    cases hw
    exact .inl ⟨rfl, part_of_includes hincludes⟩
  · split at hw
    · cases hw
    · rename_i k hk
      obtain ⟨hterms, hconst⟩ := terms_eq_of_sub hn hp hk
      refine .inr ⟨hterms, k, hconst, ?_⟩
      split at hw
      · rename_i hcoef
        cases hw
        exact .inl ⟨hn.canonical.coefficient?_eq_some.mp hcoef, rfl⟩
      · split at hw
        · cases hw
        · rename_i hnone
          exact .inr ⟨Option.not_isSome_iff_eq_none.mp hnone, hw⟩

theorem proper_widen {h : Nat} (hP : P h) (ha : a.Proper L P) (hb : b.Proper L P) :
    (widen L h a b).Proper L P := by
  refine proper_lift (fun p n hp hn => ?_) ha hb
  split
  · exact .affine hn
  · split
    · exact .top
    · split
      · exact .affine hp
      · split
        · exact .top
        · exact proper_add (.affine hp) (proper_term (signed_ge _) (signed_lt _) hP)

/-- A widened value that is an expression has the value before as a part, and the terms of the value
that came back. The constant of that one lies one iteration ahead, or has not moved. -/
theorem widen_eq_affine {x : Affine} {h : Nat} (ha : a.Proper L P) (hb : b.Proper L P)
    (hw : widen L h a b = .affine x) :
    ∃ p n, a = .affine p ∧ b = .affine n ∧ p.Part x ∧ (∀ t ∈ n.terms, t ∈ x.terms) ∧
      (n.constant = x.constant ∨ ∃ c, ⟨c, h⟩ ∈ x.terms ∧ n.constant = x.constant + word c) := by
  cases ha with
  | top => cases hb <;> cases hw
  | @affine p hp =>
    cases hb with
    | top => cases hw
    | @affine n hn =>
      refine ⟨p, n, rfl, rfl, ?_⟩
      rcases widen_affine hp hn hw with
        ⟨rfl, hpart⟩ | ⟨hterms, k, hconst, ⟨hmem, rfl⟩ | ⟨hnone, hadd⟩⟩
      · exact ⟨hpart, fun t ht => ht, .inl rfl⟩
      · refine ⟨.refl, fun t ht => hterms ▸ ht, .inr ⟨signed k, hterms ▸ hmem, ?_⟩⟩
        rw [word_signed, hconst]
      · by_cases hk : signed k = 0
        · have hzero : k = 0 := by rw [← word_signed k, hk]; rfl
          rw [hk, term, if_pos rfl, const, add_affine] at hadd
          obtain ⟨ts, hts, rfl⟩ := ofTerms?_eq_affine hadd
          cases hts
          refine ⟨⟨(UInt32.add_zero _).symm, fun t ht => ht⟩, fun t ht => hterms ▸ ht, .inl ?_⟩
          rw [hconst, hzero]
        · obtain ⟨hxc, hmem, hsub⟩ := add_term hp hk hnone hadd
          refine ⟨⟨hxc.symm, hsub⟩, fun t ht => hsub t (hterms ▸ ht), .inr ⟨signed k, hmem, ?_⟩⟩
          rw [word_signed, hxc, hconst]

end Symbolic

end MissBound
