import MissBound.Proofs.Symbolic.Arithmetic

/-!
The laws that canonical form buys. Every value built from constants and single terms is unknown or
an expression in canonical form, and two such expressions are equal as soon as they have the same
values. So addition obeys the laws of arithmetic wherever it does not give up. That it gives up in
either order of its operands or in none is seen from the lists of terms.
-/

namespace MissBound

namespace Term

variable {L : LoopForest} {both : Int → Int → Option Int} {t u : Term} {terms xs ys zs : List Term}

theorem addCoef?_comm {a b : Int} : addCoef? a b = addCoef? b a := by
  unfold addCoef?
  rw [Int.add_comm, max_comm, Bool.beq_comm]

/-- Terms of other headers stay where a term is put into a list. -/
theorem mem_insert_iff_of_ne (hz : insert L.compareHeaders both t terms = some zs)
    (hne : u.header ≠ t.header) : u ∈ zs ↔ u ∈ terms := by
  induction terms generalizing zs with
  | nil =>
    cases hz
    simp [ne_of_apply_ne header hne]
  | cons v terms ih =>
    rcases insert_cons hz with ⟨-, rfl⟩ | ⟨heq, r, -, rfl⟩ | ⟨-, ws, hws, rfl⟩
    · simp [ne_of_apply_ne header hne]
    · have hv : u ≠ v := ne_of_apply_ne header (heq ▸ hne)
      have hr : u ≠ ⟨r, v.header⟩ := ne_of_apply_ne header (heq ▸ hne)
      split <;> simp [hv, hr]
    · simp [ih hws]

/-- A term finds its place unless there is one of its header with which it cannot be merged. -/
theorem isSome_insert (hs : Sorted L terms) : (insert L.compareHeaders both t terms).isSome ↔
    ∀ u ∈ terms, u.header = t.header → (both u.coef t.coef).isSome := by
  induction terms with
  | nil => simp [insert]
  | cons u terms ih =>
    obtain ⟨hlt, hs'⟩ := List.pairwise_cons.mp hs
    unfold insert
    rw [List.forall_mem_cons]
    cases hord : L.compareHeaders t.header u.header with
    | lt =>
      refine ⟨fun _ => ⟨fun heq => ?_, fun v hv heq => ?_⟩, fun _ => rfl⟩
      · exact absurd heq.symm (L.ne_of_compareHeaders hord)
      · exact absurd heq.symm (L.ne_of_compareHeaders (L.compareHeaders_trans hord (hlt v hv)))
    | eq =>
      have heq := L.compareHeaders_eq.mp hord
      simp only [Option.isSome_map]
      refine ⟨fun h => ⟨fun _ => h, fun v hv hvt => ?_⟩, fun h => h.1 heq.symm⟩
      exact absurd (hvt.trans heq).symm (L.ne_of_compareHeaders (hlt v hv))
    | gt =>
      have hne := L.ne_of_compareHeaders (L.compareHeaders_gt.mp hord)
      simp only [Option.isSome_map, ih hs']
      exact ⟨fun h => ⟨fun heq => absurd heq hne, h⟩, fun h => h.2⟩

/-- Two lists can be merged unless they have terms of one header that cannot. -/
theorem isSome_merge (hx : Sorted L xs) (hy : Sorted L ys) :
    (merge L.compareHeaders both xs ys).isSome ↔
      ∀ u ∈ ys, ∀ t ∈ xs, t.header = u.header → (both t.coef u.coef).isSome := by
  induction ys generalizing xs with
  | nil => simp [merge]
  | cons u ys ih =>
    obtain ⟨hlt, hy'⟩ := List.pairwise_cons.mp hy
    rw [List.forall_mem_cons, ← isSome_insert hx, merge, List.foldlM_cons]
    cases hws : insert L.compareHeaders both u xs with
    | none => simp
    | some ws =>
      refine (ih (sorted_insert hx hws) hy').trans ?_
      simp only [Option.isSome_some, true_and]
      -- the terms that the rest of the list meets are those that were there before
      have hsame : ∀ v ∈ ys, ∀ t : Term, t.header = v.header → (t ∈ ws ↔ t ∈ xs) := by
        intro v hv t htv
        apply mem_insert_iff_of_ne hws
        rw [htv]
        exact (L.ne_of_compareHeaders (hlt v hv)).symm
      constructor
      · intro h v hv t ht htv
        exact h v hv t ((hsame v hv t htv).mpr ht) htv
      · intro h v hv t ht htv
        exact h v hv t ((hsame v hv t htv).mp ht) htv

end Term

namespace Affine

variable {L : LoopForest} {P : Nat → Prop} {x y : Affine}

/-- The sums of coefficients do not depend on the order, and neither does whether they can be
formed. -/
theorem Proper.merge_comm (hx : x.Proper L P) (hy : y.Proper L P) :
    Term.merge L.compareHeaders Term.addCoef? x.terms y.terms =
      Term.merge L.compareHeaders Term.addCoef? y.terms x.terms := by
  have hiff : (Term.merge L.compareHeaders Term.addCoef? x.terms y.terms).isSome ↔
      (Term.merge L.compareHeaders Term.addCoef? y.terms x.terms).isSome := by
    rw [Term.isSome_merge hx.sorted hy.sorted, Term.isSome_merge hy.sorted hx.sorted]
    constructor
    · intro h t ht u hu heq
      rw [Term.addCoef?_comm]
      exact h u hu t ht heq.symm
    · intro h u hu t ht heq
      rw [Term.addCoef?_comm]
      exact h t ht u hu heq.symm
  cases hxy : Term.merge L.compareHeaders Term.addCoef? x.terms y.terms with
  | none =>
    rw [hxy] at hiff
    exact (Option.not_isSome_iff_eq_none.mp (mt hiff.mpr (by simp))).symm
  | some zs =>
    obtain ⟨ws, hyx⟩ := Option.isSome_iff_exists.mp (hiff.mp (hxy ▸ rfl))
    obtain ⟨hzs, hzp⟩ := Symbolic.proper_merge hx.sorted hx.terms hy.terms hxy
    obtain ⟨hws, hwp⟩ := Symbolic.proper_merge hy.sorted hy.terms hx.terms hyx
    rw [hyx]
    refine congrArg some (Term.eq_of_coefOf hzs hws (fun t ht => (hzp t ht).nonzero)
      (fun t ht => (hwp t ht).nonzero) fun h => ?_)
    rw [Term.coefOf_merge (fun _ _ _ => Term.addCoef?_eq_some) hxy,
      Term.coefOf_merge (fun _ _ _ => Term.addCoef?_eq_some) hyx, Int.add_comm]

end Affine

namespace Symbolic

variable {L : LoopForest} {P : Nat → Prop} {a b c : Symbolic} {h n : Nat}

/-- A sum that is known has known operands. -/
theorem exists_affine_of_add (ha : a.Proper L P) (hb : b.Proper L P) (hne : add L a b ≠ .top) :
    ∃ x y z : Affine, a = .affine x ∧ b = .affine y ∧ add L a b = .affine z ∧ x.Proper L P ∧
      z.Proper L P := by
  have hsum := proper_add ha hb
  cases ha with
  | top => cases hb <;> exact absurd rfl hne
  | @affine x hx =>
    cases hb with
    | top => exact absurd rfl hne
    | @affine y hy =>
      generalize add L (.affine x) (.affine y) = v at hsum hne
      cases hsum with
      | top => exact absurd rfl hne
      | @affine z hz => exact ⟨x, y, z, rfl, rfl, rfl, hx, hz⟩

protected theorem add_comm (ha : a.Proper L P) (hb : b.Proper L P) : add L a b = add L b a := by
  cases ha with
  | top => cases hb <;> rfl
  | affine hx =>
    cases hb with
    | top => rfl
    | affine hy => rw [add_affine, add_affine, hx.merge_comm hy, UInt32.add_comm]

protected theorem add_assoc (ha : a.Proper L P) (hb : b.Proper L P) (hc : c.Proper L P)
    (h₁ : add L (add L a b) c ≠ .top) (h₂ : add L a (add L b c) ≠ .top) :
    add L (add L a b) c = add L a (add L b c) := by
  obtain ⟨s, z, v, hs, rfl, hv, -, hv'⟩ := exists_affine_of_add (proper_add ha hb) hc h₁
  obtain ⟨x, t, w, rfl, ht, hw, -, hw'⟩ := exists_affine_of_add ha (proper_add hb hc) h₂
  obtain ⟨y, z', t', rfl, hz, -⟩ := exists_affine_of_add hb hc (by rw [ht]; nofun)
  cases hz
  rw [hv, hw, hv'.eq_of_eval hw' fun i => ?_]
  rw [hs] at hv
  rw [ht] at hw
  rw [eval_add hv, eval_add hs, eval_add hw, eval_add ht, UInt32.add_assoc]

/-- Subtracting what was added gives the value back, unless one of the operations gives up. -/
protected theorem sub_add_cancel (ha : a.Proper L P) (hb : b.Proper L P) :
    sub L (add L a b) b = a ∨ sub L (add L a b) b = .top := by
  by_cases hne : add L a b = .top
  · rw [hne]
    cases hb <;> exact .inr rfl
  · have hdiff := proper_sub (proper_add ha hb) hb
    obtain ⟨x, y, z, rfl, rfl, hz, hx, -⟩ := exists_affine_of_add ha hb hne
    generalize hr : sub L (add L (.affine x) (.affine y)) (.affine y) = v at hdiff
    cases hdiff with
    | top => exact .inr rfl
    | @affine r hr' =>
      rw [hz] at hr
      refine .inl (congrArg affine (hr'.eq_of_eval hx fun i => ?_))
      rw [eval_sub hr, eval_add hz]
      grind

/-- Values built from constants and single terms by the operations. -/
inductive Formed (L : LoopForest) : Symbolic → Prop
  | const (k : UInt32) : Formed L (const k)
  | term {coef : Int} (h : Nat) : -(2 ^ 31) ≤ coef → coef < 2 ^ 31 → Formed L (term coef h)
  | add {a b : Symbolic} : Formed L a → Formed L b → Formed L (add L a b)
  | sub {a b : Symbolic} : Formed L a → Formed L b → Formed L (sub L a b)
  | shl {a b : Symbolic} : Formed L a → Formed L b → Formed L (shl a b)
  | mul {a b : Symbolic} : Formed L a → Formed L b → Formed L (mul a b)
  | or {a b : Symbolic} : Formed L a → Formed L b → Formed L (or a b)
  | join {a b : Symbolic} : Formed L a → Formed L b → Formed L (join L a b)
  | widen {a b : Symbolic} (h : Nat) : Formed L a → Formed L b → Formed L (widen L h a b)
  | substitute {a : Symbolic} (h n : Nat) : Formed L a → Formed L (substitute a h n)
  | afterLoop {a : Symbolic} (h : Nat) : Formed L a → Formed L (afterLoop L h a)

theorem Formed.proper (ha : a.Formed L) : a.Proper L fun _ => True := by
  induction ha with
  | const k => exact proper_const
  | term h hge hlt => exact proper_term hge hlt trivial
  | add _ _ iha ihb => exact proper_add iha ihb
  | sub _ _ iha ihb => exact proper_sub iha ihb
  | shl _ _ iha ihb => exact proper_shl iha ihb
  | mul _ _ iha ihb => exact proper_mul iha ihb
  | or _ _ iha ihb => exact proper_or iha ihb
  | join _ _ iha ihb => exact proper_join iha ihb
  | widen h _ _ iha ihb => exact proper_widen trivial iha ihb
  | substitute h n _ ih => exact (proper_substitute ih).mono fun _ _ _ _ _ => trivial
  | afterLoop h _ ih => exact (proper_afterLoop ih).mono fun _ _ _ _ _ => trivial

/-- An expression that operations build from constants and single terms has its terms in order,
without zero coefficients and no more than `maxTerms` of them. On such values addition is
commutative, associative where neither sum is unknown, and undone by subtraction unless the
difference is unknown. -/
theorem formed_laws (ha : a.Formed L) (hb : b.Formed L) (hc : c.Formed L) :
    (∀ e, a = .affine e → (e.terms.Pairwise fun t u => L.compareHeaders t.header u.header = .lt) ∧
      (∀ t ∈ e.terms, t.coef ≠ 0) ∧ e.terms.length ≤ maxTerms) ∧
    add L a b = add L b a ∧
    (add L (add L a b) c ≠ .top → add L a (add L b c) ≠ .top →
      add L (add L a b) c = add L a (add L b c)) ∧
    (sub L (add L a b) b = a ∨ sub L (add L a b) b = .top) := by
  refine ⟨?_, Symbolic.add_comm ha.proper hb.proper,
    Symbolic.add_assoc ha.proper hb.proper hc.proper, Symbolic.sub_add_cancel ha.proper hb.proper⟩
  rintro e rfl
  cases ha.proper with
  | affine he => exact ⟨he.sorted, fun t ht => (he.terms t ht).nonzero, he.length_le⟩

/-- Taking a cell back to its row and on again, where a term cancels, and adding a distance. -/
theorem formed_laws_cell :
    (∃ e, (add matrixLoops (add matrixLoops (term 16 1) (term 4 2)) (const 0x1000) = .affine e) ∧
      e.terms = [⟨4, 2⟩, ⟨16, 1⟩] ∧ (∀ t ∈ e.terms, t.coef ≠ 0) ∧ e.terms.length ≤ maxTerms) ∧
    (add matrixLoops (.affine cell) (term (-16) 1) = .affine ⟨[⟨4, 2⟩], 0x1000⟩ ∧
      add matrixLoops (term (-16) 1) (.affine cell) = .affine ⟨[⟨4, 2⟩], 0x1000⟩) ∧
    add matrixLoops (add matrixLoops (.affine cell) (term (-16) 1)) (const 8) =
      add matrixLoops (.affine cell) (add matrixLoops (term (-16) 1) (const 8)) ∧
    sub matrixLoops (add matrixLoops (.affine cell) (term (-16) 1)) (term (-16) 1) =
      .affine cell := by
  have hbuilt : add matrixLoops (add matrixLoops (term 16 1) (term 4 2)) (const 0x1000) =
      .affine cell := by decide +kernel
  have hcell : Formed matrixLoops (.affine cell) := by
    rw [← hbuilt]
    exact .add (.add (.term 1 (by decide) (by decide)) (.term 2 (by decide) (by decide))) (.const _)
  have hback : Formed matrixLoops (term (-16) 1) := .term 1 (by decide) (by decide)
  obtain ⟨hform, hcomm, hassoc, hcancel⟩ := formed_laws hcell hback (.const 8)
  obtain ⟨-, hnonzero, hlength⟩ := hform cell rfl
  have hsum : add matrixLoops (.affine cell) (term (-16) 1) = .affine ⟨[⟨4, 2⟩], 0x1000⟩ := by
    decide +kernel
  exact ⟨⟨cell, hbuilt, rfl, hnonzero, hlength⟩, ⟨hsum, hcomm ▸ hsum⟩,
    hassoc (by decide +kernel) (by decide +kernel), hcancel.resolve_right (by decide +kernel)⟩

end Symbolic

end MissBound
