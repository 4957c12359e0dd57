import MissBound.Proofs.Lru.SingleMiss
import MissBound.Proofs.Lru.WellFormed

/-!
How much a state guarantees. At any moment at most `k + 1` lines of a set have an age of at most
`k`, and no state claims more: where a line is used, those that are not older grow older, and where
paths or lines meet, the upper bounds do.
-/

namespace MissBound

namespace SetDomain

variable {D : SetDomain} {v : Symbolic} {x : Line} {ls xs ys : List Line} {s : SetState}
  {header source b k : Nat}

/-- How many lines are at most `k` old for certain. -/
def certain (k : Nat) (ls : List Line) : Nat := ls.countP (·.must ≤ k)

/-- For each age below the associativity no more lines are that young than can be. -/
def Sparse (D : SetDomain) (ls : List Line) : Prop := ∀ k < D.ways, certain k ls ≤ k + 1

theorem certain_le_of_map {f : Line → Line} (h : ∀ l ∈ ls, l.must ≤ (f l).must) :
    certain k (ls.map f) ≤ certain k ls := by
  unfold certain
  rw [List.countP_map]
  refine List.countP_mono_left fun l hl hk => ?_
  simp only [Function.comp_apply, decide_eq_true_eq] at hk ⊢
  exact Nat.le_trans (h l hl) hk

/-- Only one line is for a given value. -/
theorem Ascending.countP_isFor_le (h : D.Ascending ls) : ls.countP (·.isFor v) ≤ 1 := by
  refine countP_le_one (h.imp fun {l m} hlt hl hm => ?_)
  obtain ⟨hr, hg⟩ := isFor_iff.mp hl
  obtain ⟨hr', hg'⟩ := isFor_iff.mp hm
  cases hlt.symm.trans (compareLines_eq.mpr ⟨hr.trans hr'.symm, hg.trans hg'.symm⟩)

theorem perm_insert : (D.insert x ls).Perm (x :: ls) := by
  induction ls with
  | nil => exact .refl _
  | cons m ls ih =>
    unfold insert
    split
    · exact .refl _
    · exact (ih.cons m).trans (.swap x m ls)

/-- Apart from the line that is used there are only lines that grow older. -/
theorem certain_use_le (hasc : D.Ascending ls) : certain k (D.use v b ls) ≤
    certain k ((ls.filter fun l => !l.isFor v).map (D.aged (D.useAges v ls))) + 1 := by
  generalize hused : D.useAges v ls = used
  have hmoved : certain k (ls.map fun l => if l.isFor v then D.touched l else D.aged used l) ≤
      certain k ((ls.filter fun l => !l.isFor v).map (D.aged used)) + ls.countP (·.isFor v) := by
    clear hused hasc
    induction ls with
    | nil => exact Nat.le_refl _
    | cons l ls ih =>
      simp only [certain, List.map_cons, List.countP_cons, List.filter_cons] at ih ⊢
      cases l.isFor v with
      | true =>
        simp only [if_true, Bool.not_true, Bool.false_eq_true, if_false]
        split <;> omega
      | false =>
        simp only [Bool.false_eq_true, if_false, Bool.not_false, if_true, List.map_cons,
          List.countP_cons]
        omega
  unfold use
  rw [hused]
  simp only
  split
  · have hone := hasc.countP_isFor_le (v := v)
    omega
  · rename_i hany
    have hnone : ls.countP (·.isFor v) = 0 := List.countP_eq_zero.mpr fun l hl hfor =>
      hany (List.any_eq_true.mpr ⟨l, hl, hfor⟩)
    rw [certain, perm_insert.countP_eq, List.countP_cons, ← certain]
    split <;> omega

/-- Lines that are aged by the use of another one leave room for it. -/
theorem certain_aged_le (h : D.Sparse ls) (hk : k < D.ways) :
    certain k ((ls.filter fun l => !l.isFor v).map (D.aged (D.useAges v ls))) ≤ k := by
  by_cases hused : k ≤ (D.useAges v ls).1
  · -- whatever is at most `k` old now has grown older
    have hlt : ∀ l : Line, (D.aged (D.useAges v ls) l).must ≤ k → l.must + 1 ≤ k := by
      intro l hl
      change Age.step _ _ _ ≤ k at hl
      unfold Age.step at hl
      split at hl <;> omega
    unfold certain
    rw [List.countP_map, List.countP_filter]
    cases k with
    | zero =>
      rw [List.countP_eq_zero.mpr fun l _ hl => ?_]
      simp only [Function.comp_apply, Bool.and_eq_true, decide_eq_true_eq] at hl
      exact absurd (hlt l hl.1) (Nat.not_succ_le_zero _)
    | succ j =>
      refine Nat.le_trans (List.countP_mono_left fun l _ hl => ?_) (h j (by omega))
      simp only [Function.comp_apply, Bool.and_eq_true, decide_eq_true_eq] at hl ⊢
      exact Nat.le_of_succ_le_succ (hlt l hl.1)
  · -- the line that is used was itself at most `k` old
    have hused : (D.useAges v ls).1 < D.ways := by omega
    obtain ⟨o, ho, hfor, hle⟩ := useAges_fst hused
    have hothers : certain k ((ls.filter fun l => !l.isFor v).map (D.aged (D.useAges v ls))) ≤
        certain k (ls.filter fun l => !l.isFor v) := certain_le_of_map fun _ _ => le_step
    have hown : 0 < certain k (ls.filter (·.isFor v)) :=
      List.countP_pos_iff.mpr ⟨o, List.mem_filter.mpr ⟨ho, hfor⟩, decide_eq_true (by omega)⟩
    have hsplit : certain k ls =
        certain k (ls.filter (·.isFor v)) + certain k (ls.filter fun l => !l.isFor v) := by
      have := List.countP_eq_countP_filter_add ls (fun l => decide (l.must ≤ k)) (·.isFor v)
      simpa [certain] using this
    have := h k hk
    omega

theorem sparse_use (hasc : D.Ascending ls) (h : D.Sparse ls) : D.Sparse (D.use v b ls) :=
  fun _ hk => Nat.le_trans (certain_use_le hasc) (Nat.succ_le_succ (certain_aged_le h hk))

theorem sparse_useUnknown : D.Sparse (D.useUnknown ls) := by
  intro k hk
  rw [certain, useUnknown, List.countP_eq_zero.mpr fun l hl hle => ?_]
  · exact Nat.zero_le _
  · obtain ⟨m, -, rfl⟩ := List.mem_map.mp hl
    exact absurd (of_decide_eq_true hle) (Nat.not_le_of_lt hk)

theorem Sparse.mono (h : D.Sparse ls) (hle : ∀ k < D.ways, certain k xs ≤ certain k ls) :
    D.Sparse xs := fun k hk => Nat.le_trans (hle k hk) (h k hk)

/-- Nothing is certain of a line of one path only. -/
theorem certain_foldl_insert (hk : k < D.ways) :
    certain k (ys.foldl (fun acc y => D.insert (D.oneSided y) acc) xs) = certain k xs := by
  induction ys generalizing xs with
  | nil => rfl
  | cons y ys ih =>
    rw [List.foldl_cons, ih, certain, perm_insert.countP_eq, List.countP_cons, ← certain]
    simp [oneSided, Nat.not_le_of_lt hk]

theorem must_le_joined (h : x.must ≤ D.ways) : x.must ≤ (D.joined ys x).must := by
  unfold joined
  split
  · exact Nat.le_max_left ..
  · exact h

theorem sparse_joinLines (hle : ∀ x ∈ xs, x.must ≤ D.ways) (h : D.Sparse xs) :
    D.Sparse (D.joinLines xs ys) := by
  refine h.mono fun k hk => ?_
  calc certain k (D.joinLines xs ys) = certain k (xs.map (D.joined ys)) := certain_foldl_insert hk
    _ ≤ certain k xs := certain_le_of_map fun x hx => must_le_joined (hle x hx)

theorem certain_insertJoining_le : certain k (D.insertJoining x ls) ≤ certain k (x :: ls) := by
  induction ls with
  | nil => exact Nat.le_refl _
  | cons m ls ih =>
    simp only [certain, List.countP_cons] at ih ⊢
    unfold insertJoining
    split
    · simp only [List.countP_cons]
      exact Nat.le_refl _
    · simp only [List.countP_cons, decide_eq_true_eq]
      have : (m.join x).must = max m.must x.must := rfl
      split <;> split <;> split <;> omega
    · simp only [List.countP_cons]
      omega

/-- Leaving a loop makes no line younger; lines with the same key become one. -/
theorem sparse_leave (h : D.Sparse ls) : D.Sparse (D.leave (.known ls) header source).lines := by
  have hfold : ∀ (rest acc : List Line) (k : Nat),
      certain k (rest.foldl (fun acc l => D.insertJoining l acc) acc) ≤
        certain k rest + certain k acc := by
    intro rest
    induction rest with
    | nil => exact fun acc k => Nat.le_add_left ..
    | cons x rest ih =>
      intro acc k
      have hrest := ih (D.insertJoining x acc) k
      have hinsert : certain k (D.insertJoining x acc) ≤ certain k (x :: acc) :=
        certain_insertJoining_le
      simp only [certain, List.foldl_cons, List.countP_cons] at hrest hinsert ⊢
      omega
  refine h.mono fun k _ => Nat.le_trans (hfold _ [] k) ?_
  unfold certain
  rw [List.countP_filterMap]
  refine List.countP_mono_left fun m _ hm => ?_
  cases hleave : D.leaveLine? header source m with
  | none =>
    rw [hleave] at hm
    cases hm
  | some l =>
    obtain ⟨r, rfl, -⟩ := leaveLine?_eq_some hleave
    rw [hleave] at hm
    exact hm

theorem sparse_nil : D.Sparse [] := fun _ _ => Nat.zero_le _

theorem Reached.sparse (h : D.Reached s) : D.Sparse s.lines := by
  induction h with
  | bottom => exact sparse_nil
  | empty => exact sparse_nil
  | @update s a hs ih =>
    rcases update_cases D a with ⟨-, heq⟩ | ⟨-, -, heq⟩ | ⟨-, -, -, heq⟩ <;> rw [heq]
    · exact ih
    · exact sparse_useUnknown
    · exact sparse_use hs.wellFormed.ascending ih
  | @join s t hs ht ihs iht =>
    cases s with
    | bottom => exact iht
    | known xs =>
      cases t with
      | bottom => exact ihs
      | known ys => exact sparse_joinLines (fun x hx => (hs.wellFormed.lines x hx).must_le) ihs
  | enter _ ih => exact ih.mono fun k _ => certain_le_of_map fun _ _ => Nat.le_refl _
  | @leave s header source _ ih =>
    cases s with
    | bottom => exact sparse_nil
    | known ls => exact sparse_leave ih
  | @back s _ ih =>
    cases s with
    | bottom => exact sparse_nil
    | known ls => exact ih.mono fun k _ => List.filter_sublist.countP_le

/-- Whatever operations have made a state, at most `k + 1` of its lines are at most `k` old for
certain, and no more lines than the set has ways are in it for certain. -/
theorem must_capacity (h : D.Reached s) :
    (∀ k < D.ways, (s.lines.countP fun l => l.must ≤ k) ≤ k + 1) ∧
      (s.lines.countP fun l => Age.isAlive D.ways l.must) ≤ D.ways := by
  have hpos : 0 < D.ways := D.cache.ways_pos
  refine ⟨h.sparse, ?_⟩
  calc (s.lines.countP fun l => Age.isAlive D.ways l.must) ≤ certain (D.ways - 1) s.lines :=
        List.countP_mono_left fun l _ hl => decide_eq_true (by
          have := of_decide_eq_true hl
          omega)
    _ ≤ D.ways - 1 + 1 := h.sparse _ (by omega)
    _ = D.ways := Nat.sub_add_cancel hpos

/-- After uses of three blocks one line is certain to be at most as old as each age allows. -/
theorem must_capacity_full :
    let full := [rowUse, fixedUse 1 0x2000, fixedUse 1 0x1000].foldl rowsDomain.update .empty
    full.lines.map (·.must) = [0, 1, 2] ∧
    (∀ k < 3, (full.lines.countP fun l => l.must ≤ k) ≤ k + 1) ∧
      (full.lines.countP fun l => Age.isAlive 3 l.must) ≤ 3 := by
  exact ⟨by decide +kernel, must_capacity (D := rowsDomain) (Reached.empty.foldl_update _)⟩

end SetDomain

end MissBound
