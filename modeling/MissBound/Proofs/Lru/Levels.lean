import MissBound.Proofs.Lru.Order

/-!
Levels of persistence. Every line has one for each loop around its block and one for the whole
program; where paths meet and where loops are entered or left, the level of a loop that goes on does
not become younger.
-/

namespace MissBound

namespace Age.Levels

variable {as bs : List Nat} {a j : Nat}

theorem length_join : (join as bs).length = max as.length bs.length := by
  fun_induction join as bs with
  | case1 a as b bs ih => simp [ih, Nat.add_max_add_right]
  | case2 bs => simp
  | case3 as => simp

theorem getD_join : (join as bs)[j]?.getD 0 = max (as[j]?.getD 0) (bs[j]?.getD 0) := by
  fun_induction join as bs generalizing j with
  | case1 a as b bs ih =>
    cases j with
    | zero => rfl
    | succ j => exact ih
  | case2 bs => simp
  | case3 as => simp

theorem getD_enter : (enter as)[j]?.getD 0 = as[j]?.getD 0 := by
  unfold enter
  rw [List.getElem?_append]
  split
  · rfl
  · rename_i h
    rw [List.getElem?_eq_none (Nat.le_of_not_lt h)]
    cases j - as.length <;> rfl

theorem length_leave (h : 2 ≤ as.length) : (leave as).length + 1 = as.length := by
  fun_induction leave as with
  | case1 => cases h
  | case2 a => exact absurd h (Nat.lt_irrefl 1)
  | case3 a b => rfl
  | case4 a b c rest ih => simpa using ih (by simp)

/-- Closing the innermost level does not make any other level younger. -/
theorem getD_leave (h : j + 1 < as.length) : as[j]?.getD 0 ≤ (leave as)[j]?.getD 0 := by
  fun_induction leave as generalizing j with
  | case1 => cases h
  | case2 a => exact absurd h (by simp)
  | case3 a b =>
    cases j with
    | zero => exact Nat.le_max_left _ _
    | succ j => exact absurd h (by simp)
  | case4 a b c rest ih =>
    cases j with
    | zero => exact Nat.le_refl _
    | succ j => exact ih (by simpa using h)

end Age.Levels

/-- The bound on the age of a line in the run of the loop at depth `j`. -/
def Line.level (l : Line) (j : Nat) : Nat := l.persistence[j]?.getD 0

/-- A line for the element of `m` that claims no more: it is not younger in the run of the loop at
depth `j`, and its lower bound is not greater. -/
structure Line.Succeeds (j : Nat) (l m : Line) : Prop where
  reference : l.reference = m.reference
  generation : l.generation = m.generation
  level : m.level j ≤ l.level j
  may : l.may ≤ m.may

theorem Line.Succeeds.refl {j : Nat} {l : Line} : l.Succeeds j l :=
  ⟨rfl, rfl, Nat.le_refl _, Nat.le_refl _⟩

theorem Line.Succeeds.trans {j : Nat} {k l m : Line} (h₁ : k.Succeeds j l) (h₂ : l.Succeeds j m) :
    k.Succeeds j m :=
  ⟨h₁.reference.trans h₂.reference, h₁.generation.trans h₂.generation,
    Nat.le_trans h₂.level h₁.level, Nat.le_trans h₁.may h₂.may⟩

theorem Line.level_join {j : Nat} {l m : Line} : (l.join m).level j = max (l.level j) (m.level j) :=
  Age.Levels.getD_join

theorem Line.join_succeeds_left {j : Nat} {l m : Line} : (l.join m).Succeeds j l :=
  ⟨rfl, rfl, Line.level_join ▸ Nat.le_max_left _ _, Nat.min_le_left _ _⟩

theorem Line.join_succeeds_right {j : Nat} {l m : Line} (hr : l.reference = m.reference)
    (hg : l.generation = m.generation) : (l.join m).Succeeds j m :=
  ⟨hr, hg, Line.level_join ▸ Nat.le_max_right _ _, Nat.min_le_right _ _⟩

namespace SetDomain

variable {D : SetDomain} {l m x : Line} {ls xs ys : List Line} {j header source : Nat}

/-- The line put at its place and all lines before have successors. -/
theorem succeeds_insertJoining (h : m = x ∨ m ∈ ls) :
    ∃ l ∈ D.insertJoining x ls, l.Succeeds j m := by
  induction ls with
  | nil => exact ⟨x, List.mem_cons_self, h.resolve_right List.not_mem_nil ▸ .refl⟩
  | cons y ls ih =>
    unfold insertJoining
    split
    · refine ⟨m, ?_, .refl⟩
      exact List.mem_cons.mpr h
    · rename_i heq
      obtain ⟨hr, hg⟩ := compareLines_eq.mp heq
      rcases h with rfl | h
      · exact ⟨y.join m, List.mem_cons_self, Line.join_succeeds_right hr hg⟩
      · rcases List.mem_cons.mp h with rfl | h
        · exact ⟨m.join x, List.mem_cons_self, Line.join_succeeds_left⟩
        · exact ⟨m, List.mem_cons_of_mem _ h, .refl⟩
    · rw [List.mem_cons, or_left_comm] at h
      rcases h with rfl | h
      · exact ⟨m, List.mem_cons_self, .refl⟩
      · obtain ⟨l, hl, hs⟩ := ih h
        exact ⟨l, List.mem_cons_of_mem _ hl, hs⟩

/-- The lines of both paths have successors. -/
theorem succeeds_joinLines (hy : D.Ascending ys) (hm : m ∈ xs ∨ m ∈ ys) :
    ∃ l ∈ D.joinLines xs ys, l.Succeeds j m := by
  have hmem : ∀ x ∈ xs, D.joined ys x ∈ D.joinLines xs ys := fun x hx =>
    mem_foldl_insert.mpr (.inl (List.mem_map.mpr ⟨x, hx, rfl⟩))
  rcases hm with hm | hm
  · refine ⟨_, hmem m hm, ?_⟩
    unfold joined
    split
    · exact Line.join_succeeds_left
    · exact ⟨rfl, rfl, Nat.le_refl _, Nat.le_refl _⟩
  · cases hany : xs.any (·.sameKey m) with
    | false =>
      refine ⟨D.oneSided m, mem_foldl_insert.mpr (.inr ⟨m, ?_, rfl⟩), rfl, rfl, Nat.le_refl _,
        Nat.le_refl _⟩
      exact List.mem_filter.mpr ⟨hm, by rw [hany]; rfl⟩
    | true =>
      obtain ⟨x, hx, hkey⟩ := List.any_eq_true.mp hany
      obtain ⟨hr, hg⟩ := sameKey_iff.mp hkey
      refine ⟨_, hmem x hx, ?_⟩
      unfold joined
      split
      · rename_i y hfind
        have hkey' : y.sameKey x = true := by simpa using List.find?_some hfind
        obtain ⟨hr', hg'⟩ := sameKey_iff.mp hkey'
        cases hy.eq (List.mem_of_find?_eq_some hfind) hm (hr'.trans hr) (hg'.trans hg)
        exact Line.join_succeeds_right hr hg
      · rename_i hfind
        exact absurd (sameKey_iff.mpr ⟨hr.symm, hg.symm⟩) (List.find?_eq_none.mp hfind m hm)

theorem persistence_leaveLine? (h : D.leaveLine? header source m = some l) :
    l.persistence = Age.Levels.leave m.persistence := by
  unfold leaveLine? at h
  split at h
  · obtain ⟨n, -, h⟩ := Option.bind_eq_some_iff.mp h
    obtain ⟨element, -, h⟩ := Option.bind_eq_some_iff.mp h
    cases (Option.ite_none_left_eq_some.mp h).2
    rfl
  · cases h
    rfl

end SetDomain

/-- Every access of the table names its block. -/
def AccessTable.Placed (table : AccessTable) : Prop := ∀ b, ∀ a ∈ table.block b, a.block = b

instance (table : AccessTable) : Decidable table.Placed :=
  decidable_of_iff _ AccessTable.forall_block

/-- The lines stand in order, and each one has a level for each of `depth` loops and one for the
whole program. -/
structure SetState.Tidy (D : SetDomain) (depth : Nat) (s : SetState) : Prop where
  ascending : D.Ascending s.lines
  length : ∀ l ∈ s.lines, l.persistence.length = depth + 1

namespace SetDomain

variable {D : SetDomain} {G : FlowGraph} {table : AccessTable} {s t : SetState} {l m : Line}
  {j n header source : Nat}

theorem tidy_of_lines (h : s.lines = []) : s.Tidy D n := by
  refine ⟨?_, fun l hl => ?_⟩
  · rw [h]
    exact .nil
  · rw [h] at hl
    cases hl

theorem tidy_update {a : DataUse} (hs : s.Tidy D (D.loops.depthAt a.block)) :
    (D.update s a).Tidy D (D.loops.depthAt a.block) := by
  unfold update
  split
  · exact hs
  · split
    · refine ⟨hs.ascending.map fun _ => ⟨rfl, rfl⟩, fun l hl => ?_⟩
      obtain ⟨m, hm, rfl⟩ := List.mem_map.mp hl
      exact (List.length_map _).trans (hs.length m hm)
    · refine ⟨hs.ascending.use, fun l hl => ?_⟩
      rcases mem_use hl with ⟨m, hm, -, rfl⟩ | ⟨m, hm, -, rfl⟩ | ⟨-, rfl⟩
      · exact (List.length_map _).trans (hs.length m hm)
      · exact (List.length_map _).trans (hs.length m hm)
      · exact List.length_replicate

theorem tidy_join (hs : s.Tidy D n) (ht : t.Tidy D n) : (D.join s t).Tidy D n := by
  cases s with
  | bottom => exact ht
  | known xs =>
    cases t with
    | bottom => exact hs
    | known ys =>
      refine ⟨hs.ascending.joinLines ht.ascending, fun l hl => ?_⟩
      rcases mem_joinLines hl with ⟨x, hx, y, hy, -, rfl⟩ | ⟨x, hx, -, rfl⟩ | ⟨y, hy, -, rfl⟩
      · refine Age.Levels.length_join.trans ?_
        rw [hs.length x hx, ht.length y hy, Nat.max_self]
      · exact hs.length x hx
      · exact ht.length y hy

theorem succeeds_join (ht : t.Tidy D n) (hm : m ∈ s.lines ∨ m ∈ t.lines) :
    ∃ l ∈ (D.join s t).lines, l.Succeeds j m := by
  cases s with
  | bottom => exact ⟨m, hm.resolve_left List.not_mem_nil, .refl⟩
  | known xs =>
    cases t with
    | bottom => exact ⟨m, hm.resolve_right List.not_mem_nil, .refl⟩
    | known ys => exact succeeds_joinLines ht.ascending hm

/-- The states of all arrivals are joined, so that every line of each one has a successor. -/
theorem tidy_joinAll {arrivals : List (Arrival SetState)} (h : ∀ a ∈ arrivals, a.state.Tidy D n) :
    (Analysis.joinAll .bottom D.join arrivals).Tidy D n ∧ ∀ a ∈ arrivals, ∀ m ∈ a.state.lines,
      ∃ l ∈ (Analysis.joinAll .bottom D.join arrivals).lines, l.Succeeds j m := by
  have hfold : ∀ (as : List (Arrival SetState)) (s : SetState), (∀ a ∈ as, a.state.Tidy D n) →
      s.Tidy D n → (as.foldl (fun acc a => D.join acc a.state) s).Tidy D n ∧
        ∀ m, (m ∈ s.lines ∨ ∃ a ∈ as, m ∈ a.state.lines) →
          ∃ l ∈ (as.foldl (fun acc a => D.join acc a.state) s).lines, l.Succeeds j m := by
    intro as
    induction as with
    | nil => exact fun s _ hs => ⟨hs, fun m hm => ⟨m, hm.resolve_right (by simp), .refl⟩⟩
    | cons a as ih =>
      intro s has hs
      have ha := has a List.mem_cons_self
      obtain ⟨htidy, hsucc⟩ := ih _ (fun x hx => has x (List.mem_cons_of_mem _ hx))
        (tidy_join hs ha)
      refine ⟨htidy, fun m hm => ?_⟩
      have hnext : (m ∈ s.lines ∨ m ∈ a.state.lines) →
          ∃ l ∈ ((a :: as).foldl (fun acc a => D.join acc a.state) s).lines, l.Succeeds j m := by
        intro hm
        obtain ⟨k, hk, hkm⟩ := succeeds_join (j := j) ha hm
        obtain ⟨l, hl, hlk⟩ := hsucc k (.inl hk)
        exact ⟨l, hl, hlk.trans hkm⟩
      rcases hm with hm | ⟨x, hx, hm⟩
      · exact hnext (.inl hm)
      · rcases List.mem_cons.mp hx with rfl | hx
        · exact hnext (.inr hm)
        · exact hsucc m (.inr ⟨x, hx, hm⟩)
  obtain ⟨htidy, hsucc⟩ := hfold _ .bottom h (tidy_of_lines rfl)
  exact ⟨htidy, fun a ha m hm => hsucc m (.inr ⟨a, ha, hm⟩)⟩

theorem length_leaveLine? (hm : m.persistence.length = n + 2)
    (h : D.leaveLine? header source m = some l) : l.persistence.length = n + 1 := by
  have hleft : (Age.Levels.leave m.persistence).length + 1 = m.persistence.length :=
    Age.Levels.length_leave (by omega)
  rw [persistence_leaveLine? h]
  omega

/-- Lines with equally many levels are put in order one by one. -/
theorem tidy_foldl_insertJoining {ls : List Line} (h : ∀ l ∈ ls, l.persistence.length = n + 1) :
    (SetState.known (ls.foldl (fun acc l => D.insertJoining l acc) [])).Tidy D n := by
  refine List.foldlRecOn (motive := fun acc => (SetState.known acc).Tidy D n) _ _
    (tidy_of_lines rfl) fun acc hacc x hx => ⟨hacc.ascending.insertJoining, fun l hl => ?_⟩
  rcases mem_insertJoining hl with rfl | hl | ⟨k, hk, -, rfl⟩
  · exact h l hx
  · exact hacc.length l hl
  · refine Age.Levels.length_join.trans ?_
    rw [hacc.length k hk, h x hx, Nat.max_self]

theorem tidy_leave (hs : s.Tidy D (n + 1)) : (D.leave s header source).Tidy D n := by
  cases s with
  | bottom => exact tidy_of_lines rfl
  | known ls =>
    apply tidy_foldl_insertJoining
    intro l hl
    obtain ⟨m, hm, hleave⟩ := List.mem_filterMap.mp hl
    exact length_leaveLine? (hs.length m hm) hleave

/-- A line that does not depend on the loop left has a successor. -/
theorem succeeds_leave (hs : s.Tidy D (n + 1)) (hm : m ∈ s.lines) (hj : j ≤ n)
    (hfree : m.reference.firstHeader? ≠ some header) :
    ∃ l ∈ (D.leave s header source).lines, l.Succeeds j m := by
  have hfold : ∀ (rest acc : List Line) (m : Line), (m ∈ rest ∨ m ∈ acc) →
      ∃ l ∈ rest.foldl (fun acc l => D.insertJoining l acc) acc, l.Succeeds j m := by
    intro rest
    induction rest with
    | nil => exact fun acc m hm => ⟨m, hm.resolve_left List.not_mem_nil, .refl⟩
    | cons x rest ih =>
      intro acc m hm
      rw [List.mem_cons, or_assoc, or_left_comm] at hm
      rcases hm with hm | hm
      · exact ih _ m (.inl hm)
      · obtain ⟨k, hk, hkm⟩ := succeeds_insertJoining (D := D) (j := j) hm
        obtain ⟨l, hl, hlk⟩ := ih _ k (.inr hk)
        exact ⟨l, hl, hlk.trans hkm⟩
  cases s with
  | bottom => cases hm
  | known ls =>
    have hleave : D.leaveLine? header source m =
        some { m with persistence := Age.Levels.leave m.persistence } :=
      if_neg fun h => hfree (beq_iff_eq.mp h)
    obtain ⟨l, hl, hlm⟩ := hfold _ [] _ (.inl (List.mem_filterMap.mpr ⟨m, hm, hleave⟩))
    refine ⟨l, hl, hlm.trans ⟨rfl, rfl, Age.Levels.getD_leave ?_, Nat.le_refl _⟩⟩
    have := hs.length m hm
    omega

theorem tidy_foldl_leave (hs : List Nat) : ∀ s : SetState, s.Tidy D (n + hs.length) →
    (hs.foldl (fun s h => D.leave s h source) s).Tidy D n := by
  induction hs with
  | nil => exact fun _ h => h
  | cons h hs ih => exact fun s htidy => ih _ (tidy_leave htidy)

theorem succeeds_foldl_leave (hj : j ≤ n) (hs : List Nat) : ∀ (s : SetState) (m : Line),
    s.Tidy D (n + hs.length) → m ∈ s.lines → (∀ h ∈ hs, m.reference.firstHeader? ≠ some h) →
    ∃ l ∈ (hs.foldl (fun s h => D.leave s h source) s).lines, l.Succeeds j m := by
  induction hs with
  | nil => exact fun s m _ hm _ => ⟨m, hm, .refl⟩
  | cons h hs ih =>
    intro s m htidy hm hfree
    obtain ⟨k, hk, hkm⟩ : ∃ k ∈ (D.leave s h source).lines, k.Succeeds j m :=
      succeeds_leave htidy hm (Nat.le_trans hj (Nat.le_add_right n hs.length))
        (hfree h List.mem_cons_self)
    obtain ⟨l, hl, hlk⟩ := ih _ k (tidy_leave htidy) hk fun h' hh' =>
      hkm.reference ▸ hfree h' (List.mem_cons_of_mem _ hh')
    exact ⟨l, hl, hlk.trans hkm⟩

section
variable {e : Edge Crossing} (hs : s.Tidy D (n + e.label.exited.length))
  (hback : e.label.back = true → e.label.enters = false)
include hs hback

theorem tidy_propagate : (D.propagate e s).Tidy D (n + e.label.enters.toNat) := by
  have hleft : (e.label.exited.foldl (fun s h => D.leave s h e.source) s).Tidy D n :=
    tidy_foldl_leave _ _ hs
  unfold propagate
  simp only
  generalize e.label.exited.foldl (fun s h => D.leave s h e.source) s = t at hleft
  split
  · rename_i h
    rw [hback h]
    cases t with
    | bottom => exact tidy_of_lines rfl
    | known ls =>
      exact ⟨hleft.ascending.sublist List.filter_sublist,
        fun l hl => hleft.length l (List.mem_of_mem_filter hl)⟩
  · split
    · rename_i h
      rw [h]
      refine ⟨hleft.ascending.map fun _ => ⟨rfl, rfl⟩, fun l hl => ?_⟩
      obtain ⟨m, hm, rfl⟩ := List.mem_map.mp hl
      exact List.length_append.trans (congrArg (· + 1) (hleft.length m hm))
    · rename_i h
      rw [Bool.eq_false_iff.mpr h]
      exact hleft

omit hback in
/-- A line of the current generation that depends on no loop left has a successor. -/
theorem succeeds_propagate (hj : j ≤ n) (hm : m ∈ s.lines) (hgen : m.generation < D.ways)
    (hfree : ∀ h ∈ e.label.exited, m.reference.firstHeader? ≠ some h) :
    ∃ l ∈ (D.propagate e s).lines, l.Succeeds j m := by
  obtain ⟨k, hk, hkm⟩ :
      ∃ k ∈ (e.label.exited.foldl (fun s h => D.leave s h e.source) s).lines, k.Succeeds j m :=
    succeeds_foldl_leave hj _ _ _ hs hm hfree
  unfold propagate
  simp only
  generalize e.label.exited.foldl (fun s h => D.leave s h e.source) s = t at hk
  split
  · cases t with
    | bottom => cases hk
    | known ls =>
      refine ⟨k, List.mem_filter.mpr ⟨hk, decide_eq_true ?_⟩, hkm⟩
      exact hkm.generation ▸ hgen
  · split
    · refine ⟨_, List.mem_map.mpr ⟨k, hk, rfl⟩, hkm.reference, hkm.generation, ?_, hkm.may⟩
      exact Nat.le_trans hkm.level (Nat.le_of_eq Age.Levels.getD_enter.symm)
    · exact ⟨k, hk, hkm⟩

end

theorem tidy_foldl_update {b : Nat} {as : List Access} (hb : ∀ a ∈ as, a.block = b)
    (hs : s.Tidy D (D.loops.depthAt b)) :
    (as.foldl (fun s a => D.update s a.toDataUse) s).Tidy D (D.loops.depthAt b) := by
  refine List.foldlRecOn _ _ hs fun s hs a ha => ?_
  have hblock := hb a ha
  subst hblock
  exact tidy_update hs

theorem tidy_transfer {b : Nat} (hplaced : table.Placed) (hs : s.Tidy D (D.loops.depthAt b)) :
    (D.transfer table b s).Tidy D (D.loops.depthAt b) := by
  cases s with
  | bottom => exact hs
  | known ls => exact tidy_foldl_update (hplaced b) hs

theorem tidy_arrivals {onEdges : List SetState} {b : Nat} (h : ∀ (e : Edge Crossing) (i : Nat),
      G.graph.edges[i]? = some e → (onEdges[i]?.getD .bottom).Tidy D (D.loops.depthAt e.target)) :
    ∀ a ∈ Progress.arrivals (D.analysis table) G onEdges b,
      a.state.Tidy D (D.loops.depthAt b) := by
  intro a ha
  rcases List.mem_append.mp ha with ha | ha
  · split at ha
    · cases List.mem_singleton.mp ha
      exact tidy_of_lines rfl
    · cases ha
  · obtain ⟨⟨e, i⟩, hmem, rfl⟩ := List.mem_map.mp ha
    obtain ⟨hget, rfl⟩ := Progress.mem_incoming.mp hmem
    exact h e i hget

/-- The whole analysis keeps states tidy. -/
theorem keeps_tidy (B : G.Built) (hD : D.loops = G.loops) (hplaced : table.Placed) :
    Progress.Keeps (D.analysis table) G (fun b s => s.Tidy D (D.loops.depthAt b))
      fun e s => s.Tidy D (D.loops.depthAt e.target) where
  bottom_input _ := tidy_of_lines rfl
  bottom_edge _ _ := tidy_of_lines rfl
  input _ _ _ _ _ hedges := (tidy_joinAll (j := 0) (tidy_arrivals hedges)).1
  edge e he hsource s hs := by
    have hr := B.mem_order.mp hsource
    obtain ⟨n, hn, htarget, -⟩ := B.depthAt_cross he hr
    have htransfer := tidy_transfer hplaced hs
    rw [hD, hn] at htransfer
    rw [hD, htarget]
    refine tidy_propagate htransfer fun hback => ?_
    rw [Bool.eq_false_iff, ne_eq, B.enters_iff he hr]
    exact fun h => h.2 ((B.back_iff he hr).mp hback)

end SetDomain

end MissBound
