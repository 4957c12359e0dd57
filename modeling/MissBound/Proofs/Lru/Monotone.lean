import MissBound.Proofs.Lru.Lattice

/-!
Accesses and the order of states. A state is below another one if their join is the other one: it
knows no less. An access keeps this order if the bound on the age of the line that is used is no
smaller in the upper state. It may be: lines that may be the used one raise the bound only while
they are in the set for certain, so that the upper state, which is certain of fewer lines, may
assume a younger one and age fewer other lines.
-/

namespace MissBound

namespace Age

variable {ways used used' age age' : Nat} {as bs : List Nat}

/-- A step keeps the order of two ages, unless they are equal and only the first one grows. -/
theorem step_le_step_iff (h : age ≤ age') : step ways used age ≤ step ways used' age' ↔
    (age = age' → age < ways → age ≤ used → age ≤ used') := by
  unfold step
  split <;> split <;> omega

theorem step_ways (h : age = ways) : step ways used age = ways := by
  unfold step
  split <;> omega

theorem Levels.join_eq_right : join as bs = bs ↔
    ∀ (j a : Nat), as[j]? = some a → ∃ b, bs[j]? = some b ∧ a ≤ b := by
  fun_induction join as bs with
  | case1 a as b bs ih =>
    rw [List.cons.injEq, ih]
    constructor
    · rintro ⟨hmax, hrest⟩ (_ | j) c hc
      · cases hc
        exact ⟨b, rfl, max_eq_right_iff.mp hmax⟩
      · exact hrest j c hc
    · intro h
      obtain ⟨_, hb, hle⟩ := h 0 a rfl
      cases hb
      exact ⟨Nat.max_eq_right hle, fun j c hc => h (j + 1) c hc⟩
  | case2 bs => simp
  | case3 as hne =>
    cases as with
    | nil => simp
    | cons a as =>
      simp only [reduceCtorEq, false_iff]
      intro h
      obtain ⟨b, hb, -⟩ := h 0 a rfl
      cases hb

end Age

/-- `y` claims no more than `x`, a line for the same element. -/
structure Line.Covers (y x : Line) : Prop where
  must : x.must ≤ y.must
  may : y.may ≤ x.may
  levels : ∀ (j a : Nat), x.persistence[j]? = some a → ∃ b, y.persistence[j]? = some b ∧ a ≤ b

/-- Both lines have the bound `n` on the age, or on the age in the same loop. -/
def Line.Shares (x y : Line) (n : Nat) : Prop :=
  (x.must = n ∧ y.must = n) ∨ ∃ j : Nat, x.persistence[j]? = some n ∧ y.persistence[j]? = some n

theorem Line.Covers.refl {x : Line} : x.Covers x :=
  ⟨Nat.le_refl _, Nat.le_refl _, fun _ a ha => ⟨a, ha, Nat.le_refl a⟩⟩

theorem Line.join_eq_right {x y : Line} (hr : x.reference = y.reference)
    (hg : x.generation = y.generation) : x.join y = y ↔ y.Covers x := by
  obtain ⟨r, g, must, may, levels⟩ := x
  obtain ⟨r', g', must', may', levels'⟩ := y
  cases hr
  cases hg
  simp only [join, Age.Must.join, Age.May.join, mk.injEq, true_and, max_eq_right_iff,
    min_eq_right_iff, Age.Levels.join_eq_right]
  exact ⟨fun h => ⟨h.1, h.2.1, h.2.2⟩, fun h => ⟨h.must, h.may, h.levels⟩⟩

namespace SetDomain

variable {D : SetDomain} {v : Symbolic} {l x y : Line} {ls xs ys rest : List Line} {s t : SetState}
  {o p : Option Line} {a : DataUse} {u used used' : Nat × Nat} {b n : Nat}

/-! The order of states. -/

/-- The join of `s` and `t` is `t`, told by their lines. -/
structure Below (D : SetDomain) (s t : SetState) : Prop where
  covers : ∀ x ∈ s.lines, ∃ y ∈ t.lines, y.reference = x.reference ∧ y.Covers x
  dead : ∀ y ∈ t.lines, (∀ x ∈ s.lines, x.reference ≠ y.reference) → y.must = D.ways

theorem joinLine?_eq_right (ho : ∀ x ∈ o, x.isFor v = true) (hp : ∀ y ∈ p, y.isFor v = true) :
    D.joinLine? o p = p ↔
      (∀ x ∈ o, ∃ y ∈ p, y.Covers x) ∧ (o = none → ∀ y ∈ p, y.must = D.ways) := by
  cases o with
  | none =>
    cases p with
    | none => simp [joinLine?]
    | some y =>
      obtain ⟨r, g, must, may, levels⟩ := y
      simp [joinLine?, oneSided, eq_comm]
  | some x =>
    cases p with
    | none => simp [joinLine?]
    | some y =>
      obtain ⟨hr, hg⟩ := isFor_iff.mp (ho x rfl)
      obtain ⟨hr', hg'⟩ := isFor_iff.mp (hp y rfl)
      simp [joinLine?, Line.join_eq_right (hr.trans hr'.symm) (hg.trans hg'.symm)]

theorem lineFor?_reference (hs : s.WellFormed D) (hl : l ∈ s.lines) (h : l.reference = v) :
    s.lineFor? v = some l :=
  (lineFor?_eq_some hs.ascending).mpr ⟨hl, isFor_iff.mpr ⟨h, (hs.lines l hl).generation⟩⟩

theorem reference_of_lineFor? (h : s.lineFor? v = some l) : l.reference = v :=
  (isFor_iff.mp (isFor_of_lineFor? h)).1

theorem join_eq_right (hx : (SetState.known xs).WellFormed D)
    (hy : (SetState.known ys).WellFormed D) :
    D.join (.known xs) (.known ys) = .known ys ↔ D.Below (.known xs) (.known ys) := by
  have hlines : D.join (.known xs) (.known ys) = .known ys ↔ ∀ v,
      D.joinLine? ((SetState.known xs).lineFor? v) ((SetState.known ys).lineFor? v) =
        (SetState.known ys).lineFor? v := by
    constructor
    · intro h v
      rw [← lineFor?_join hx hy, h]
    · intro h
      refine congrArg SetState.known (lines_ext (wellFormed_join hx hy) hy fun v => ?_)
      rw [lineFor?_join hx hy, h]
  rw [hlines]
  simp only [joinLine?_eq_right (fun _ => isFor_of_lineFor?) (fun _ => isFor_of_lineFor?)]
  constructor
  · intro h
    constructor
    · intro x hmem
      obtain ⟨y, hy', hcovers⟩ := (h x.reference).1 x (lineFor?_reference hx hmem rfl)
      exact ⟨y, mem_of_lineFor? hy', reference_of_lineFor? hy', hcovers⟩
    · intro y hmem hne
      refine (h y.reference).2 ?_ y (lineFor?_reference hy hmem rfl)
      refine lineFor?_eq_none.mpr fun x hx => Bool.eq_false_iff.mpr fun hfor => ?_
      exact hne x hx (isFor_iff.mp hfor).1
  · intro h v
    constructor
    · intro x hfor
      obtain ⟨y, hmem, hr, hcovers⟩ := h.covers x (mem_of_lineFor? hfor)
      exact ⟨y, lineFor?_reference hy hmem (hr.trans (reference_of_lineFor? hfor)), hcovers⟩
    · intro hnone y hfor
      refine h.dead y (mem_of_lineFor? hfor) fun x hmem hr => ?_
      rw [lineFor?_reference hx hmem (hr.trans (reference_of_lineFor? hfor))] at hnone
      cases hnone

/-- An unreached state is below every state. -/
theorem below_of_join (hs : s.WellFormed D) (ht : t.WellFormed D) (h : D.join s t = t) :
    s = .bottom ∨ D.Below s t := by
  cases s with
  | bottom => exact .inl rfl
  | known xs =>
    cases t with
    | bottom => cases h
    | known ys => exact .inr ((join_eq_right hs ht).mp h)

/-! The ages of a used line. -/

theorem foldl_meetAges_fst_le (hu : u.1 < D.ways) : (rest.foldl D.meetAges u).1 ≤ n ↔
    u.1 ≤ n ∧ ∀ l ∈ rest, l.must < D.ways → l.must ≤ n := by
  induction rest generalizing u with
  | nil => simp
  | cons l rest ih =>
    have hnext : (D.meetAges u l).1 = if l.must < D.ways then max u.1 l.must else u.1 := by
      simp [meetAges, Age.isAlive, hu]
    rw [List.foldl_cons, ih (by rw [hnext]; split <;> omega), hnext,
      List.forall_mem_cons, ← and_assoc]
    refine and_congr_left fun _ => ?_
    split
    · rename_i hlt
      simp [hlt]
    · rename_i hge
      simp [hge]

theorem foldl_meetAges_fst_of_ways (hu : u.1 = D.ways) : (rest.foldl D.meetAges u).1 = D.ways := by
  refine List.foldlRecOn (motive := fun u : Nat × Nat => u.1 = D.ways) _ _ hu fun u hu l _ => ?_
  simp [meetAges, hu]

theorem le_foldl_meetAges_snd : n ≤ (rest.foldl D.meetAges u).2 ↔ n ≤ u.2 ∧
    ∀ l ∈ rest, n ≤ l.may := by
  induction rest generalizing u with
  | nil => simp
  | cons l rest ih =>
    rw [List.foldl_cons, ih, List.forall_mem_cons, ← and_assoc]
    refine and_congr_left fun _ => ?_
    exact Nat.le_min

/-- The line is one that may be in the block of `v`. -/
def meets (D : SetDomain) (v : Symbolic) (l : Line) : Bool :=
  D.refs.mayMeet l.reference l.generation v 0

theorem meets_of_isFor (h : l.isFor v = true) : D.meets v l = true := by
  obtain ⟨hr, hg⟩ := isFor_iff.mp h
  unfold meets References.mayMeet
  rw [if_pos ⟨hr, hg⟩]

theorem meets_congr (hr : x.reference = y.reference) (hg : x.generation = y.generation) :
    D.meets v x = D.meets v y := by
  unfold meets
  rw [hr, hg]

/-- If the used line is in the set for certain, the bound on its age is the greatest one among the
lines that it may be and that are in the set for certain, too. -/
theorem useAges_fst_le (hs : s.WellFormed D) (ho : s.lineFor? v = some l) (hlt : l.must < D.ways) :
    (D.useAges v s.lines).1 ≤ n ↔
      ∀ m ∈ s.lines, D.meets v m = true → m.must < D.ways → m.must ≤ n := by
  rw [useAges_of_some ho, foldl_meetAges_fst_le (by simp [Age.isAlive, hlt])]
  simp only [Age.isAlive, hlt, decide_true, if_true]
  constructor
  · rintro ⟨hown, hothers⟩ m hm hmeets hmlt
    cases hfor : m.isFor v with
    | true =>
      cases ((lineFor?_eq_some hs.ascending).mpr ⟨hm, hfor⟩).symm.trans ho
      exact hown
    | false => exact hothers m (List.mem_filter.mpr ⟨hm, by rw [hfor]; exact hmeets⟩) hmlt
  · intro h
    refine ⟨h l (mem_of_lineFor? ho) (meets_of_isFor (isFor_of_lineFor? ho)) hlt,
      fun m hm hmlt => ?_⟩
    obtain ⟨hm, hmeets⟩ := List.mem_filter.mp hm
    exact h m hm (Bool.and_eq_true_iff.mp hmeets).2 hmlt

/-- If it is not, there is no bound on its age. -/
theorem useAges_fst_of_dead (h : ∀ l, s.lineFor? v = some l → D.ways ≤ l.must) :
    (D.useAges v s.lines).1 = D.ways := by
  cases hfind : s.lineFor? v with
  | none =>
    rw [useAges_of_none hfind]
    exact foldl_meetAges_fst_of_ways rfl
  | some l =>
    rw [useAges_of_some hfind]
    apply foldl_meetAges_fst_of_ways
    simp [Age.isAlive, Nat.not_lt_of_le (h l hfind)]

theorem useAges_fst_le_ways (hs : s.WellFormed D) : (D.useAges v s.lines).1 ≤ D.ways := by
  by_cases h : ∃ l, s.lineFor? v = some l ∧ l.must < D.ways
  · obtain ⟨l, ho, hlt⟩ := h
    exact (useAges_fst_le hs ho hlt).mpr fun m _ _ hm => Nat.le_of_lt hm
  · refine Nat.le_of_eq (useAges_fst_of_dead fun l ho => ?_)
    exact Nat.le_of_not_lt fun hlt => h ⟨l, ho, hlt⟩

/-- It is at least as old as the youngest line that it may be. -/
theorem le_useAges_snd (hs : s.WellFormed D) : n ≤ (D.useAges v s.lines).2 ↔
    n ≤ D.ways ∧ ∀ m ∈ s.lines, D.meets v m = true → n ≤ m.may := by
  have hothers : (∀ m ∈ s.lines.filter fun m => !m.isFor v && D.meets v m, n ≤ m.may) ↔
      ∀ m ∈ s.lines, D.meets v m = true → m.isFor v = false → n ≤ m.may := by
    simp only [List.mem_filter, Bool.and_eq_true, Bool.not_eq_true', and_imp]
    exact ⟨fun h m hm h₁ h₂ => h m hm h₂ h₁, fun h m hm h₁ h₂ => h m hm h₂ h₁⟩
  cases hfind : s.lineFor? v with
  | none =>
    rw [useAges_of_none hfind, le_foldl_meetAges_snd]
    refine and_congr_right fun _ => hothers.trans ?_
    have hnone := lineFor?_eq_none.mp hfind
    exact ⟨fun h m hm hmeets => h m hm hmeets (hnone m hm), fun h m hm hmeets _ => h m hm hmeets⟩
  | some l =>
    rw [useAges_of_some hfind, le_foldl_meetAges_snd]
    have hl := mem_of_lineFor? hfind
    have hwf := hs.lines l hl
    constructor
    · rintro ⟨hown, h⟩
      refine ⟨Nat.le_trans hown (Nat.le_trans hwf.may_le hwf.must_le), fun m hm hmeets => ?_⟩
      cases hfor : m.isFor v with
      | true =>
        cases ((lineFor?_eq_some hs.ascending).mpr ⟨hm, hfor⟩).symm.trans hfind
        exact hown
      | false => exact hothers.mp h m hm hmeets hfor
    · rintro ⟨-, h⟩
      exact ⟨h l hl (meets_of_isFor (isFor_of_lineFor? hfind)),
        hothers.mpr fun m hm hmeets _ => h m hm hmeets⟩

/-! Accesses. -/

/-- The lower bound on the age of the used line is no greater in the upper state. -/
theorem Below.useAges_snd_le (h : D.Below s t) (hs : s.WellFormed D) (ht : t.WellFormed D) :
    (D.useAges v t.lines).2 ≤ (D.useAges v s.lines).2 := by
  obtain ⟨hways, hle⟩ := (le_useAges_snd ht).mp (Nat.le_refl (D.useAges v t.lines).2)
  refine (le_useAges_snd hs).mpr ⟨hways, fun x hx hmeets => ?_⟩
  obtain ⟨y, hy, hr, hcovers⟩ := h.covers x hx
  have hg := (ht.lines y hy).generation.trans (hs.lines x hx).generation.symm
  exact Nat.le_trans (hle y hy ((meets_congr hr hg).trans hmeets)) hcovers.may

/-- The lines that may be in the block of `v` are in the set for certain in `t` if they are in
`s`. -/
def Keeps (D : SetDomain) (v : Symbolic) (s t : SetState) : Prop :=
  ∀ x ∈ s.lines, ∀ y ∈ t.lines, x.reference = y.reference → x.reference ≠ v → D.meets v x = true →
    x.must < D.ways → y.must < D.ways

instance : Decidable (D.Keeps v s t) :=
  inferInstanceAs (Decidable (∀ x ∈ s.lines, ∀ y ∈ t.lines, _))

/-- If no line that the used one may be is lost, the upper bound on its age is no smaller in the
upper state. -/
theorem Below.useAges_fst_le (h : D.Below s t) (hs : s.WellFormed D) (ht : t.WellFormed D)
    (hkept : D.Keeps v s t) : (D.useAges v s.lines).1 ≤ (D.useAges v t.lines).1 := by
  by_cases halive : ∃ y, t.lineFor? v = some y ∧ y.must < D.ways
  · obtain ⟨y, hy, hlt⟩ := halive
    -- a line that is in the set for certain is one of the lower state, too
    obtain ⟨x, hx, hr⟩ : ∃ x ∈ s.lines, x.reference = y.reference := by
      by_contra hnot
      refine Nat.lt_irrefl D.ways ((h.dead y (mem_of_lineFor? hy) fun x hx hr => ?_) ▸ hlt)
      exact hnot ⟨x, hx, hr⟩
    have hxv : x.reference = v := hr.trans (reference_of_lineFor? hy)
    have hxlt : x.must < D.ways := by
      obtain ⟨y', hy', hr', hcovers⟩ := h.covers x hx
      cases (lineFor?_reference ht hy' (hr'.trans hxv)).symm.trans hy
      exact Nat.lt_of_le_of_lt hcovers.must hlt
    refine (SetDomain.useAges_fst_le hs (lineFor?_reference hs hx hxv) hxlt).mpr ?_
    intro m hm hmeets hmlt
    obtain ⟨m', hm', hr', hcovers⟩ := h.covers m hm
    have hg := (ht.lines m' hm').generation.trans (hs.lines m hm).generation.symm
    have hmlt' : m'.must < D.ways := by
      by_cases hmv : m.reference = v
      · cases (lineFor?_reference ht hm' (hr'.trans hmv)).symm.trans hy
        exact hlt
      · exact hkept m hm m' hm' hr'.symm hmv hmeets hmlt
    have hle := (SetDomain.useAges_fst_le ht hy hlt).mp (Nat.le_refl _) m' hm'
      ((meets_congr hr' hg).trans hmeets) hmlt'
    exact Nat.le_trans hcovers.must hle
  · rw [useAges_fst_of_dead (s := t) fun y hy => Nat.le_of_not_lt fun hlt => halive ⟨y, hy, hlt⟩]
    exact useAges_fst_le_ways hs

theorem covers_touched (h : y.Covers x) : (D.touched y).Covers (D.touched x) := by
  refine ⟨Nat.le_refl _, Nat.le_refl _, fun j c hc => ?_⟩
  obtain ⟨a, ha, rfl⟩ := Option.map_eq_some_iff.mp (List.getElem?_map.symm.trans hc)
  obtain ⟨b, hb, hle⟩ := h.levels j a ha
  refine ⟨_, List.getElem?_map.trans (congrArg _ hb), ?_⟩
  simp only
  split <;> split <;> omega

/-- A line that was used before claims no more than one at its first use, as far as its levels
go. -/
theorem covers_fresh :
    (D.touched y).Covers (D.fresh v b) ↔ D.loops.depthAt b < y.persistence.length := by
  constructor
  · intro h
    obtain ⟨a, ha, -⟩ := h.levels (D.loops.depthAt b) 0
      (List.getElem?_replicate_of_lt (Nat.lt_succ_self _))
    obtain ⟨hlt, -⟩ := List.getElem?_eq_some_iff.mp ha
    simpa [touched, Age.Levels.touch] using hlt
  · intro h
    refine ⟨Nat.le_refl _, Nat.le_refl _, fun j c hc => ?_⟩
    obtain ⟨hj, rfl⟩ := List.getElem?_eq_some_iff.mp hc
    have hlt : j < (D.touched y).persistence.length := by
      simp [fresh, Age.Levels.fresh] at hj
      simp [touched, Age.Levels.touch]
      omega
    refine ⟨_, List.getElem?_eq_getElem hlt, ?_⟩
    simp [fresh, Age.Levels.fresh]

theorem covers_aged (h : y.Covers x) (hmay : used'.2 ≤ used.2) :
    (D.aged used' y).Covers (D.aged used x) ↔
      ∀ n < D.ways, x.Shares y n → n ≤ used.1 → n ≤ used'.1 := by
  constructor
  · rintro hcovers n hn (⟨rfl, hy⟩ | ⟨j, hx, hy⟩) hle
    · exact (Age.step_le_step_iff h.must).mp hcovers.must hy.symm hn hle
    · obtain ⟨c, hc, hstep⟩ := hcovers.levels j _ (List.getElem?_map.trans (congrArg _ hx))
      cases hc.symm.trans (List.getElem?_map.trans (congrArg _ hy))
      exact (Age.step_le_step_iff (Nat.le_refl n)).mp hstep rfl hn hle
  · intro hshared
    refine ⟨?_, Age.step_le_step hmay h.may, fun j c hc => ?_⟩
    · exact (Age.step_le_step_iff h.must).mpr fun heq hlt hle =>
        hshared _ hlt (.inl ⟨rfl, heq.symm⟩) hle
    · obtain ⟨a, ha, rfl⟩ := Option.map_eq_some_iff.mp (List.getElem?_map.symm.trans hc)
      obtain ⟨b, hb, hle⟩ := h.levels j a ha
      refine ⟨_, List.getElem?_map.trans (congrArg _ hb), ?_⟩
      refine (Age.step_le_step_iff hle).mpr fun heq hlt hused => ?_
      cases heq
      exact hshared a hlt (.inr ⟨j, ha, hb⟩) hused

/-- The use of an unknown address keeps the order of states, and leaves nothing certain. -/
theorem below_useUnknown (h : s = .bottom ∨ D.Below s t) :
    D.Below (.known (D.useUnknown s.lines)) (.known (D.useUnknown t.lines)) := by
  constructor
  · intro x' hx'
    obtain ⟨x, hx, rfl⟩ := List.mem_map.mp hx'
    rcases h with rfl | h
    · cases hx
    · obtain ⟨y, hy, hr, hcovers⟩ := h.covers x hx
      refine ⟨_, List.mem_map_of_mem hy, hr, Nat.le_refl _, Nat.le_refl _, fun j c hc => ?_⟩
      obtain ⟨a, ha, rfl⟩ := Option.map_eq_some_iff.mp (List.getElem?_map.symm.trans hc)
      obtain ⟨b, hb, hle⟩ := hcovers.levels j a ha
      exact ⟨_, List.getElem?_map.trans (congrArg _ hb), Age.step_le_step (Nat.le_refl _) hle⟩
  · intro y' hy' _
    obtain ⟨y, -, rfl⟩ := List.mem_map.mp hy'
    rfl

/-- What a use of `v` in `block` needs to keep `s` below `t`. -/
structure Paced (D : SetDomain) (v : Symbolic) (block : Nat) (s t : SetState) : Prop where
  /-- A bound on another line that both states have grows in `t` if it does in `s`. -/
  shared : ∀ x ∈ s.lines, ∀ y ∈ t.lines, x.reference = y.reference → x.reference ≠ v →
    ∀ n < D.ways, x.Shares y n → n ≤ (D.useAges v s.lines).1 → n ≤ (D.useAges v t.lines).1
  /-- If `s` is not reached, no other line of `t` is in the set for certain afterwards. -/
  unreached : s = .bottom → ∀ y ∈ t.lines, y.reference ≠ v →
    (D.aged (D.useAges v t.lines) y).must = D.ways
  /-- A line for `v` that only `t` has knows of all loops around the block. -/
  levels : ∀ y ∈ t.lines, y.reference = v → (∀ x ∈ s.lines, x.reference ≠ v) →
    D.loops.depthAt block < y.persistence.length

theorem mem_use_aged (hl : l ∈ ls) (h : l.reference ≠ v) :
    D.aged (D.useAges v ls) l ∈ D.use v b ls := by
  have hmem := mem_use_of_mem (D := D) (v := v) (b := b) hl
  rwa [if_neg fun hfor => h (isFor_iff.mp hfor).1] at hmem

theorem mem_use_touched (hs : s.WellFormed D) (hl : l ∈ s.lines) (h : l.reference = v) :
    D.touched l ∈ D.use v b s.lines := by
  have hmem := mem_use_of_mem (D := D) (v := v) (b := b) hl
  rwa [if_pos (isFor_iff.mpr ⟨h, (hs.lines l hl).generation⟩)] at hmem

theorem mem_use_fresh (h : ∀ l ∈ ls, l.reference ≠ v) : D.fresh v b ∈ D.use v b ls := by
  have hany : ls.any (·.isFor v) = false :=
    List.any_eq_false.mpr fun l hl hfor => h l hl (isFor_iff.mp hfor).1
  unfold use
  simp only [hany]
  exact mem_insert.mpr (.inl rfl)

/-- The lines after a use of `v` in a well-formed state. -/
theorem mem_use_cases (hs : s.WellFormed D) (h : l ∈ D.use v b s.lines) :
    (∃ m ∈ s.lines, m.reference = v ∧ l = D.touched m) ∨
      (∃ m ∈ s.lines, m.reference ≠ v ∧ l = D.aged (D.useAges v s.lines) m) ∨
      (∀ m ∈ s.lines, m.reference ≠ v) ∧ l = D.fresh v b := by
  have hne : ∀ m ∈ s.lines, m.isFor v = false → m.reference ≠ v := fun m hm hfor hr =>
    Bool.eq_false_iff.mp hfor (isFor_iff.mpr ⟨hr, (hs.lines m hm).generation⟩)
  rcases mem_use h with ⟨m, hm, hfor, rfl⟩ | ⟨m, hm, hfor, rfl⟩ | ⟨hnone, rfl⟩
  · exact .inl ⟨m, hm, (isFor_iff.mp hfor).1, rfl⟩
  · exact .inr (.inl ⟨m, hm, hne m hm hfor, rfl⟩)
  · exact .inr (.inr ⟨fun m hm => hne m hm (hnone m hm), rfl⟩)

theorem line_unique (hs : s.WellFormed D) (hx : x ∈ s.lines) (hy : y ∈ s.lines)
    (h : x.reference = y.reference) : x = y :=
  hs.ascending.eq hx hy h ((hs.lines x hx).generation.trans (hs.lines y hy).generation.symm)

section
variable (hs : s.WellFormed D) (ht : t.WellFormed D) (h : s = .bottom ∨ D.Below s t)
include hs ht h

theorem paced_of_below
    (hbelow : D.Below (.known (D.use v b s.lines)) (.known (D.use v b t.lines))) :
    D.Paced v b s t := by
  refine ⟨fun x hx y hy hr hne => ?_, fun hbottom y hy hne => ?_, fun y hy hv hnone => ?_⟩
  · rcases h with rfl | h
    · cases hx
    · obtain ⟨y', hy', hr', hcovers'⟩ := h.covers x hx
      cases line_unique ht hy' hy (hr'.trans hr)
      refine (covers_aged hcovers' (h.useAges_snd_le hs ht)).mp ?_
      obtain ⟨z, hz, hzr, hcovers⟩ := hbelow.covers _ (mem_use_aged hx hne)
      change z.reference = x.reference at hzr
      rcases mem_use_cases ht hz with ⟨m, -, hm, rfl⟩ | ⟨m, hm, -, rfl⟩ | ⟨-, rfl⟩
      · exact absurd (hzr.symm.trans hm) hne
      · cases line_unique ht hm hy (hzr.trans hr)
        exact hcovers
      · exact absurd hzr.symm hne
  · subst hbottom
    refine hbelow.dead _ (mem_use_aged hy hne) fun x hx => ?_
    rcases mem_use_cases hs hx with ⟨m, hm, -⟩ | ⟨m, hm, -⟩ | ⟨-, rfl⟩
    · cases hm
    · cases hm
    · exact Ne.symm hne
  · obtain ⟨z, hz, hzr, hcovers⟩ := hbelow.covers _ (mem_use_fresh hnone)
    change z.reference = v at hzr
    rcases mem_use_cases ht hz with ⟨m, hm, hmr, rfl⟩ | ⟨m, -, hmr, rfl⟩ | ⟨hnot, -⟩
    · cases line_unique ht hm hy (hmr.trans hv.symm)
      exact covers_fresh.mp hcovers
    · exact absurd hzr hmr
    · exact absurd hv (hnot y hy)

theorem below_of_paced (P : D.Paced v b s t) :
    D.Below (.known (D.use v b s.lines)) (.known (D.use v b t.lines)) := by
  constructor
  · intro x' hx'
    rcases mem_use_cases hs hx' with ⟨x, hx, hr, rfl⟩ | ⟨x, hx, hne, rfl⟩ | ⟨hnone, rfl⟩
    · rcases h with rfl | h
      · cases hx
      · obtain ⟨y, hy, hyr, hcovers⟩ := h.covers x hx
        exact ⟨_, mem_use_touched ht hy (hyr.trans hr), hyr, covers_touched hcovers⟩
    · rcases h with rfl | h
      · cases hx
      · obtain ⟨y, hy, hyr, hcovers⟩ := h.covers x hx
        refine ⟨_, mem_use_aged hy (hyr.trans_ne hne), hyr, ?_⟩
        exact (covers_aged hcovers (h.useAges_snd_le hs ht)).mpr (P.shared x hx y hy hyr.symm hne)
    · by_cases hv : ∃ y ∈ t.lines, y.reference = v
      · obtain ⟨y, hy, hyr⟩ := hv
        exact ⟨_, mem_use_touched ht hy hyr, hyr, covers_fresh.mpr (P.levels y hy hyr hnone)⟩
      · exact ⟨_, mem_use_fresh fun y hy hyr => hv ⟨y, hy, hyr⟩, rfl, .refl⟩
  · intro y' hy' hnot
    -- after the use both states have a line for `v`
    have hv : ∃ x ∈ D.use v b s.lines, x.reference = v := by
      by_cases hv : ∃ x ∈ s.lines, x.reference = v
      · obtain ⟨x, hx, hxr⟩ := hv
        exact ⟨_, mem_use_touched hs hx hxr, hxr⟩
      · exact ⟨_, mem_use_fresh fun x hx hxr => hv ⟨x, hx, hxr⟩, rfl⟩
    obtain ⟨x, hx, hxr⟩ := hv
    rcases mem_use_cases ht hy' with ⟨y, hy, hr, rfl⟩ | ⟨y, hy, hne, rfl⟩ | ⟨-, rfl⟩
    · exact absurd (hxr.trans hr.symm) (hnot x hx)
    · rcases h with rfl | h
      · exact P.unreached rfl y hy hne
      · refine Age.step_ways (h.dead y hy fun x hx hxr => ?_)
        exact hnot _ (mem_use_aged hx (hxr.trans_ne hne)) hxr
    · exact absurd hxr (hnot x hx)

end

theorem Below.paced (h : D.Below s t) (hs : s.WellFormed D) (ht : t.WellFormed D)
    (hreached : s ≠ .bottom) (hlevels : ∀ y ∈ t.lines, D.loops.depthAt b < y.persistence.length)
    (hkept : D.Keeps v s t) : D.Paced v b s t where
  shared _ _ _ _ _ _ _ _ _ hle := Nat.le_trans hle (h.useAges_fst_le hs ht hkept)
  unreached hbottom := absurd hbottom hreached
  levels y hy _ _ := hlevels y hy

/-- An access keeps `s` below `t` exactly if it does nothing, is to an unknown address, or is paced.
It is paced if `s` is reached, lines have a level for each loop around the access, and no line that
may be in its block is in the set for certain in `s` only. -/
theorem update_mono_iff (hs : s.WellFormed D) (ht : t.WellFormed D) (h : D.join s t = t)
    (a : DataUse) :
    (D.join (D.update s a) (D.update t a) = D.update t a ↔
      D.ignores a = true ∨ a.reference = .top ∨ D.Paced (D.normalize a.reference) a.block s t) ∧
    (s ≠ .bottom → (∀ y ∈ t.lines, D.loops.depthAt a.block < y.persistence.length) →
      D.Keeps (D.normalize a.reference) s t →
      D.join (D.update s a) (D.update t a) = D.update t a) := by
  have hbelow := below_of_join hs ht h
  have hs' : (D.update s a).WellFormed D := wellFormed_update hs
  have ht' : (D.update t a).WellFormed D := wellFormed_update ht
  have hiff : D.join (D.update s a) (D.update t a) = D.update t a ↔
      D.ignores a = true ∨ a.reference = .top ∨ D.Paced (D.normalize a.reference) a.block s t := by
    rcases update_cases D a with ⟨hig, heq⟩ | ⟨-, htop, heq⟩ | ⟨hig, htop, -, heq⟩
    · rw [heq, heq]
      exact iff_of_true h (.inl hig)
    · rw [heq] at hs' ht'
      rw [heq, heq]
      exact iff_of_true ((join_eq_right hs' ht').mpr (below_useUnknown hbelow)) (.inr (.inl htop))
    · rw [heq] at hs' ht'
      rw [heq, heq, join_eq_right hs' ht']
      constructor
      · exact fun hused => .inr (.inr (paced_of_below hs ht hbelow hused))
      · rintro (hig' | htop' | hpaced)
        · cases hig.symm.trans hig'
        · exact absurd htop' htop
        · exact below_of_paced hs ht hbelow hpaced
  refine ⟨hiff, fun hreached hlevels hkept => hiff.mpr (.inr (.inr ?_))⟩
  rcases hbelow with hbottom | hbelow
  · exact absurd hbottom hreached
  · exact hbelow.paced hs ht hreached hlevels hkept

/-- The row is in the set for certain in both states, so that the use of a block that may be one of
it ages the other block in both. -/
theorem update_mono_iff_kept :
    let s := [fixedUse 1 0x1000, fixedUse 1 0x2000, rowUse].foldl rowsDomain.update .empty
    let t := rowsDomain.join s
      ([fixedUse 1 0x2000, fixedUse 1 0x1000, rowUse].foldl rowsDomain.update .empty)
    let a := fixedUse 1 0x1004
    rowsDomain.join s t = t ∧ s ≠ t ∧
      rowsDomain.join (rowsDomain.update s a) (rowsDomain.update t a) = rowsDomain.update t a := by
  intro s t a
  have hs : rowsDomain.Reached s := Reached.empty.foldl_update _
  have ht : rowsDomain.Reached t := hs.join (Reached.empty.foldl_update _)
  have hst : rowsDomain.join s t = t := by decide +kernel
  refine ⟨hst, by decide +kernel, ?_⟩
  exact (update_mono_iff hs.wellFormed ht.wellFormed hst a).2 (by decide +kernel)
    (by decide +kernel) (by decide +kernel)

/-- Accesses do not keep the order of all states. First, where `t` has lost the row, the use of a
block that may be one of it ages the block at `0x2000` in `s` only. Second, the use makes a reached
state of an unreached one, which has no line for the other block. Third, a line made outside the
loop lacks the level that the use in the loop gives to a new line. -/
theorem update_not_mono :
    (let s := [rowUse, fixedUse 1 0x2000, fixedUse 1 0x1000].foldl rowsDomain.update .empty
     let t := rowsDomain.join s
        ([fixedUse 1 0x2000, fixedUse 1 0x1000].foldl rowsDomain.update .empty)
     let a := fixedUse 1 0x1000
     s.WellFormed rowsDomain ∧ t.WellFormed rowsDomain ∧
        (∀ l ∈ s.lines ++ t.lines, l.persistence.length = 2) ∧ rowsDomain.join s t = t ∧
        rowsDomain.join (rowsDomain.update s a) (rowsDomain.update t a) ≠ rowsDomain.update t a) ∧
    (let t := rowsDomain.update .empty (fixedUse 0 0x1000)
     let a := fixedUse 0 0x2000
     t.WellFormed rowsDomain ∧ rowsDomain.join .bottom t = t ∧
        rowsDomain.join (rowsDomain.update .bottom a) (rowsDomain.update t a) ≠
          rowsDomain.update t a) ∧
    (let t := rowsDomain.join .empty (rowsDomain.update .empty (fixedUse 0 0x1000))
     let a := fixedUse 1 0x1000
     t.WellFormed rowsDomain ∧ rowsDomain.join .empty t = t ∧
        rowsDomain.join (rowsDomain.update .empty a) (rowsDomain.update t a) ≠
          rowsDomain.update t a) := by
  decide +kernel

end SetDomain

end MissBound
