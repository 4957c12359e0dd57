import MissBound.Proofs.Lru.May

/-!
The representation of states. Whatever operations have made a state, its lines stand in ascending
order, each for the current instance of an expression that concerns the set, and their bounds are
ages in the range of the set, the lower one no greater than the upper one.
-/

namespace MissBound

namespace Age

variable {ways used used' age age' n : Nat} {as bs : List Nat}

theorem step_le_ways (h : age ≤ ways) : step ways used age ≤ ways := by
  unfold step
  split <;> omega

/-- A step keeps the order of two ages, if the use is not taken to be younger for the greater
one. -/
theorem step_le_step (hused : used ≤ used') (h : age ≤ age') :
    step ways used age ≤ step ways used' age' := by
  unfold step
  split <;> split <;> omega

theorem Levels.mem_join (h : n ∈ join as bs) : n ∈ as ∨ n ∈ bs := by
  fun_induction join as bs with
  | case1 a as b bs ih =>
    rcases List.mem_cons.mp h with rfl | h
    · rcases max_choice a b with hmax | hmax <;> simp [hmax]
    · exact (ih h).imp (.tail _) (.tail _)
  | case2 bs => exact .inr h
  | case3 as => exact .inl h

theorem Levels.mem_leave (h : n ∈ leave as) : n ∈ as := by
  fun_induction leave as with
  | case1 => exact h
  | case2 a => exact h
  | case3 a b =>
    rw [List.mem_singleton.mp h]
    rcases max_choice a b with hmax | hmax <;> simp [hmax]
  | case4 a b c rest ih =>
    rcases List.mem_cons.mp h with rfl | h
    · exact List.mem_cons_self
    · exact .tail _ (ih h)

end Age

/-- The values that lines of the set may stand for: expressions that concern the set, rounded to
their block if they are constant. -/
structure SetDomain.Admits (D : SetDomain) (v : Symbolic) : Prop where
  expression : ∃ e, v = .affine e
  aligned : ∀ c, v = .const c → D.cache.blockSize ∣ c.toNat
  concerns : D.refs.concerns v D.set = true

structure Line.WellFormed (D : SetDomain) (l : Line) : Prop where
  admits : D.Admits l.reference
  generation : l.generation = 0
  may_le : l.may ≤ l.must
  must_le : l.must ≤ D.ways
  level_le : ∀ n ∈ l.persistence, n ≤ D.ways

structure SetState.WellFormed (D : SetDomain) (s : SetState) : Prop where
  ascending : D.Ascending s.lines
  lines : ∀ l ∈ s.lines, l.WellFormed D

namespace SetDomain

variable {D : SetDomain} {v : Symbolic} {e : Affine} {c : UInt32} {l m : Line}
  {ls xs ys : List Line} {s t : SetState} {a : DataUse} {used : Nat × Nat} {header source b : Nat}

instance : Decidable (D.Admits v) :=
  -- searching among all addresses for the constant would take too long
  decidable_of_iff (v.affine?.any (fun e => v = .affine e) = true ∧
      v.constant?.all (fun c => v = .const c → D.cache.blockSize ∣ c.toNat) = true ∧
      D.refs.concerns v D.set = true) <| by
    simp only [Option.any_eq_true, Option.all_eq_true, decide_eq_true_eq]
    constructor
    · rintro ⟨⟨e, -, he⟩, haligned, hconcerns⟩
      exact ⟨⟨e, he⟩, fun c hc => haligned c (by rw [hc]; rfl) hc, hconcerns⟩
    · rintro ⟨⟨e, he⟩, haligned, hconcerns⟩
      exact ⟨⟨e, by rw [he]; rfl, he⟩, fun c _ hc => haligned c hc, hconcerns⟩

instance : Decidable (l.WellFormed D) :=
  decidable_of_iff (D.Admits l.reference ∧ l.generation = 0 ∧ l.may ≤ l.must ∧ l.must ≤ D.ways ∧
      ∀ n ∈ l.persistence, n ≤ D.ways)
    ⟨fun ⟨h₁, h₂, h₃, h₄, h₅⟩ => ⟨h₁, h₂, h₃, h₄, h₅⟩,
      fun ⟨h₁, h₂, h₃, h₄, h₅⟩ => ⟨h₁, h₂, h₃, h₄, h₅⟩⟩

instance : Decidable (s.WellFormed D) :=
  decidable_of_iff ((s.lines.Pairwise fun l m => D.compareLines l m = .lt) ∧
      ∀ l ∈ s.lines, l.WellFormed D)
    ⟨fun ⟨h₁, h₂⟩ => ⟨h₁, h₂⟩, fun ⟨h₁, h₂⟩ => ⟨h₁, h₂⟩⟩

/-! What lines stand for. -/

theorem normalize_cases (v : Symbolic) :
    (∃ c, v = .const c ∧ D.normalize v = .const (.ofNat (D.cache.round c.toNat))) ∨
      v.isConstant = false ∧ D.normalize v = v := by
  cases hconst : v.isConstant with
  | true =>
    obtain ⟨c, rfl⟩ := Symbolic.isConstant_iff.mp hconst
    exact .inl ⟨c, rfl, rfl⟩
  | false =>
    have hnone : v.constant? = none := by simpa [Symbolic.isConstant] using hconst
    refine .inr ⟨rfl, ?_⟩
    unfold normalize
    rw [hnone]

theorem toNat_round : (UInt32.ofNat (D.cache.round c.toNat)).toNat = D.cache.round c.toNat :=
  UInt32.toNat_ofNat_of_lt' (Nat.lt_of_le_of_lt D.cache.round_le c.toNat_lt)

theorem aligned_normalize (h : D.normalize v = .const c) : D.cache.blockSize ∣ c.toNat := by
  rcases normalize_cases (D := D) v with ⟨d, -, hd⟩ | ⟨hconst, hv⟩
  · cases hd.symm.trans h
    rw [toNat_round, Geometry.round_eq]
    exact Nat.dvd_mul_left ..
  · rw [hv.symm.trans h] at hconst
    cases hconst

theorem concerns_normalize : D.refs.concerns (D.normalize v) D.set = D.refs.concerns v D.set := by
  rcases normalize_cases (D := D) v with ⟨c, rfl, hc⟩ | ⟨-, hv⟩
  · rw [hc, Bool.eq_iff_iff, concerns_const, concerns_const, toNat_round,
      D.cache.set_eq_of_block_eq D.cache.block_round]
  · rw [hv]

theorem normalize_eq_affine (e : Affine) : ∃ e', D.normalize (.affine e) = .affine e' := by
  rcases normalize_cases (D := D) (.affine e) with ⟨c, -, hc⟩ | ⟨-, hv⟩
  · exact ⟨_, hc⟩
  · exact ⟨e, hv⟩

theorem admits_normalize (h : D.refs.concerns (D.normalize (.affine e)) D.set = true) :
    D.Admits (D.normalize (.affine e)) :=
  ⟨normalize_eq_affine e, fun _ => aligned_normalize, h⟩

/-- What a line stands for once a loop is left, and what it keeps. -/
theorem leaveLine?_eq_some (h : D.leaveLine? header source m = some l) :
    ∃ r, l = { m with reference := r, persistence := Age.Levels.leave m.persistence } ∧
      (r = m.reference ∨ ∃ n, r = D.normalize (m.reference.substitute header n) ∧ r ≠ .top ∧
        D.refs.concerns r D.set = true) := by
  unfold leaveLine? at h
  split at h
  · obtain ⟨count, -, h⟩ := Option.bind_eq_some_iff.mp h
    obtain ⟨element, helement, h⟩ := Option.bind_eq_some_iff.mp h
    obtain ⟨-, helement⟩ := Option.ite_none_left_eq_some.mp helement
    obtain ⟨hnot, heq⟩ := Option.ite_none_left_eq_some.mp h
    cases Option.some.inj helement
    cases heq
    simp only [Bool.or_eq_true, not_or, Bool.not_eq_true', Bool.not_eq_false] at hnot
    exact ⟨_, rfl, .inr ⟨_, rfl, fun htop => hnot.1 (by rw [htop]; rfl), hnot.2⟩⟩
  · cases h
    exact ⟨_, rfl, .inl rfl⟩

theorem admits_leaveLine? (hm : D.Admits m.reference) (h : D.leaveLine? header source m = some l) :
    D.Admits l.reference := by
  obtain ⟨r, rfl, rfl | ⟨n, rfl, htop, hconcerns⟩⟩ := leaveLine?_eq_some h
  · exact hm
  · obtain ⟨e, he⟩ := hm.expression
    rw [he] at htop hconcerns ⊢
    change D.Admits (D.normalize _)
    cases hsub : (Symbolic.affine e).substitute header n with
    | top =>
      rw [hsub] at htop
      exact absurd rfl htop
    | bottom => exact absurd hsub Affine.substitute_ne_bottom
    | affine e' =>
      rw [hsub] at hconcerns
      exact admits_normalize hconcerns

/-! The bounds of lines. -/

/-- How a line that may be the used one changes the ages at which it may be. -/
def meetAges (D : SetDomain) (u : Nat × Nat) (l : Line) : Nat × Nat :=
  (if Age.isAlive D.ways l.must && u.1 < D.ways then max u.1 l.must else u.1, min u.2 l.may)

theorem useAges_of_none (h : ls.find? (·.isFor v) = none) : D.useAges v ls =
    (ls.filter fun l => !l.isFor v && D.refs.mayMeet l.reference l.generation v 0).foldl D.meetAges
      (D.ways, D.ways) := by
  unfold useAges
  rw [h]
  rfl

theorem useAges_of_some (h : ls.find? (·.isFor v) = some m) : D.useAges v ls =
    (ls.filter fun l => !l.isFor v && D.refs.mayMeet l.reference l.generation v 0).foldl D.meetAges
      (if Age.isAlive D.ways m.must then m.must else D.ways, m.may) := by
  unfold useAges
  rw [h]
  rfl

/-- The upper bound on the age of a used line is no less than the lower one. -/
theorem useAges_snd_le_fst (h : ∀ l ∈ ls, l.may ≤ l.must ∧ l.must ≤ D.ways) :
    (D.useAges v ls).2 ≤ (D.useAges v ls).1 := by
  have hfold (rest : List Line) (u : Nat × Nat) (hu : u.2 ≤ u.1) :
      (rest.foldl D.meetAges u).2 ≤ (rest.foldl D.meetAges u).1 := by
    refine List.foldlRecOn (motive := fun u : Nat × Nat => u.2 ≤ u.1) _ _ hu fun u hu l _ => ?_
    unfold meetAges
    simp only
    split <;> omega
  cases hfind : ls.find? (·.isFor v) with
  | none =>
    rw [useAges_of_none hfind]
    exact hfold _ _ (Nat.le_refl _)
  | some m =>
    rw [useAges_of_some hfind]
    apply hfold
    have hm := h m (List.mem_of_find?_eq_some hfind)
    simp only
    split <;> omega

end SetDomain

namespace Line.WellFormed

variable {D : SetDomain} {v : Symbolic} {l m : Line} {used : Nat × Nat} {header source b : Nat}

theorem join (hl : l.WellFormed D) (hm : m.WellFormed D) : (l.join m).WellFormed D where
  admits := hl.admits
  generation := hl.generation
  may_le := Nat.le_trans (Nat.min_le_left ..) (Nat.le_trans hl.may_le (Nat.le_max_left ..))
  must_le := Nat.max_le.mpr ⟨hl.must_le, hm.must_le⟩
  level_le n hn := (Age.Levels.mem_join hn).elim (hl.level_le n) (hm.level_le n)

theorem oneSided (hl : l.WellFormed D) : (D.oneSided l).WellFormed D :=
  { hl with may_le := Nat.le_trans hl.may_le hl.must_le, must_le := Nat.le_refl _ }

theorem touched (hl : l.WellFormed D) : (D.touched l).WellFormed D := by
  refine { hl with may_le := Nat.le_refl _, must_le := Nat.zero_le _, level_le := fun n hn => ?_ }
  obtain ⟨k, hk, rfl⟩ := List.mem_map.mp hn
  split
  · exact Nat.zero_le _
  · exact hl.level_le k hk

theorem aged (hl : l.WellFormed D) (hused : used.2 ≤ used.1) : (D.aged used l).WellFormed D := by
  refine { hl with may_le := Age.step_le_step hused hl.may_le,
                   must_le := Age.step_le_ways hl.must_le, level_le := fun n hn => ?_ }
  obtain ⟨k, hk, rfl⟩ := List.mem_map.mp hn
  exact Age.step_le_ways (hl.level_le k hk)

theorem fresh (hv : D.Admits v) : (D.fresh v b).WellFormed D where
  admits := hv
  generation := rfl
  may_le := Nat.le_refl _
  must_le := Nat.zero_le _
  level_le _ hn := List.eq_of_mem_replicate hn ▸ Nat.zero_le _

theorem leave (hm : m.WellFormed D) (h : D.leaveLine? header source m = some l) :
    l.WellFormed D := by
  have hadmits := SetDomain.admits_leaveLine? hm.admits h
  obtain ⟨r, rfl, -⟩ := SetDomain.leaveLine?_eq_some h
  exact { hm with
    admits := hadmits
    level_le := fun n hn => hm.level_le n (Age.Levels.mem_leave hn) }

end Line.WellFormed

namespace SetDomain

variable {D : SetDomain} {v : Symbolic} {l m : Line} {ls xs ys : List Line} {s t : SetState}
  {a : DataUse} {header source b : Nat}

/-- What an access does, whatever the state: nothing, a use of an unknown address, or the use of an
expression that concerns the set. -/
theorem update_cases (D : SetDomain) (a : DataUse) :
    (D.ignores a = true ∧ ∀ s, D.update s a = s) ∨
      (D.ignores a = false ∧ a.reference = .top ∧
        ∀ s, D.update s a = .known (D.useUnknown s.lines)) ∨
      (D.ignores a = false ∧ a.reference ≠ .top ∧ D.Admits (D.normalize a.reference) ∧
        ∀ s, D.update s a = .known (D.use (D.normalize a.reference) a.block s.lines)) := by
  unfold update
  cases hignores : D.ignores a with
  | true => exact .inl ⟨rfl, fun _ => rfl⟩
  | false =>
    have hconcerns := hignores
    simp only [ignores, Bool.or_eq_false_iff, Bool.not_eq_false'] at hconcerns
    obtain ⟨⟨-, hbottom⟩, hconcerns⟩ := hconcerns
    cases href : a.reference with
    | top => exact .inr (.inl ⟨rfl, rfl, fun _ => rfl⟩)
    | bottom =>
      rw [href] at hbottom
      cases hbottom
    | affine e =>
      rw [href, ← concerns_normalize] at hconcerns
      exact .inr (.inr ⟨rfl, Symbolic.noConfusion, admits_normalize hconcerns, fun _ => rfl⟩)

theorem wellFormed_of_lines (h : s.lines = []) : s.WellFormed D := by
  refine ⟨?_, fun l hl => ?_⟩
  · rw [h]
    exact .nil
  · rw [h] at hl
    cases hl

theorem wellFormed_update (hs : s.WellFormed D) : (D.update s a).WellFormed D := by
  rcases update_cases D a with ⟨-, heq⟩ | ⟨-, -, heq⟩ | ⟨-, -, hadmits, heq⟩ <;> rw [heq]
  · exact hs
  · refine ⟨hs.ascending.map fun _ => ⟨rfl, rfl⟩, fun l hl => ?_⟩
    obtain ⟨m, hm, rfl⟩ := List.mem_map.mp hl
    have hm := hs.lines m hm
    refine { hm with may_le := Nat.zero_le _, must_le := Nat.le_refl _, level_le := fun n hn => ?_ }
    obtain ⟨k, hk, rfl⟩ := List.mem_map.mp hn
    exact Age.step_le_ways (hm.level_le k hk)
  · refine ⟨hs.ascending.use, fun l hl => ?_⟩
    rcases mem_use hl with ⟨m, hm, -, rfl⟩ | ⟨m, hm, -, rfl⟩ | ⟨-, rfl⟩
    · exact (hs.lines m hm).touched
    · exact (hs.lines m hm).aged
        (useAges_snd_le_fst fun l hl => ⟨(hs.lines l hl).may_le, (hs.lines l hl).must_le⟩)
    · exact .fresh hadmits

theorem wellFormed_join (hs : s.WellFormed D) (ht : t.WellFormed D) :
    (D.join s t).WellFormed D := by
  cases s with
  | bottom => exact ht
  | known xs =>
    cases t with
    | bottom => exact hs
    | known ys =>
      refine ⟨hs.ascending.joinLines ht.ascending, fun l hl => ?_⟩
      rcases mem_joinLines hl with ⟨x, hx, y, hy, -, rfl⟩ | ⟨x, hx, -, rfl⟩ | ⟨y, hy, -, rfl⟩
      · exact (hs.lines x hx).join (ht.lines y hy)
      · exact (hs.lines x hx).oneSided
      · exact (ht.lines y hy).oneSided

theorem wellFormed_enter (hs : s.WellFormed D) : s.enter.WellFormed D := by
  refine ⟨hs.ascending.map fun _ => ⟨rfl, rfl⟩, fun l hl => ?_⟩
  obtain ⟨m, hm, rfl⟩ := List.mem_map.mp hl
  have hm := hs.lines m hm
  refine { hm with level_le := fun n hn => ?_ }
  rcases List.mem_append.mp hn with hn | hn
  · exact hm.level_le n hn
  · exact List.mem_singleton.mp hn ▸ Nat.zero_le _

theorem wellFormed_leave (hs : s.WellFormed D) : (D.leave s header source).WellFormed D := by
  cases s with
  | bottom => exact hs
  | known ls =>
    -- lines that come to have the same key are joined as they are put in order
    refine List.foldlRecOn (motive := fun acc => (SetState.known acc).WellFormed D) _ _
      (wellFormed_of_lines rfl) fun acc hacc x hx => ⟨hacc.ascending.insertJoining, fun l hl => ?_⟩
    obtain ⟨m, hm, hleave⟩ := List.mem_filterMap.mp hx
    have hx := (hs.lines m hm).leave hleave
    rcases mem_insertJoining hl with rfl | hl | ⟨k, hk, -, rfl⟩
    · exact hx
    · exact hacc.lines l hl
    · exact (hacc.lines k hk).join hx

theorem wellFormed_back (hs : s.WellFormed D) : (D.back s).WellFormed D := by
  cases s with
  | bottom => exact hs
  | known ls =>
    exact ⟨hs.ascending.sublist List.filter_sublist, fun l hl =>
      hs.lines l (List.mem_of_mem_filter hl)⟩

/-- The states that operations make out of the unreached and the empty one. -/
inductive Reached (D : SetDomain) : SetState → Prop
  | bottom : Reached D .bottom
  | empty : Reached D .empty
  | update {s : SetState} (a : DataUse) : Reached D s → Reached D (D.update s a)
  | join {s t : SetState} : Reached D s → Reached D t → Reached D (D.join s t)
  | enter {s : SetState} : Reached D s → Reached D s.enter
  | leave {s : SetState} (header source : Nat) : Reached D s → Reached D (D.leave s header source)
  | back {s : SetState} : Reached D s → Reached D (D.back s)

theorem Reached.wellFormed (h : D.Reached s) : s.WellFormed D := by
  induction h with
  | bottom => exact wellFormed_of_lines rfl
  | empty => exact wellFormed_of_lines rfl
  | update a _ ih => exact wellFormed_update ih
  | join _ _ ihs iht => exact wellFormed_join ihs iht
  | enter _ ih => exact wellFormed_enter ih
  | leave header source _ ih => exact wellFormed_leave ih
  | back _ ih => exact wellFormed_back ih

theorem Reached.foldl_update (h : D.Reached s) (uses : List DataUse) :
    D.Reached (uses.foldl D.update s) :=
  List.foldlRecOn _ _ h fun _ h a _ => h.update a

/-- Whatever operations have made a state, it is well-formed, so that no two lines have the same
key. -/
theorem representation_invariant (h : D.Reached s) :
    s.WellFormed D ∧ (s.lines.map fun l => (l.reference, l.generation)).Nodup := by
  refine ⟨h.wellFormed, List.pairwise_map.mpr (h.wellFormed.ascending.imp fun {l m} hlt hkey => ?_)⟩
  obtain ⟨hr, hg⟩ := Prod.mk.inj hkey
  cases hlt.symm.trans (compareLines_eq.mpr ⟨hr, hg⟩)

/-- The only set of a cache of three lines, in a program with a loop of two iterations. -/
def rowsDomain : SetDomain :=
  ⟨⟨pairGraph.loops, { twoLines with ways := 3, ways_pos := Nat.succ_pos 2,
                                     ways_le := Nat.le_of_ble_eq_true rfl }, 100⟩, 0⟩

/-- The use of the row of the current iteration. -/
def rowUse : DataUse := ⟨1, .affine ⟨[⟨16, 1⟩], 0x1000⟩, true⟩

/-- The use of a fixed address in a block. -/
def fixedUse (block : Nat) (address : UInt32) : DataUse := ⟨block, .const address, true⟩

/-- Where the loop is left, the line of the row comes to stand for the second row, which has a line
already; the two lines are joined. -/
theorem representation_invariant_merged :
    let entered := (rowsDomain.update .empty (fixedUse 0 0x2000)).enter
    let once := rowsDomain.update entered rowUse
    let left := rowsDomain.leave
      (rowsDomain.back (rowsDomain.join (rowsDomain.update once (fixedUse 1 0x1014)) once)) 1 1
    left = .known [⟨.const 0x1010, 0, 3, 0, [1]⟩, ⟨.const 0x2000, 0, 2, 1, [2]⟩] ∧
      left.WellFormed rowsDomain ∧
      (left.lines.map fun l => (l.reference, l.generation)).Nodup := by
  have honce := ((Reached.empty (D := rowsDomain)).update (fixedUse 0 0x2000)).enter.update rowUse
  refine ⟨by decide +kernel, ?_⟩
  exact representation_invariant (((honce.update (fixedUse 1 0x1014)).join honce).back.leave 1 1)

end SetDomain

end MissBound
