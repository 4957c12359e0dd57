import MissBound.Lru.SetAnalysis
import MissBound.Proofs.Platform.Geometry
import MissBound.Proofs.Symbolic.Affine

/-!
Where the lines of a state come from: after a use, a join and the departure from a loop every line
is one of the lines before, changed in a way that is told here once for all proofs.
-/

namespace MissBound.SetDomain

variable {D : SetDomain} {l m x y : Line} {ls xs ys : List Line} {v : Symbolic}
  {b header source : Nat}

theorem isFor_iff : l.isFor v = true ↔ l.reference = v ∧ l.generation = 0 := by
  rw [Line.isFor, Bool.and_eq_true, beq_iff_eq, beq_iff_eq]

theorem sameKey_iff : l.sameKey m = true ↔
    l.reference = m.reference ∧ l.generation = m.generation := by
  rw [Line.sameKey, Bool.and_eq_true, beq_iff_eq, beq_iff_eq]

theorem mem_insert : l ∈ D.insert x ls ↔ l = x ∨ l ∈ ls := by
  induction ls with
  | nil => simp [insert]
  | cons m ls ih =>
    unfold insert
    split
    · rw [List.mem_cons]
    · rw [List.mem_cons, ih, List.mem_cons]
      exact or_left_comm

theorem mem_insertJoining (h : l ∈ D.insertJoining x ls) :
    l = x ∨ l ∈ ls ∨ ∃ m ∈ ls, D.compareLines m x = .eq ∧ l = m.join x := by
  induction ls with
  | nil => exact .inl (List.mem_singleton.mp h)
  | cons m ls ih =>
    unfold insertJoining at h
    split at h
    · rcases List.mem_cons.mp h with rfl | h
      · exact .inl rfl
      · exact .inr (.inl h)
    · rename_i heq
      rcases List.mem_cons.mp h with rfl | h
      · exact .inr (.inr ⟨m, List.mem_cons_self, heq, rfl⟩)
      · exact .inr (.inl (List.mem_cons_of_mem _ h))
    · rcases List.mem_cons.mp h with rfl | h
      · exact .inr (.inl List.mem_cons_self)
      · rcases ih h with h | h | ⟨k, hk, heq, rfl⟩
        · exact .inl h
        · exact .inr (.inl (List.mem_cons_of_mem _ h))
        · exact .inr (.inr ⟨k, List.mem_cons_of_mem _ hk, heq, rfl⟩)

/-- The lines after a use of `v`. -/
theorem mem_use (h : l ∈ D.use v b ls) :
    (∃ m ∈ ls, m.isFor v = true ∧ l = D.touched m) ∨
      (∃ m ∈ ls, m.isFor v = false ∧ l = D.aged (D.useAges v ls) m) ∨
      (∀ m ∈ ls, m.isFor v = false) ∧ l = D.fresh v b := by
  have hmoved : l ∈ (ls.map fun m => if m.isFor v then D.touched m else D.aged (D.useAges v ls) m) →
      (∃ m ∈ ls, m.isFor v = true ∧ l = D.touched m) ∨
        (∃ m ∈ ls, m.isFor v = false ∧ l = D.aged (D.useAges v ls) m) := by
    intro h
    obtain ⟨m, hm, rfl⟩ := List.mem_map.mp h
    cases hf : m.isFor v with
    | true => exact .inl ⟨m, hm, hf, by simp⟩
    | false => exact .inr ⟨m, hm, hf, by simp⟩
  unfold use at h
  simp only at h
  split at h
  · exact (hmoved h).imp_right .inl
  · rename_i hany
    rcases mem_insert.mp h with rfl | h
    · refine .inr (.inr ⟨fun m hm => ?_, rfl⟩)
      by_contra hf
      exact hany (List.any_eq_true.mpr ⟨m, hm, by simpa using hf⟩)
    · exact (hmoved h).imp_right .inl

theorem mem_foldl_insert : l ∈ ys.foldl (fun acc y => D.insert (D.oneSided y) acc) xs ↔
    l ∈ xs ∨ ∃ y ∈ ys, l = D.oneSided y := by
  induction ys generalizing xs with
  | nil => simp
  | cons y ys ih =>
    rw [List.foldl_cons, ih, mem_insert]
    constructor
    · rintro ((rfl | h) | ⟨z, hz, rfl⟩)
      · exact .inr ⟨y, List.mem_cons_self, rfl⟩
      · exact .inl h
      · exact .inr ⟨z, List.mem_cons_of_mem _ hz, rfl⟩
    · rintro (h | ⟨z, hz, rfl⟩)
      · exact .inl (.inr h)
      · rcases List.mem_cons.mp hz with rfl | hz
        · exact .inl (.inl rfl)
        · exact .inr ⟨z, hz, rfl⟩

/-- The lines of two paths: those of both, with joined bounds, and those of one. -/
theorem mem_joinLines (h : l ∈ D.joinLines xs ys) :
    (∃ x ∈ xs, ∃ y ∈ ys, y.sameKey x = true ∧ l = x.join y) ∨
      (∃ x ∈ xs, (∀ y ∈ ys, y.sameKey x = false) ∧ l = D.oneSided x) ∨
      ∃ y ∈ ys, (∀ x ∈ xs, x.sameKey y = false) ∧ l = D.oneSided y := by
  rcases mem_foldl_insert.mp h with h | ⟨y, hy, rfl⟩
  · obtain ⟨x, hx, rfl⟩ := List.mem_map.mp h
    cases hf : ys.find? (·.sameKey x) with
    | none =>
      refine .inr (.inl ⟨x, hx, fun y hy => ?_, rfl⟩)
      simpa using List.find?_eq_none.mp hf y hy
    | some y =>
      exact .inl ⟨x, hx, y, List.mem_of_find?_eq_some hf, by simpa using List.find?_some hf, rfl⟩
  · obtain ⟨hy, hnot⟩ := List.mem_filter.mp hy
    refine .inr (.inr ⟨y, hy, fun x hx => ?_, rfl⟩)
    rw [Bool.not_eq_true', List.any_eq_false] at hnot
    simpa using hnot x hx

/-- The bounds of `m` are at least as sharp as those of `l`, a line for the same element. -/
structure Sharper (m l : Line) : Prop where
  reference : m.reference = l.reference
  generation : m.generation = l.generation
  must : m.must ≤ l.must

theorem Sharper.refl : Sharper l l := ⟨rfl, rfl, Nat.le_refl _⟩

theorem Sharper.trans (h₁ : Sharper l m) (h₂ : Sharper m x) : Sharper l x :=
  ⟨h₁.reference.trans h₂.reference, h₁.generation.trans h₂.generation, Nat.le_trans h₁.must h₂.must⟩

theorem sharper_join : Sharper m (m.join x) := ⟨rfl, rfl, Nat.le_max_left _ _⟩

/-- Every line of a state once a loop is left stems from one before. -/
theorem mem_leave (h : l ∈ (D.leave (.known ls) header source).lines) :
    ∃ m ∈ ls, ∃ m', D.leaveLine? header source m = some m' ∧ Sharper m' l := by
  have hfold : ∀ (rest acc : List Line),
      l ∈ rest.foldl (fun acc l => D.insertJoining l acc) acc →
        ∃ m, (m ∈ rest ∨ m ∈ acc) ∧ Sharper m l := by
    intro rest
    induction rest with
    | nil => exact fun acc h => ⟨l, .inr h, .refl⟩
    | cons x rest ih =>
      intro acc h
      obtain ⟨m, hm, hs⟩ := ih _ h
      rcases hm with hm | hm
      · exact ⟨m, .inl (List.mem_cons_of_mem _ hm), hs⟩
      · rcases mem_insertJoining hm with rfl | hm | ⟨k, hk, -, rfl⟩
        · exact ⟨m, .inl List.mem_cons_self, hs⟩
        · exact ⟨m, .inr hm, hs⟩
        · exact ⟨k, .inr hk, sharper_join.trans hs⟩
  obtain ⟨m', hm', hs⟩ := hfold _ _ h
  rcases hm' with hm' | hm'
  · obtain ⟨m, hm, heq⟩ := List.mem_filterMap.mp hm'
    exact ⟨m, hm, m', heq, hs⟩
  · cases hm'

/-- Constants are rounded to their block, which keeps block and set. -/
theorem normalize_affine {e : Affine} {L : LoopForest} (C : e.Canonical L) :
    ∃ e', D.normalize (.affine e) = .affine e' ∧ e'.terms = e.terms ∧ e'.Canonical L ∧
      ∀ c, D.cache.block (e'.eval c).toNat = D.cache.block (e.eval c).toNat := by
  unfold normalize Symbolic.constant?
  by_cases hconst : e.isConstant = true
  · have hterms : e.terms = [] := List.isEmpty_iff.mp hconst
    have hlt : D.cache.round e.constant.toNat < UInt32.size :=
      Nat.lt_of_le_of_lt D.cache.round_le e.constant.toNat_lt
    refine ⟨⟨[], UInt32.ofNat (D.cache.round e.constant.toNat)⟩, ?_, hterms.symm, ⟨.nil, ?_⟩, ?_⟩
    · simp only [hconst, if_true]
      rfl
    · exact fun t ht => (by cases ht)
    · intro c
      rw [Affine.eval_of_isConstant hconst]
      change D.cache.block (UInt32.ofNat (D.cache.round e.constant.toNat)).toNat = _
      rw [UInt32.toNat_ofNat_of_lt' hlt, D.cache.block_round]
  · exact ⟨e, by simp [hconst], rfl, C, fun _ => rfl⟩

/-- What is left of the reference `e` of a line once the loop of `header` is left: its element in
the last iteration. -/
structure LastElement (D : SetDomain) (L : LoopForest) (header : Nat) (e e' : Affine) : Prop where
  canonical : e'.Canonical L
  subset : ∀ t ∈ e'.terms, t ∈ e.terms
  left : e.terms.head?.map (·.header) = some header → ∀ t ∈ e'.terms, t.header ≠ header
  block : ∀ c, (∀ n, (D.loops.boundOf header).exactCount? = some n → c header + 1 = n) →
    D.cache.block (e'.eval c).toNat = D.cache.block (e.eval c).toNat

theorem leaveLine?_spec {e : Affine} {L : LoopForest} (he : m.reference = .affine e)
    (C : e.Canonical L) (h : D.leaveLine? header source m = some l) :
    l.must = m.must ∧ l.generation = m.generation ∧
      l.persistence = Age.Levels.leave m.persistence ∧
      ∃ e', l.reference = .affine e' ∧ LastElement D L header e e' := by
  unfold leaveLine? dependsOn at h
  rw [he] at h
  split at h
  · obtain ⟨n, hn, h⟩ := Option.bind_eq_some_iff.mp h
    obtain ⟨hn, hpos⟩ := Option.filter_eq_some_iff.mp hn
    obtain ⟨element, helem, h⟩ := Option.bind_eq_some_iff.mp h
    obtain ⟨hnot, heq⟩ := Option.ite_none_left_eq_some.mp h
    obtain ⟨-, heq'⟩ := Option.ite_none_left_eq_some.mp helem
    cases heq
    rw [he] at heq'
    refine ⟨rfl, rfl, rfl, ?_⟩
    rw [Bool.or_eq_true, not_or, Bool.not_eq_true] at hnot
    cases element with
    | top => cases hnot.1
    | bottom => exact absurd (Option.some.inj heq') Affine.substitute_ne_bottom
    | affine e' =>
      have hsub := Option.some.inj heq'
      obtain ⟨C', hterms⟩ := C.substitute hsub
      obtain ⟨e'', hnorm, hterms', C'', hblock⟩ := normalize_affine (D := D) C'
      refine ⟨e'', hnorm, C'', fun t ht => (hterms t (hterms' ▸ ht)).1,
        fun _ t ht => (hterms t (hterms' ▸ ht)).2, fun c hc => ?_⟩
      have hlast := hc n hn
      rw [hblock, C.eval_substitute hsub (by omega)]
  · rename_i hfirst
    cases h
    refine ⟨rfl, rfl, rfl, e, rfl, C, fun _ ht => ht, fun heq => ?_, fun _ _ => rfl⟩
    exact absurd (beq_iff_eq.mpr heq) hfirst

end MissBound.SetDomain
