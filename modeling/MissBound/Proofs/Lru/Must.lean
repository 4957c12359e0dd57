import MissBound.Proofs.Lru.Reference
import MissBound.Proofs.Lru.Scope
import MissBound.Proofs.Program.Execution

/-!
Upper bounds on ages. At every moment of a run the lines of the analysis that may not have been
evicted are in the set, no older than their bounds, so that an access that finds such a line hits.
-/

namespace MissBound

namespace SetDomain

variable {D : SetDomain} {G : FlowGraph} {table : AccessTable} {c : Nat → Nat}
  {S : LruSet D.cache.ways} {s t : SetState} {b k : Nat} {l m : Line} {ls : List Line}
  {v : Symbolic}

/-- The upper bounds of a state hold in a set, at the given counters. -/
def Bounds (D : SetDomain) (c : Nat → Nat) (S : LruSet D.cache.ways) (s : SetState) : Prop :=
  ∀ l ∈ s.lines, ∀ e, l.reference = .affine e → l.must < D.ways →
    D.cache.set (e.eval c).toNat = D.set → S.Holds (D.cache.block (e.eval c).toNat) l.must

/-- The bound on the age of the used line stems from its own line, unless it is no bound. -/
theorem useAges_fst (h : (D.useAges v ls).1 < D.ways) :
    ∃ l ∈ ls, l.isFor v = true ∧ l.must ≤ (D.useAges v ls).1 := by
  have hfold : ∀ (rest : List Line) (u : Nat × Nat),
      (rest.foldl (fun (u : Nat × Nat) l =>
        (if Age.isAlive D.ways l.must && u.1 < D.ways then max u.1 l.must else u.1,
          min u.2 l.may)) u).1 < D.ways → u.1 ≤ (rest.foldl (fun (u : Nat × Nat) l =>
        (if Age.isAlive D.ways l.must && u.1 < D.ways then max u.1 l.must else u.1,
          min u.2 l.may)) u).1 := by
    intro rest
    induction rest with
    | nil => exact fun _ _ => Nat.le_refl _
    | cons l rest ih =>
      intro u h
      refine Nat.le_trans ?_ (ih _ h)
      simp only
      split
      · exact Nat.le_max_left _ _
      · exact Nat.le_refl _
  unfold useAges at h ⊢
  cases hf : ls.find? (·.isFor v) with
  | none =>
    simp only [hf] at h
    exact absurd (Nat.lt_of_le_of_lt (hfold _ _ h) h) (Nat.lt_irrefl _)
  | some l =>
    cases halive : Age.isAlive D.ways l.must with
    | false =>
      simp only [hf, halive, Bool.false_eq_true, if_false] at h
      exact absurd (Nat.lt_of_le_of_lt (hfold _ _ h) h) (Nat.lt_irrefl _)
    | true =>
      simp only [hf, halive, if_true] at h ⊢
      have hfor : l.isFor v = true := by simpa using List.find?_some hf
      exact ⟨l, List.mem_of_find?_eq_some hf, hfor, hfold _ _ h⟩

/-- The bound on the age of a used element of the set. -/
theorem Bounds.holds_useAges {e : Affine} (hs : Bounds D c S s)
    (hset : D.cache.set (e.eval c).toNat = D.set)
    (hused : (D.useAges (.affine e) s.lines).1 < D.ways) :
    S.Holds (D.cache.block (e.eval c).toNat) (D.useAges (.affine e) s.lines).1 := by
  obtain ⟨o, ho, hfor, hle⟩ := useAges_fst hused
  exact (hs o ho e (isFor_iff.mp hfor).1 (Nat.lt_of_le_of_lt hle hused) hset).mono hle

theorem le_step {ways used age : Nat} : age ≤ Age.step ways used age := by
  unfold Age.step
  split <;> omega

theorem update_of_top {a : DataUse} (ha : a.reference = .top) (hcached : a.cached = true) :
    D.update s a = .known (D.useUnknown s.lines) := by
  have hignores : D.ignores a = false := by
    unfold ignores
    rw [ha, hcached]
    rfl
  unfold update
  rw [hignores, ha]
  rfl

/-- What an access to a known reference does: nothing if it does not concern the set. -/
theorem update_of_affine {a : DataUse} {e : Affine} (ha : a.reference = .affine e)
    (hcached : a.cached = true) : D.update s a =
      if D.refs.concerns (.affine e) D.set then
        .known (D.use (D.normalize (.affine e)) a.block s.lines)
      else s := by
  unfold update ignores
  rw [ha, hcached]
  cases D.refs.concerns (.affine e) D.set <;> rfl

section
variable {a : DataUse} {address : Nat} {content : CacheContent D.cache} (hcached : a.cached = true)
  (hs : Bounds D c (content D.set) s)
include hs

/-- A use of an element of the set. -/
theorem bounds_use {e : Affine} {L : LoopForest} (hcan : e.Canonical L)
    (hset : D.cache.set (e.eval c).toNat = D.set) :
    Bounds D c ((content D.set).touch (D.cache.block (e.eval c).toNat))
      (.known (D.use (D.normalize (.affine e)) b s.lines)) := by
  obtain ⟨e', hnorm, -, -, hblock⟩ := normalize_affine (D := D) hcan
  have hself : ((content D.set).touch (D.cache.block (e.eval c).toNat)).Holds
      (D.cache.block (e'.eval c).toNat) 0 := hblock c ▸ LruSet.holds_touch_self D.cache.ways_pos
  have hset' : D.cache.set (e'.eval c).toNat = D.set := by
    rw [Geometry.set, hblock, ← Geometry.set, hset]
  rw [hnorm]
  intro l hl x hx hlt hxs
  rcases mem_use hl with ⟨m, hm, hfor, rfl⟩ | ⟨m, hm, -, rfl⟩ | ⟨-, rfl⟩
  · cases (isFor_iff.mp hfor).1.symm.trans hx
    exact hself
  · have hm' : m.must < D.ways := Nat.lt_of_le_of_lt le_step hlt
    -- the own line of the element bounds its age
    exact (hs m hm x hx hm' hxs).step (hblock c ▸ hs.holds_useAges hset') hlt
  · cases hx
    exact hself

/-- A use of an element that lies in another set. -/
theorem bounds_use_elsewhere {e : Affine} {L : LoopForest} (hcan : e.Canonical L)
    (hset : D.cache.set (e.eval c).toNat ≠ D.set) :
    Bounds D c (content D.set) (.known (D.use (D.normalize (.affine e)) b s.lines)) := by
  obtain ⟨e', hnorm, -, -, hblock⟩ := normalize_affine (D := D) hcan
  have hset' : D.cache.set (e'.eval c).toNat ≠ D.set := by
    rw [Geometry.set, hblock, ← Geometry.set]
    exact hset
  rw [hnorm]
  intro l hl x hx hlt hxs
  rcases mem_use hl with ⟨m, -, hfor, rfl⟩ | ⟨m, hm, -, rfl⟩ | ⟨-, rfl⟩
  · cases (isFor_iff.mp hfor).1.symm.trans hx
    exact absurd hxs hset'
  · exact (hs m hm x hx (Nat.lt_of_le_of_lt le_step hlt) hxs).mono le_step
  · cases hx
    exact absurd hxs hset'

include hcached in
/-- One access keeps the bounds. -/
theorem bounds_update (ha : a.Regular D.loops b) (hc : ∀ h, D.loops.Inside h b → ∀ n,
      D.loops.maxIteration? h = some n → c h < n) (htouch : a.Touches c address) :
    Bounds D c (content.touch address D.set) (D.update s a) := by
  rcases ha with ha | ⟨e, ha, hcan, hnarrow, hin⟩
  · rw [update_of_top ha hcached]
    intro l hl x hx hlt
    obtain ⟨m, -, rfl⟩ := List.mem_map.mp hl
    exact absurd hlt (Nat.lt_irrefl _)
  · obtain rfl : address = (e.eval c).toNat := htouch.eq_eval ha
    rw [update_of_affine ha hcached]
    by_cases hset : D.cache.set (e.eval c).toNat = D.set
    · rw [if_pos (References.concerns_of_set hcan hnarrow (fun t ht => hc _ (hin t ht)) hset),
        ← hset, CacheContent.touch_self, hset]
      exact bounds_use hs hcan hset
    · rw [CacheContent.touch_of_ne _ hset]
      split
      · exact bounds_use_elsewhere hs hcan hset
      · exact hs

end

theorem update_of_uncached {a : DataUse} (h : a.cached = false) : D.update s a = s := by
  unfold update ignores
  rw [h]
  rfl

theorem Sharper.bounds (h : Sharper m l) (hm : m ∈ s.lines) (hs : Bounds D c S s) {e : Affine}
    (he : l.reference = .affine e) (hlt : l.must < D.ways)
    (hset : D.cache.set (e.eval c).toNat = D.set) :
    S.Holds (D.cache.block (e.eval c).toNat) l.must :=
  (hs m hm e (h.reference.trans he) (Nat.lt_of_le_of_lt h.must hlt) hset).mono h.must

/-- Leaving a loop in its last iteration keeps the bounds. -/
theorem bounds_leave {header source : Nat} {P : Nat → Prop} (hscope : s.Scoped D.loops P)
    (hlast : ∀ n, (D.loops.boundOf header).exactCount? = some n → c header + 1 = n)
    (hs : Bounds D c S s) : Bounds D c S (D.leave s header source) := by
  cases s with
  | bottom => exact hs
  | known ls =>
    intro l hl x hx hlt hset
    obtain ⟨m, hm, m', hleave, hsharp⟩ := mem_leave hl
    obtain ⟨e, he, hcan, -⟩ := hscope m hm
    obtain ⟨hmust, -, -, e', he', E⟩ := leaveLine?_spec he hcan hleave
    cases he'.symm.trans (hsharp.reference.trans hx)
    have hle : m.must ≤ l.must := hmust ▸ hsharp.must
    have hblock := E.block c hlast
    rw [Geometry.set, hblock, ← Geometry.set] at hset
    rw [hblock]
    exact (hs m hm e he (Nat.lt_of_le_of_lt hle hlt) hset).mono hle

theorem scoped_leave_true {header source : Nat} (hs : s.Scoped D.loops fun _ => True) :
    (D.leave s header source).Scoped D.loops fun _ => True := by
  cases s with
  | bottom => exact hs
  | known ls =>
    intro l hl
    obtain ⟨m, hm, m', hleave, hsharp⟩ := mem_leave hl
    obtain ⟨e, he, hcan, -⟩ := hs m hm
    obtain ⟨-, -, -, e', he', E⟩ := leaveLine?_spec he hcan hleave
    exact ⟨e', hsharp.reference ▸ he', E.canonical, fun _ _ => trivial⟩

/-- Following an edge keeps the bounds, as the loops that it leaves are in their last iteration. -/
theorem bounds_propagate {e : Edge Crossing} {P : Nat → Prop} (hscope : s.Scoped D.loops P)
    (hlast : ∀ h ∈ e.label.exited, ∀ n, (D.loops.boundOf h).exactCount? = some n → c h + 1 = n)
    (hs : Bounds D c S s) : Bounds D c S (D.propagate e s) := by
  have hfold : ∀ (hs : List Nat) (s : SetState), (∀ h ∈ hs, h ∈ e.label.exited) →
      (s.Scoped D.loops fun _ => True) → Bounds D c S s →
      Bounds D c S (hs.foldl (fun s h => D.leave s h e.source) s) := by
    intro hs
    induction hs with
    | nil => exact fun _ _ _ h => h
    | cons h hs ih =>
      intro s hmem hscope hb
      exact ih _ (fun x hx => hmem x (List.mem_cons_of_mem _ hx)) (scoped_leave_true hscope)
        (bounds_leave hscope (hlast h (hmem h List.mem_cons_self)) hb)
  have hleft := hfold _ _ (fun _ h => h) (hscope.mono fun _ _ => trivial) hs
  unfold propagate
  simp only
  generalize e.label.exited.foldl (fun s h => D.leave s h e.source) s = t at hleft
  split
  · cases t with
    | bottom => exact hleft
    | known ls => exact fun l hl => hleft l (List.mem_of_mem_filter hl)
  · split
    · intro l hl
      obtain ⟨m, hm, rfl⟩ := List.mem_map.mp hl
      exact hleft m hm
    · exact hleft

/-- A line that survives a join stems from both sides. -/
theorem sharper_of_join (hl : l ∈ (D.join s t).lines) (hlt : l.must < D.ways) :
    (s ≠ .bottom → ∃ m ∈ s.lines, Sharper m l) ∧ (t ≠ .bottom → ∃ m ∈ t.lines, Sharper m l) := by
  cases s with
  | bottom => exact ⟨fun h => absurd rfl h, fun _ => ⟨l, hl, .refl⟩⟩
  | known xs =>
    cases t with
    | bottom => exact ⟨fun _ => ⟨l, hl, .refl⟩, fun h => absurd rfl h⟩
    | known ys =>
      rcases mem_joinLines hl with ⟨x, hx, y, hy, hkey, rfl⟩ | ⟨x, hx, -, rfl⟩ | ⟨y, hy, -, rfl⟩
      · obtain ⟨hr, hg⟩ := sameKey_iff.mp hkey
        exact ⟨fun _ => ⟨x, hx, sharper_join⟩, fun _ => ⟨y, hy, hr, hg, Nat.le_max_right _ _⟩⟩
      · exact absurd hlt (Nat.lt_irrefl _)
      · exact absurd hlt (Nat.lt_irrefl _)

theorem join_ne_bottom (h : s ≠ .bottom ∨ t ≠ .bottom) : D.join s t ≠ .bottom := by
  cases s with
  | bottom => exact h.resolve_left fun hs => hs rfl
  | known xs => cases t <;> exact fun h => (by cases h)

/-- A line that survives the join of all arrivals stems from each one that was reached. -/
theorem sharper_of_joinAll {arrivals : List (Arrival SetState)} {a : Arrival SetState}
    (hl : l ∈ (Analysis.joinAll .bottom D.join arrivals).lines) (hlt : l.must < D.ways)
    (ha : a ∈ arrivals) (hknown : a.state ≠ .bottom) : ∃ m ∈ a.state.lines, Sharper m l := by
  have hfold : ∀ (as : List (Arrival SetState)) (s : SetState),
      l ∈ (as.foldl (fun acc a => D.join acc a.state) s).lines →
        (s ≠ .bottom → ∃ m ∈ s.lines, Sharper m l) ∧
          ∀ a ∈ as, a.state ≠ .bottom → ∃ m ∈ a.state.lines, Sharper m l := by
    intro as
    induction as with
    | nil => exact fun s hl => ⟨fun _ => ⟨l, hl, .refl⟩, fun _ h => (by cases h)⟩
    | cons x as ih =>
      intro s hl
      obtain ⟨hs, has⟩ := ih _ hl
      have hboth : s ≠ .bottom ∨ x.state ≠ .bottom → ∃ m ∈ (D.join s x.state).lines,
          m.must < D.ways ∧ Sharper m l := fun h => by
        obtain ⟨m, hm, hsharp⟩ := hs (join_ne_bottom h)
        exact ⟨m, hm, Nat.lt_of_le_of_lt hsharp.must hlt, hsharp⟩
      refine ⟨fun h => ?_, fun a ha h => ?_⟩
      · obtain ⟨m, hm, hmlt, hsharp⟩ := hboth (.inl h)
        obtain ⟨k, hk, hkm⟩ := (sharper_of_join hm hmlt).1 h
        exact ⟨k, hk, hkm.trans hsharp⟩
      · rcases List.mem_cons.mp ha with rfl | ha
        · obtain ⟨m, hm, hmlt, hsharp⟩ := hboth (.inr h)
          obtain ⟨k, hk, hkm⟩ := (sharper_of_join hm hmlt).2 h
          exact ⟨k, hk, hkm.trans hsharp⟩
        · exact has a ha h
  exact (hfold _ _ hl).2 a ha hknown

end SetDomain

end MissBound
