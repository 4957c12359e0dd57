import MissBound.Loop.Forest
import MissBound.Proofs.Loop.Natural

/-!
The loop forest of a graph. Which loops a block lies in is told by their bodies; the links between
the loops, the depths and the lists of headers are shown to agree with it.
-/

namespace MissBound.LoopForest

/-- What a search for the best element leaves: the first one that no other beats. -/
structure Best {α : Type} (skip : α → Bool) (le : α → α → Prop) (xs : List α) (b : α) : Prop where
  mem : b ∈ xs
  kept : skip b = false
  le : ∀ x ∈ xs, skip x = false → le b x

theorem foldl_best {α : Type} (skip : α → Bool) (le : α → α → Prop)
    (step : Option α → α → Option α) (refl : ∀ a, le a a)
    (trans : ∀ a b c, le a b → le b c → le a c)
    (hskip : ∀ best x, skip x = true → step best x = best)
    (hnone : ∀ x, skip x = false → step none x = some x)
    (hsome : ∀ b x, skip x = false →
      step (some b) x = some b ∧ le b x ∨ step (some b) x = some x ∧ le x b) (xs : List α) :
    (∀ b, xs.foldl step none = some b → Best skip le xs b) ∧
      (xs.foldl step none = none → ∀ x ∈ xs, skip x = true) := by
  induction xs using List.reverseRecOn with
  | nil => exact ⟨fun b h => (by cases h), fun _ x hx => (by cases hx)⟩
  | append_singleton xs x ih =>
    rw [List.foldl_append, List.foldl_cons, List.foldl_nil]
    generalize xs.foldl step none = r at ih ⊢
    obtain ⟨ihs, ihn⟩ := ih
    have hlast : x ∈ xs ++ [x] := List.mem_append_right _ (List.mem_singleton_self x)
    have hcases : ∀ y ∈ xs ++ [x], y ∈ xs ∨ y = x := fun y hy =>
      (List.mem_append.mp hy).imp_right List.mem_singleton.mp
    cases hx : skip x with
    | true =>
      rw [hskip r x hx]
      refine ⟨fun b hb => ?_, fun hn y hy => ?_⟩
      · obtain ⟨hmem, hkept, hle⟩ := ihs b hb
        refine ⟨List.mem_append_left _ hmem, hkept, fun y hy hys => ?_⟩
        rcases hcases y hy with hy | rfl
        · exact hle y hy hys
        · rw [hx] at hys
          cases hys
      · exact (hcases y hy).elim (ihn hn y) fun heq => heq ▸ hx
    | false =>
      cases r with
      | none =>
        rw [hnone x hx]
        refine ⟨fun b hb => ?_, fun hn => (by cases hn)⟩
        cases hb
        refine ⟨hlast, hx, fun y hy hys => ?_⟩
        rcases hcases y hy with hy | rfl
        · rw [ihn rfl y hy] at hys
          cases hys
        · exact refl _
      | some c =>
        obtain ⟨hmem, hkept, hle⟩ := ihs c rfl
        rcases hsome c x hx with ⟨heq, hcx⟩ | ⟨heq, hxc⟩ <;> rw [heq] <;>
          refine ⟨fun b hb => ?_, fun hn => (by cases hn)⟩ <;> cases hb
        · refine ⟨List.mem_append_left _ hmem, hkept, fun y hy hys => ?_⟩
          exact (hcases y hy).elim (fun hy => hle y hy hys) fun heq => heq ▸ hcx
        · refine ⟨hlast, hx, fun y hy hys => ?_⟩
          exact (hcases y hy).elim (fun hy => trans _ _ _ hxc (hle y hy hys))
            fun heq => heq ▸ refl _

variable {α β : Type} {g : Digraph α β} {entry h h' b m n : Nat} {f f' : LoopForest}

/-- The block `b` lies in the loop of `h`. -/
def Inside (f : LoopForest) (h b : Nat) : Prop := ∃ l, f.loopAt? h = some l ∧ b ∈ l.body

instance : Decidable (f.Inside h b) :=
  decidable_of_iff (∃ l ∈ f.loopAt? h, b ∈ l.body) Iff.rfl

/-- `f` holds the loops of `g` with their nesting, whatever their bounds. -/
structure Describes (g : Digraph α β) (entry : Nat) (f : LoopForest) : Prop where
  natural : f.loops.map (·.toNaturalLoop) = NaturalLoop.detect g (.of g entry)
  parent : ∀ l ∈ f.loops, l.parent = around? (f.loops.map (·.toNaturalLoop)) l.header
  depth : ∀ l ∈ f.loops, l.depth =
    (climb (f.loops.map fun l => (l.header, l.parent)) f.loops.length l.parent).length
  depths : f.dominatorDepths = (List.range g.nodeCount).map (DominatorTree.of g entry).depth

theorem lookup_map_header {loops : List NaturalLoop} {F : Nat → Option Nat} {l : NaturalLoop}
    (hl : l ∈ loops) :
    (loops.map fun l => (l.header, F l.header)).lookup l.header = some (F l.header) := by
  induction loops with
  | nil => cases hl
  | cons k loops ih =>
    rw [List.map_cons, List.lookup_cons]
    by_cases hk : l.header = k.header
    · rw [hk, beq_self_eq_true]
    · rw [beq_false_of_ne hk]
      exact ih ((List.mem_cons.mp hl).resolve_left fun heq => hk (heq ▸ rfl))

theorem describes_of : Describes g entry (of g (.of g entry)) := by
  unfold of nest
  generalize hloops : NaturalLoop.detect g (.of g entry) = loops
  have hlookup : ∀ l ∈ loops, ((loops.map fun l => (l.header, around? loops l.header)).lookup
      l.header).join = around? loops l.header := fun l hl => by
    rw [lookup_map_header hl, Option.join_some]
  refine ⟨?_, fun l hl => ?_, fun l hl => ?_, rfl⟩
  · rw [hloops, List.map_map]
    exact List.map_id'' (fun _ => rfl) loops
  · obtain ⟨k, hk, rfl⟩ := List.mem_map.mp hl
    simp only [List.map_map, hlookup k hk]
    refine congrArg (around? · k.header) ?_
    exact (List.map_id'' (fun _ => rfl) loops).symm
  · obtain ⟨k, hk, rfl⟩ := List.mem_map.mp hl
    simp only [List.map_map, List.length_map]
    congr 2
    refine (List.map_congr_left fun l hl => ?_).symm
    simp only [Function.comp_apply, hlookup l hl]

theorem Describes.setBound {bound : LoopBound} (D : Describes g entry f)
    (h : f.setBound n bound = .ok f') : Describes g entry f' := by
  unfold LoopForest.setBound at h
  split at h
  · cases h
    have hnat : (f.loops.map fun l => if l.header = n then { l with bound } else l).map
        (·.toNaturalLoop) = f.loops.map (·.toNaturalLoop) := by
      rw [List.map_map]
      refine List.map_congr_left fun l _ => ?_
      simp only [Function.comp_apply]
      split <;> rfl
    have hpar : (f.loops.map fun l => if l.header = n then { l with bound } else l).map
        (fun l => (l.header, l.parent)) = f.loops.map fun l => (l.header, l.parent) := by
      rw [List.map_map]
      refine List.map_congr_left fun l _ => ?_
      simp only [Function.comp_apply]
      split <;> rfl
    refine ⟨hnat.trans D.natural, fun l hl => ?_, fun l hl => ?_, D.depths⟩
    · simp only
      rw [hnat]
      obtain ⟨k, hk, rfl⟩ := List.mem_map.mp hl
      split <;> exact D.parent k hk
    · simp only
      rw [hpar, List.length_map]
      obtain ⟨k, hk, rfl⟩ := List.mem_map.mp hl
      split <;> exact D.depth k hk
  · cases h

theorem head?_headersOf : (f.headersOf b).head? = f.innermostHeader? b := by
  rw [headersOf]
  cases hb : f.innermostHeader? b with
  | none => cases f.loops.length <;> rfl
  | some h =>
    cases hn : f.loops.length with
    | zero => simp [innermostHeader?, innermost?, List.eq_nil_of_length_eq_zero hn] at hb
    | succ n => rfl

/-- The number of loops around a block. -/
def around (f : LoopForest) (b : Nat) : Nat := (f.loops.filter fun l => l.body.contains b).length

namespace Describes

section
variable (hg : g.Closed) (he : entry < g.nodeCount) (D : Describes g entry f)

section
include D

theorem headers_sorted : f.loops.Pairwise (·.header < ·.header) := by
  have h : (NaturalLoop.detect g (.of g entry)).Pairwise (·.header < ·.header) :=
    NaturalLoop.detect_sorted
  rw [← D.natural, List.pairwise_map] at h
  exact h

theorem loopAt?_eq_some {l : Loop} : f.loopAt? h = some l ↔ l ∈ f.loops ∧ l.header = h := by
  constructor
  · intro hl
    exact ⟨List.mem_of_find?_eq_some hl, by simpa using List.find?_some hl⟩
  · rintro ⟨hl, rfl⟩
    have hs := D.headers_sorted
    unfold loopAt?
    generalize f.loops = loops at hl hs
    induction loops with
    | nil => cases hl
    | cons k loops ih =>
      obtain ⟨hk, hs⟩ := List.pairwise_cons.mp hs
      rcases List.mem_cons.mp hl with rfl | hl
      · simp
      · have : (k.header == l.header) = false := beq_false_of_ne (Nat.ne_of_lt (hk l hl))
        rw [List.find?_cons, this]
        exact ih hl hs

theorem inside_iff : f.Inside h b ↔ ∃ l ∈ f.loops, l.header = h ∧ b ∈ l.body := by
  simp only [Inside, D.loopAt?_eq_some, and_assoc]

theorem isHeader_iff : f.isHeader h = true ↔ ∃ l ∈ f.loops, l.header = h := by
  rw [isHeader, Option.isSome_iff_exists]
  simp only [D.loopAt?_eq_some]

theorem eq_of_header {l l' : Loop} (hl : l ∈ f.loops) (hl' : l' ∈ f.loops)
    (heq : l.header = l'.header) : l = l' := by
  have h₁ := D.loopAt?_eq_some.mpr ⟨hl, rfl⟩
  have h₂ := D.loopAt?_eq_some.mpr ⟨hl', heq.symm⟩
  exact Option.some.inj (h₁.symm.trans h₂)

end

include hg he D

theorem isLoop {l : Loop} (hl : l ∈ f.loops) : NaturalLoop.IsLoop g entry l.toNaturalLoop := by
  refine NaturalLoop.isLoop_detect hg he ?_
  rw [← D.natural]
  exact List.mem_map.mpr ⟨l, hl, rfl⟩

theorem inside_self (h' : f.isHeader h = true) : f.Inside h h := by
  obtain ⟨l, hl, rfl⟩ := D.isHeader_iff.mp h'
  exact D.inside_iff.mpr ⟨l, hl, rfl, (D.isLoop hg he hl).header_mem⟩

omit hg he in
theorem isHeader_of_inside (hb : f.Inside h b) : f.isHeader h = true := by
  obtain ⟨l, hl, rfl, -⟩ := D.inside_iff.mp hb
  exact D.isHeader_iff.mpr ⟨l, hl, rfl⟩

theorem reaches_of_inside (hb : f.Inside h b) : g.Reaches entry h := by
  obtain ⟨l, hl, rfl, -⟩ := D.inside_iff.mp hb
  exact (D.isLoop hg he hl).reachable

theorem dominates_of_inside (hb : f.Inside h b) : g.Dominates entry h b := by
  obtain ⟨l, hl, rfl, hmem⟩ := D.inside_iff.mp hb
  exact (D.isLoop hg he hl).dominates b hmem

/-- A loop is entered at its header only. -/
theorem inside_pred (hn : f.Inside h n) (hne : n ≠ h) (hmn : g.Adjacent m n) : f.Inside h m := by
  obtain ⟨l, hl, rfl, hmem⟩ := D.inside_iff.mp hn
  exact D.inside_iff.mpr ⟨l, hl, rfl, (D.isLoop hg he hl).pred_mem n hmem hne m hmn⟩

/-- The source of a back edge lies in the loop that the edge closes. -/
theorem inside_latch (hnh : g.Adjacent n h) (hr : g.Reaches entry n)
    (hd : g.Dominates entry h n) : f.Inside h n := by
  obtain ⟨k, hk, rfl⟩ := NaturalLoop.exists_detect hg he hnh hr hd
  rw [← D.natural] at hk
  obtain ⟨l, hl, rfl⟩ := List.mem_map.mp hk
  exact D.inside_iff.mpr ⟨l, hl, rfl, (D.isLoop hg he hl).latch_mem n hnh hr hd⟩

theorem inside_trans (h₁ : f.Inside h' h) (h₂ : f.Inside h b) : f.Inside h' b := by
  obtain ⟨l', hl', rfl, hh⟩ := D.inside_iff.mp h₁
  obtain ⟨l, hl, rfl, hb⟩ := D.inside_iff.mp h₂
  have L := D.isLoop hg he hl
  have L' := D.isLoop hg he hl'
  refine D.inside_iff.mpr ⟨l', hl', rfl, ?_⟩
  rcases L.nested hg he L' L.reachable L.header_mem hh with heq | hw | hw
  · exact D.eq_of_header hl hl' heq ▸ hb
  · exact hw.subset b hb
  · exact absurd hh hw.header_notMem

theorem inside_antisymm (h₁ : f.Inside h' h) (h₂ : f.Inside h h') : h = h' :=
  Digraph.Dominates.antisymm (D.reaches_of_inside hg he h₁) (D.dominates_of_inside hg he h₂)
    (D.dominates_of_inside hg he h₁)

theorem inside_total (hr : g.Reaches entry b) (h₁ : f.Inside h b) (h₂ : f.Inside h' b) :
    f.Inside h h' ∨ f.Inside h' h := by
  obtain ⟨l, hl, rfl, hb⟩ := D.inside_iff.mp h₁
  obtain ⟨l', hl', rfl, hb'⟩ := D.inside_iff.mp h₂
  have L := D.isLoop hg he hl
  have L' := D.isLoop hg he hl'
  rcases L.nested hg he L' hr hb hb' with heq | hw | hw
  · exact .inl (D.inside_iff.mpr ⟨l, hl, rfl, heq ▸ L.header_mem⟩)
  · exact .inr (D.inside_iff.mpr ⟨l', hl', rfl, hw.subset _ L.header_mem⟩)
  · exact .inl (D.inside_iff.mpr ⟨l, hl, rfl, hw.subset _ L'.header_mem⟩)

theorem size_lt {l l' : Loop} (hl : l ∈ f.loops) (hl' : l' ∈ f.loops) (hmem : l.header ∈ l'.body)
    (hne : l.header ≠ l'.header) : l.size < l'.size := by
  have L := D.isLoop hg he hl
  have L' := D.isLoop hg he hl'
  rcases L.nested hg he L' L.reachable L.header_mem hmem with heq | hw | hw
  · exact absurd heq hne
  · exact hw.size_lt L L'
  · exact absurd hmem hw.header_notMem

theorem around_lt (h₁ : f.Inside h' h) (hne : h ≠ h') (hh : f.isHeader h = true) :
    f.around h' < f.around h := by
  have hsub : ∀ l ∈ f.loops, h' ∈ l.body → h ∈ l.body := by
    intro l hl hmem
    have hin := D.inside_trans hg he (D.inside_iff.mpr ⟨l, hl, rfl, hmem⟩) h₁
    obtain ⟨k, hk, heq, hmem⟩ := D.inside_iff.mp hin
    exact D.eq_of_header hl hk heq.symm ▸ hmem
  obtain ⟨l, hl, rfl, hmem⟩ := D.inside_iff.mp (D.inside_self hg he hh)
  have hfilter : (f.loops.filter fun k => k.body.contains h') =
      (f.loops.filter fun k => k.body.contains l.header).filter fun k => k.body.contains h' := by
    rw [List.filter_filter]
    refine List.filter_congr fun k hk => ?_
    rw [Bool.eq_iff_iff, Bool.and_eq_true, List.contains_iff_mem, List.contains_iff_mem]
    exact ⟨fun hm => ⟨hm, hsub k hk hm⟩, fun hm => hm.1⟩
  rw [around, around, hfilter, List.length_filter_lt_length_iff_exists]
  refine ⟨l, List.mem_filter.mpr ⟨hl, by simpa using hmem⟩, fun hm => hne ?_⟩
  exact D.inside_antisymm hg he h₁
    (D.inside_iff.mpr ⟨l, hl, rfl, by simpa using hm⟩)

omit hg he in
/-- The loop directly around another one is the smallest. -/
theorem parent_spec {l : Loop} (hl : l ∈ f.loops) :
    (∀ p, l.parent = some p → ∃ k ∈ f.loops, k.header = p ∧ k.header ≠ l.header ∧
        l.header ∈ k.body ∧
        ∀ k' ∈ f.loops, k'.header ≠ l.header → l.header ∈ k'.body → k.size ≤ k'.size) ∧
      (l.parent = none → ∀ k ∈ f.loops, l.header ∈ k.body → k.header = l.header) := by
  have hskip : ∀ k : NaturalLoop, (k.header == l.header || !k.body.contains l.header) = false ↔
      k.header ≠ l.header ∧ l.header ∈ k.body := by simp
  obtain ⟨r, hr, hbest⟩ : ∃ r, around? (f.loops.map (·.toNaturalLoop)) l.header =
      r.map (·.header) ∧ (∀ k, r = some k → Best (fun k : NaturalLoop =>
          k.header == l.header || !k.body.contains l.header) (fun k k' => k.size ≤ k'.size)
        (f.loops.map (·.toNaturalLoop)) k) ∧ (r = none → ∀ k ∈ f.loops.map (·.toNaturalLoop),
          (k.header == l.header || !k.body.contains l.header) = true) := by
    refine ⟨_, rfl, foldl_best _ _ _ (fun k => ?_) (fun _ _ _ => ?_) (fun best k hk => ?_)
      (fun k hk => ?_) (fun k k' hk => ?_) _⟩
    · exact Nat.le_refl _
    · exact Nat.le_trans
    · exact if_pos hk
    · simp only [hk, Bool.false_eq_true, if_false]
    · simp only [hk, Bool.false_eq_true, if_false]
      split
      · exact .inl ⟨rfl, ‹_›⟩
      · exact .inr ⟨rfl, by omega⟩
  rw [D.parent l hl, hr]
  constructor
  · intro p hp
    obtain ⟨k, hk, rfl⟩ := Option.map_eq_some_iff.mp hp
    obtain ⟨hmem, hkept, hle⟩ := hbest.1 k hk
    obtain ⟨k, hkl, rfl⟩ := List.mem_map.mp hmem
    obtain ⟨hne, hin⟩ := (hskip _).mp hkept
    refine ⟨k, hkl, rfl, hne, hin, fun k' hk' hne' hin' => ?_⟩
    exact hle _ (List.mem_map.mpr ⟨k', hk', rfl⟩) ((hskip _).mpr ⟨hne', hin'⟩)
  · intro hn k hk hin
    have := hbest.2 (Option.map_eq_none_iff.mp hn) _ (List.mem_map.mpr ⟨k, hk, rfl⟩)
    by_contra hne
    rw [(hskip _).mpr ⟨hne, hin⟩] at this
    cases this

omit hg he in
theorem lookup_parent {l : Loop} (hl : l ∈ f.loops) :
    ((f.loops.map fun l => (l.header, l.parent)).lookup l.header).join = l.parent := by
  have hmap : (f.loops.map fun l => (l.header, l.parent)) =
      (f.loops.map (·.toNaturalLoop)).map fun k =>
        (k.header, around? (f.loops.map (·.toNaturalLoop)) k.header) := by
    rw [List.map_map]
    exact List.map_congr_left fun k hk => by rw [D.parent k hk]; rfl
  rw [hmap, lookup_map_header (List.mem_map.mpr ⟨l, hl, rfl⟩), D.parent l hl]
  rfl

/-- Climbing from a header meets the headers of just the loops around it, each inside the next. -/
theorem climb_spec (steps : Nat) : ∀ l ∈ f.loops, f.around l.header ≤ steps →
    (climb (f.loops.map fun l => (l.header, l.parent)) steps (some l.header)).Pairwise
        (fun h h' => f.Inside h' h ∧ h ≠ h') ∧
      ∀ k, k ∈ climb (f.loops.map fun l => (l.header, l.parent)) steps (some l.header) ↔
        f.Inside k l.header := by
  induction steps with
  | zero =>
    intro l hl hle
    have hself := D.inside_self hg he (D.isHeader_iff.mpr ⟨l, hl, rfl⟩)
    obtain ⟨k, hk, -, hmem⟩ := D.inside_iff.mp hself
    have : k ∈ f.loops.filter fun k => k.body.contains l.header :=
      List.mem_filter.mpr ⟨hk, by simpa using hmem⟩
    have := List.length_pos_of_mem this
    unfold LoopForest.around at hle
    omega
  | succ steps ih =>
    intro l hl hle
    have hself := D.inside_self hg he (D.isHeader_iff.mpr ⟨l, hl, rfl⟩)
    obtain ⟨hsome, hnone⟩ := D.parent_spec hl
    rw [climb, D.lookup_parent hl]
    cases hp : l.parent with
    | none =>
      have hnil : climb (f.loops.map fun l => (l.header, l.parent)) steps none = [] := by
        cases steps <;> rfl
      rw [hnil]
      refine ⟨List.pairwise_singleton _ _, fun k => ?_⟩
      rw [List.mem_singleton]
      refine ⟨fun hk => hk ▸ hself, fun hk => ?_⟩
      obtain ⟨l', hl', rfl, hmem⟩ := D.inside_iff.mp hk
      exact hnone hp l' hl' hmem
    | some p =>
      obtain ⟨lp, hlp, rfl, hne, hmem, hmin⟩ := hsome p hp
      have hin : f.Inside lp.header l.header := D.inside_iff.mpr ⟨lp, hlp, rfl, hmem⟩
      have hlt := D.around_lt hg he hin (Ne.symm hne) (D.isHeader_iff.mpr ⟨l, hl, rfl⟩)
      obtain ⟨hpair, hiff⟩ := ih lp hlp (by omega)
      constructor
      · refine List.pairwise_cons.mpr ⟨fun k hk => ?_, hpair⟩
        have hk := (hiff k).mp hk
        refine ⟨D.inside_trans hg he hk hin, ?_⟩
        rintro rfl
        exact hne (D.inside_antisymm hg he hk hin)
      · intro k
        rw [List.mem_cons, hiff]
        constructor
        · rintro (rfl | hk)
          · exact hself
          · exact D.inside_trans hg he hk hin
        · intro hk
          by_cases hkl : k = l.header
          · exact .inl hkl
          · refine .inr ?_
            rcases D.inside_total hg he (D.isLoop hg he hl).reachable hk hin with h | h
            · exact h
            · obtain ⟨lk, hlk, rfl, hmem'⟩ := D.inside_iff.mp hk
              by_cases heq : lk.header = lp.header
              · rw [heq]
                exact D.inside_self hg he (D.isHeader_iff.mpr ⟨lp, hlp, rfl⟩)
              · obtain ⟨l', hl', heq', hmem''⟩ := D.inside_iff.mp h
                cases D.eq_of_header hl' hlp heq'
                have := D.size_lt hg he hlk hlp hmem'' heq
                have := hmin lk hlk hkl hmem'
                omega

omit hg he D in
theorem around_le : f.around b ≤ f.loops.length := List.length_filter_le _ _

theorem length_climb {steps : Nat} {l : Loop} (hl : l ∈ f.loops)
    (hle : f.around l.header ≤ steps) :
    (climb (f.loops.map fun l => (l.header, l.parent)) steps (some l.header)).length =
      f.around l.header := by
  obtain ⟨hpair, hiff⟩ := D.climb_spec hg he steps l hl hle
  have hnodup : ((f.loops.filter fun k => k.body.contains l.header).map (·.header)).Nodup :=
    List.pairwise_map.mpr ((D.headers_sorted.filter _).imp Nat.ne_of_lt)
  have hperm := (List.perm_ext_iff_of_nodup (hpair.imp fun h => h.2) hnodup).mpr fun k => by
    rw [hiff, D.inside_iff, List.mem_map]
    simp only [List.mem_filter, List.contains_iff_mem, and_assoc, and_comm]
  rw [hperm.length_eq, List.length_map, around]

theorem depth_eq {l : Loop} (hl : l ∈ f.loops) : l.depth + 1 = f.around l.header := by
  have hlen := D.length_climb hg he hl around_le
  obtain ⟨n, hn⟩ : ∃ n, f.loops.length = n + 1 :=
    ⟨f.loops.length - 1, by have := List.length_pos_of_mem hl; omega⟩
  rw [hn, climb, D.lookup_parent hl, List.length_cons] at hlen
  rw [D.depth l hl, ← hlen]
  cases hp : l.parent with
  | none =>
    rw [hn]
    cases n <;> rfl
  | some p =>
    obtain ⟨lp, hlp, rfl, hne, hmem, -⟩ := (D.parent_spec hl).1 p hp
    have hin : f.Inside lp.header l.header := D.inside_iff.mpr ⟨lp, hlp, rfl, hmem⟩
    have hlt := D.around_lt hg he hin (Ne.symm hne) (D.isHeader_iff.mpr ⟨l, hl, rfl⟩)
    have hle : f.around l.header ≤ f.loops.length := around_le
    rw [D.length_climb hg he hlp around_le, D.length_climb hg he hlp (by omega)]

/-- The innermost loop around a block lies inside all others around it. -/
theorem innermost?_spec (hr : g.Reaches entry b) :
    (∀ l, f.innermost? b = some l → l ∈ f.loops ∧ b ∈ l.body ∧
        ∀ k, f.Inside k b ↔ f.Inside k l.header) ∧
      (f.innermost? b = none → ∀ k, ¬f.Inside k b) := by
  have hbest : (∀ l, f.innermost? b = some l → Best (fun l : Loop => !l.body.contains b)
        (fun l l' => l'.depth ≤ l.depth) f.loops l) ∧
      (f.innermost? b = none → ∀ l ∈ f.loops, (!l.body.contains b) = true) := by
    refine foldl_best _ _ _ (fun l => ?_) (fun _ _ _ h₁ h₂ => ?_) (fun best l hl => ?_)
      (fun l hl => ?_) (fun l l' hl => ?_) _
    · exact Nat.le_refl _
    · exact Nat.le_trans h₂ h₁
    · exact if_pos hl
    · simp only [hl, Bool.false_eq_true, if_false]
    · simp only [hl, Bool.false_eq_true, if_false]
      split
      · exact .inl ⟨rfl, ‹_›⟩
      · exact .inr ⟨rfl, by omega⟩
  constructor
  · intro l hl
    obtain ⟨hmem, hkept, hle⟩ := hbest.1 l hl
    have hb : b ∈ l.body := by simpa using hkept
    have hin : f.Inside l.header b := D.inside_iff.mpr ⟨l, hmem, rfl, hb⟩
    refine ⟨hmem, hb, fun k => ⟨fun hk => ?_, fun hk => D.inside_trans hg he hk hin⟩⟩
    rcases D.inside_total hg he hr hk hin with h | h
    · exact h
    · obtain ⟨lk, hlk, rfl, hbk⟩ := D.inside_iff.mp hk
      by_cases heq : lk.header = l.header
      · exact heq ▸ D.inside_self hg he (D.isHeader_iff.mpr ⟨lk, hlk, rfl⟩)
      · have hlt := D.around_lt hg he h heq (D.isHeader_iff.mpr ⟨lk, hlk, rfl⟩)
        have h₁ := D.depth_eq hg he hmem
        have h₂ := D.depth_eq hg he hlk
        have h₃ := hle lk hlk (by simpa using hbk)
        omega
  · intro hn k hk
    obtain ⟨lk, hlk, rfl, hbk⟩ := D.inside_iff.mp hk
    simpa [hbk] using hbest.2 hn lk hlk

theorem innermostHeader?_spec (hr : g.Reaches entry b) (hb : f.innermostHeader? b = some h) :
    f.Inside h b ∧ ∀ k, f.Inside k b → f.Inside k h := by
  obtain ⟨l, hl, rfl⟩ := Option.map_eq_some_iff.mp hb
  obtain ⟨hmem, hbody, hiff⟩ := (D.innermost?_spec hg he hr).1 l hl
  exact ⟨D.inside_iff.mpr ⟨l, hmem, rfl, hbody⟩, fun k => (hiff k).mp⟩

/-- The headers around a block, the innermost first. -/
theorem headersOf_spec (hr : g.Reaches entry b) :
    (f.headersOf b).Pairwise (fun h h' => f.Inside h' h ∧ h ≠ h') ∧
      ∀ k, k ∈ f.headersOf b ↔ f.Inside k b := by
  obtain ⟨hsome, hnone⟩ := D.innermost?_spec hg he hr
  unfold headersOf innermostHeader?
  cases hi : f.innermost? b with
  | none =>
    have hnil : climb (f.loops.map fun l => (l.header, l.parent)) f.loops.length none = [] := by
      cases f.loops.length <;> rfl
    rw [Option.map_none, hnil]
    exact ⟨.nil, fun k => ⟨fun hk => (by cases hk), fun hk => absurd hk (hnone hi k)⟩⟩
  | some l =>
    obtain ⟨hl, -, hiff⟩ := hsome l hi
    obtain ⟨hpair, hmem⟩ := D.climb_spec hg he f.loops.length l hl around_le
    exact ⟨hpair, fun k => (hmem k).trans (hiff k).symm⟩

theorem depthAt_eq (hr : g.Reaches entry b) : f.depthAt b = (f.headersOf b).length := by
  unfold depthAt headersOf innermostHeader?
  cases hi : f.innermost? b with
  | none => cases f.loops.length <;> rfl
  | some l =>
    obtain ⟨hl, -, -⟩ := (D.innermost?_spec hg he hr).1 l hi
    exact (D.depth_eq hg he hl).trans (D.length_climb hg he hl around_le).symm

theorem depthAt_le_length {hs : List Nat} (hr : g.Reaches entry b)
    (hmem : ∀ k, f.Inside k b → k ∈ hs) : f.depthAt b ≤ hs.length := by
  obtain ⟨hpair, hin⟩ := D.headersOf_spec hg he hr
  rw [D.depthAt_eq hg he hr]
  refine (List.Nodup.subperm (hpair.imp fun h => h.2) fun k hk => ?_).length_le
  exact hmem k ((hin k).mp hk)

/-- No more loops are around a block than around another one that lies in all of them. -/
theorem depthAt_le {b' : Nat} (hr : g.Reaches entry b) (hr' : g.Reaches entry b')
    (hin : ∀ k, f.Inside k b → f.Inside k b') : f.depthAt b ≤ f.depthAt b' := by
  rw [D.depthAt_eq hg he hr']
  exact D.depthAt_le_length hg he hr fun k hk => ((D.headersOf_spec hg he hr').2 k).mpr (hin k hk)

/-- In the order of headers a node comes before those that dominate it. -/
theorem compareHeaders_of_dominates (hr : g.Reaches entry b) (hd : g.Dominates entry h b)
    (hne : h ≠ b) : f.compareHeaders b h = .lt := by
  have hdepth : ∀ x, g.Reaches entry x →
      f.dominatorDepth x = (DominatorTree.of g entry).depth x := by
    intro x hx
    have hx := Digraph.reversePostorder_lt hg he ((Digraph.mem_reversePostorder hg he).mpr hx)
    rw [dominatorDepth, D.depths, List.getElem?_map, List.getElem?_range hx]
    rfl
  have hlt := DominatorTree.depth_lt_of_dominates hg he hr hd hne
  rw [compareHeaders, hdepth b hr, hdepth h (hd.reaches hr), Nat.compare_eq_lt.mpr hlt]
  rfl

/-- In the order of headers an inner one comes before an outer one. -/
theorem compareHeaders_of_inside (h₁ : f.Inside h' h) (hne : h ≠ h')
    (hh : f.isHeader h = true) : f.compareHeaders h h' = .lt :=
  D.compareHeaders_of_dominates hg he (D.reaches_of_inside hg he (D.inside_self hg he hh))
    (D.dominates_of_inside hg he h₁) (Ne.symm hne)

end

end Describes

end MissBound.LoopForest
