import MissBound.Proofs.Digraph.Climbing

/-!
One sweep of improvements over the candidates for immediate dominators. An improvement moves a
candidate up the tree and never past a dominator.
-/

namespace MissBound.DominatorTree

variable {α β : Type} {g : Digraph α β} {entry : Nat} {order : List Nat}
  {parents : List (Option Nat)} {a b d f k m n p x y : Nat}

/-- What holds of the candidates while a sweep has come to place `k` of the order. -/
structure Sweep (g : Digraph α β) (entry : Nat) (order : List Nat) (parents : List (Option Nat))
    (k : Nat) : Prop where
  rooted : Rooted entry order parents
  placed : ∀ n ∈ order, order.idxOf n < k → Placed parents n
  down : ∀ n, Placed parents n → ∀ m ∈ order, order.idxOf m < order.idxOf n → Placed parents m
  /-- No dominator is passed over. -/
  sound : ∀ n p, parent? parents n = some p → n ≠ entry → ∀ d, g.Dominates entry d n → d ≠ n →
    g.Dominates entry d p
  /-- What lies above all predecessors lies above the candidate. -/
  bound : ∀ n p, parent? parents n = some p → n ≠ entry → ∀ x,
    (∀ q, g.Adjacent q n → Placed parents q → Climbs parents q x) → order.idxOf x ≤ order.idxOf p
  /-- What lies above an earlier predecessor and not below the candidate lies above it. -/
  near : ∀ n p, parent? parents n = some p → n ≠ entry → ∀ f ∈ order, g.Adjacent f n →
    order.idxOf f < order.idxOf n → ∀ x, Climbs parents f x → order.idxOf x ≤ order.idxOf p →
      Climbs parents p x
  /-- The candidate lies above an earlier predecessor, unless only that one has been improved. -/
  above : ∀ n p, parent? parents n = some p → n ≠ entry → ∀ f ∈ order, g.Adjacent f n →
    order.idxOf f < order.idxOf n → order.idxOf n < k ∨ k ≤ order.idxOf p + 1 →
      Climbs parents f p

namespace Sweep

variable (O : g.Ordered entry order) (S : Sweep g entry order parents k)

include S in
theorem climbs_of_dominates (hn : Placed parents n) (h : g.Dominates entry d n) :
    Climbs parents n d := by
  induction hk : order.idxOf n using Nat.strongRecOn generalizing n with
  | _ l ih =>
    by_cases hdn : d = n
    · exact hdn ▸ .refl
    · obtain ⟨p, hp⟩ := Option.isSome_iff_exists.mp hn
      have hne : n ≠ entry := by
        rintro rfl
        exact hdn (List.mem_singleton.mp (h _ .start))
      refine .head hp (ih _ ?_ (S.rooted.placed n p hp) (S.sound n p hp hne d h hdn) rfl)
      exact hk ▸ S.rooted.lt n p hp hne

include S in
/-- A dominator of a node dominates the nodes between them. -/
theorem dominates_of_climbs (hn : Placed parents n) (h : g.Dominates entry d n)
    (ha : Climbs parents n a) (hle : order.idxOf d ≤ order.idxOf a) : g.Dominates entry d a := by
  induction ha using Relation.ReflTransGen.head_induction_on with
  | refl => exact h
  | @head n p hp hpa ih =>
    by_cases hdn : d = n
    · subst hdn
      have := S.rooted.eq_of_climbs hn (.head hp hpa) hle
      exact this ▸ .refl
    · by_cases hne : n = entry
      · subst hne
        exact absurd (List.mem_singleton.mp (h _ .start)) hdn
      · exact ih (S.rooted.placed n p hp) (S.sound n p hp hne d h hdn)

include O S in
/-- The next node of a sweep finds a place above its predecessors. -/
theorem exists_meets (hn : n ∈ order) (hk : order.idxOf n = k) (hne : n ≠ entry) :
    ∃ m, candidate order parents (g.predecessors n) = some m ∧
      Meets parents (g.predecessors n) m ∧ order.idxOf m < k := by
  obtain ⟨f, hf, hfn, hlt⟩ := O.before n hn hne
  have hfp := S.placed f hf (hk ▸ hlt)
  have hd : Describes parents (g.predecessors n) (candidate order parents (g.predecessors n)) :=
    candidate_describes S.rooted O.head
  cases hc : candidate order parents (g.predecessors n) with
  | none =>
    rw [hc] at hd
    exact absurd hfp (hd f (Digraph.mem_predecessors.mpr hfn))
  | some m =>
    rw [hc] at hd
    have hfm := (hd.climbs_iff m).mp .refl f (Digraph.mem_predecessors.mpr hfn) hfp
    have := S.rooted.le_of_climbs hfm
    exact ⟨m, rfl, hd, by omega⟩

include O S in
/-- An improvement moves a candidate up the tree. -/
theorem climbs_of_meets (hn : n ∈ order) (hk : order.idxOf n = k) (hne : n ≠ entry)
    (hm : Meets parents (g.predecessors n) m) (hp : parent? parents n = some p) :
    Climbs parents p m := by
  obtain ⟨f, hf, hfn, hlt⟩ := O.before n hn hne
  have hq : ∀ q, g.Adjacent q n → Placed parents q → Climbs parents q m := fun q hq =>
    (hm.climbs_iff m).mp .refl q (Digraph.mem_predecessors.mpr hq)
  exact S.near n p hp hne f hf hfn hlt m (hq f hfn (S.placed f hf (hk ▸ hlt)))
    (S.bound n p hp hne m hq)

section
variable (hn : n ∈ order) (hk : order.idxOf n = k) (hne : n ≠ entry)
  (hm : Meets parents (g.predecessors n) m) (hmk : order.idxOf m < k) (hlen : n < parents.length)

include hlen in
omit S in
theorem placed_set (h : Placed parents x) : Placed (parents.set n (some m)) x := by
  unfold Placed at h ⊢
  rw [parent?_set hlen]
  split
  · rfl
  · exact h

include S hk hlen in
/-- What lay above the improved node, or off the way to it, is still there. -/
theorem climbs_set_of_le (hx : Climbs parents x y) (hy : k ≤ order.idxOf y) :
    Climbs (parents.set n (some m)) x y := by
  refine hx.congr fun z _ hzy hne' => ?_
  have hzn : z ≠ n := by
    rintro rfl
    obtain ⟨q, hq, -⟩ := hzy.cases_head.resolve_left hne'
    exact hne' (S.rooted.eq_of_climbs (by simp [Placed, hq]) hzy (by omega))
  rw [parent?_set hlen, if_neg hzn]

include S hn hk hne hm hlen

include hmk in
theorem rooted_set : Rooted entry order (parents.set n (some m)) where
  root := by rw [parent?_set hlen, if_neg (Ne.symm hne), S.rooted.root]
  mem y p h := by
    rw [parent?_set hlen] at h
    split at h
    · rename_i hy
      exact hy ▸ hn
    · exact S.rooted.mem y p h
  placed y p h := by
    rw [parent?_set hlen] at h
    refine placed_set hlen ?_
    split at h
    · cases h
      exact hm.placed
    · exact S.rooted.placed y p h
  lt y p h hy := by
    rw [parent?_set hlen] at h
    split at h
    · rename_i hyn
      cases h
      rw [hyn, hk]
      exact hmk
    · exact S.rooted.lt y p h hy

include hmk in
/-- Below the improved node nothing changes. -/
theorem climbs_set_of_lt (hx : order.idxOf x < k) :
    Climbs (parents.set n (some m)) x y ↔ Climbs parents x y := by
  have R := S.rooted_set hn hk hne hm hmk hlen
  constructor <;> intro h <;> refine h.congr fun z hz _ _ => ?_
  · have hzn : z ≠ n := by
      rintro rfl
      have := R.le_of_climbs hz
      omega
    rw [parent?_set hlen, if_neg hzn]
  · have hzn : z ≠ n := by
      rintro rfl
      have := S.rooted.le_of_climbs hz
      omega
    rw [parent?_set hlen, if_neg hzn]

include O in
/-- An improvement only shortens climbs. -/
theorem climbs_of_climbs_set (hx : Placed parents x)
    (h : Climbs (parents.set n (some m)) x y) : Climbs parents x y := by
  induction h using Relation.ReflTransGen.head_induction_on with
  | refl => exact .refl
  | @head x p hp hpy ih =>
    rw [parent?_set hlen] at hp
    split at hp
    · rename_i hxn
      subst hxn
      cases hp
      obtain ⟨q, hq⟩ := Option.isSome_iff_exists.mp hx
      exact (Climbs.head hq (S.climbs_of_meets O hn hk hne hm hq)).trans (ih hm.placed)
    · exact .head hp (ih (S.rooted.placed x p hp))

include O hmk in
/-- Improving the node at place `k` keeps what holds, up to the next place. -/
theorem step : Sweep g entry order (parents.set n (some m)) (k + 1) where
  rooted := S.rooted_set hn hk hne hm hmk hlen
  placed y hy hlt := by
    by_cases hyn : y = n
    · subst hyn
      simp [Placed, parent?_set hlen]
    · refine placed_set hlen (S.placed y hy ?_)
      have : order.idxOf y ≠ order.idxOf n := fun h => hyn ((List.idxOf_inj hy).mp h)
      omega
  down y hy z hz hlt := by
    refine placed_set hlen ?_
    by_cases hyn : y = n
    · subst hyn
      exact S.placed z hz (hk ▸ hlt)
    · refine S.down y ?_ z hz hlt
      simpa [Placed, parent?_set hlen, hyn] using hy
  sound y p h hy d hd hdy := by
    rw [parent?_set hlen] at h
    split at h
    · rename_i hyn
      subst hyn
      cases h
      obtain ⟨f, hf, hfn, hlt⟩ := O.before y hn hne
      have hfp := S.placed f hf (hk ▸ hlt)
      have hq : ∀ q ∈ g.predecessors y, Placed parents q → Climbs parents q d := fun q hq hqp =>
        S.climbs_of_dominates hqp (hd.pred hdy (Digraph.mem_predecessors.mp hq))
      have hmd := (hm.climbs_iff d).mpr hq
      have hfm := (hm.climbs_iff m).mp .refl f (Digraph.mem_predecessors.mpr hfn) hfp
      exact S.dominates_of_climbs hfp (hd.pred hdy hfn) hfm (S.rooted.le_of_climbs hmd)
    · exact S.sound y p h hy d hd hdy
  bound y p h hy x hx := by
    have hx' : ∀ q, g.Adjacent q y → Placed parents q → Climbs parents q x := fun q hq hqp =>
      S.climbs_of_climbs_set O hn hk hne hm hlen hqp (hx q hq (placed_set hlen hqp))
    rw [parent?_set hlen] at h
    split at h
    · rename_i hyn
      subst hyn
      cases h
      exact S.rooted.le_of_climbs ((hm.climbs_iff x).mpr fun q hq =>
        hx' q (Digraph.mem_predecessors.mp hq))
    · exact S.bound y p h hy x hx'
  near y p h hy f hf hfy hlt x hx hle := by
    rw [parent?_set hlen] at h
    split at h
    · rename_i hyn
      subst hyn
      cases h
      have hfp := S.placed f hf (hk ▸ hlt)
      rw [S.climbs_set_of_lt hn hk hne hm hmk hlen (hk ▸ hlt)] at hx
      rw [S.climbs_set_of_lt hn hk hne hm hmk hlen hmk]
      exact S.rooted.climbs_of_le hfp
        ((hm.climbs_iff m).mp .refl f (Digraph.mem_predecessors.mpr hfy) hfp) hx hle
    · have hfp := S.down y (by simp [Placed, h]) f hf hlt
      by_cases hpk : order.idxOf p < k
      · rw [S.climbs_set_of_lt hn hk hne hm hmk hlen hpk]
        exact S.near y p h hy f hf hfy hlt x
          (S.climbs_of_climbs_set O hn hk hne hm hlen hfp hx) hle
      · have hfpar := S.above y p h hy f hf hfy hlt (.inr (by omega))
        exact (S.rooted_set hn hk hne hm hmk hlen).climbs_of_le (placed_set hlen hfp)
          (S.climbs_set_of_le hk hlen hfpar (by omega)) hx hle
  above y p h hy f hf hfy hlt hor := by
    rw [parent?_set hlen] at h
    split at h
    · rename_i hyn
      subst hyn
      cases h
      rw [S.climbs_set_of_lt hn hk hne hm hmk hlen (hk ▸ hlt)]
      exact (hm.climbs_iff m).mp .refl f (Digraph.mem_predecessors.mpr hfy)
        (S.placed f hf (hk ▸ hlt))
    · rename_i hyn
      rcases hor with hyk | hpk
      · have : order.idxOf y ≠ order.idxOf n := fun h' =>
          hyn ((List.idxOf_inj (S.rooted.mem y p h)).mp h')
        have hyk' : order.idxOf y < k := by omega
        rw [S.climbs_set_of_lt hn hk hne hm hmk hlen (by omega)]
        exact S.above y p h hy f hf hfy hlt (.inl hyk')
      · exact S.climbs_set_of_le hk hlen
          (S.above y p h hy f hf hfy hlt (.inr (by omega))) (by omega)

end

end Sweep

end MissBound.DominatorTree
