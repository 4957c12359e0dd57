import MissBound.Proofs.Lru.Concrete
import MissBound.Proofs.Platform.Geometry

/-!
What a cache holds after many uses. A block is still in its set if and only if fewer other blocks of
the set than it has lines were used since, so that a use matters only until the next one of the same
block, and leaving out others never evicts a block.
-/

namespace MissBound

/-- Splits a list at the last element with a property. -/
theorem exists_last {α : Type} {P : α → Prop} {xs : List α} (h : ∃ x ∈ xs, P x) :
    ∃ u x v, xs = u ++ x :: v ∧ P x ∧ ∀ y ∈ v, ¬P y := by
  induction xs with
  | nil => exact absurd h (by simp)
  | cons a xs ih =>
    by_cases hxs : ∃ x ∈ xs, P x
    · obtain ⟨u, x, v, rfl, hx, hv⟩ := ih hxs
      exact ⟨a :: u, x, v, rfl, hx, hv⟩
    · obtain ⟨x, hx, hP⟩ := h
      rcases List.mem_cons.mp hx with rfl | hx
      · exact ⟨[], x, xs, rfl, hP, fun y hy hPy => hxs ⟨y, hy, hPy⟩⟩
      · exact absurd ⟨x, hx, hP⟩ hxs

namespace LruSet

variable {ways : Nat} {s : LruSet ways} {b x : Nat} {u v bs newer older : List Nat} {S : Finset Nat}

/-- The set after the uses of some blocks in order. -/
def touchAll (s : LruSet ways) (bs : List Nat) : LruSet ways := bs.foldl touch s

theorem touchAll_append : s.touchAll (u ++ v) = (s.touchAll u).touchAll v := List.foldl_append

/-- The block `x` was used last, apart from the blocks in `S`: it is behind them, if there is
room. -/
def Behind (s : LruSet ways) (x : Nat) (S : Finset Nat) : Prop :=
  if S.card < ways then ∃ newer older, s.blocks = newer ++ x :: older ∧ newer.toFinset = S
  else x ∉ s.blocks

theorem behind_touch : (s.touch x).Behind x ∅ := by
  unfold Behind
  split
  · rename_i hw
    obtain ⟨n, rfl⟩ : ∃ n, ways = n + 1 := ⟨ways - 1, by simp at hw; omega⟩
    exact ⟨[], (s.blocks.erase x).take n, rfl, rfl⟩
  · rename_i hw
    have hzero : ways = 0 := by simpa using hw
    subst hzero
    exact List.not_mem_nil

section
variable (hblocks : s.blocks = newer ++ x :: older)
include hblocks

theorem length_newer : newer.length = newer.toFinset.card := by
  have hnodup := s.nodup
  rw [hblocks] at hnodup
  exact (List.toFinset_card_of_nodup (List.nodup_append.mp hnodup).1).symm

/-- A second use of a newer block. -/
theorem touch_newer (hb : b ∈ newer) (hlen : newer.length < ways) :
    ∃ older', (s.touch b).blocks = (b :: newer.erase b) ++ x :: older' := by
  have hlen' : (b :: newer.erase b).length = newer.length := by
    rw [List.length_cons, List.length_erase_of_mem hb]
    have := List.length_pos_of_mem hb
    omega
  obtain ⟨k, hk⟩ : ∃ k, ways - newer.length = k + 1 := ⟨ways - newer.length - 1, by omega⟩
  refine ⟨older.take k, ?_⟩
  change (b :: s.blocks.erase b).take ways = _
  rw [hblocks, List.erase_append_left _ hb, ← List.cons_append, List.take_append,
    List.take_of_length_le (by omega), hlen', hk, List.take_succ_cons]

/-- The use of another block. -/
theorem touch_other (hb : b ∉ newer) (hne : b ≠ x) :
    ∃ older', (s.touch b).blocks = (b :: newer ++ x :: older').take ways := by
  refine ⟨older.erase b, ?_⟩
  change (b :: s.blocks.erase b).take ways = _
  rw [hblocks, List.erase_append_right _ hb, List.erase_cons_tail (by simpa using hne.symm),
    List.cons_append]

end

/-- The use of one more block. -/
theorem Behind.touch (h : s.Behind x S) (hne : b ≠ x) : (s.touch b).Behind x (insert b S) := by
  unfold Behind at h
  split at h
  · obtain ⟨newer, older, hblocks, rfl⟩ := h
    have hlen := length_newer hblocks
    have hnodup := s.nodup
    rw [hblocks] at hnodup
    obtain ⟨hnewer, -, hdisj⟩ := List.nodup_append.mp hnodup
    by_cases hb : b ∈ newer
    · obtain ⟨older', htouch⟩ := touch_newer hblocks hb (by omega)
      rw [Finset.insert_eq_of_mem (List.mem_toFinset.mpr hb), Behind, if_pos ‹_›]
      refine ⟨_, older', htouch, ?_⟩
      ext y
      simp only [List.toFinset_cons, Finset.mem_insert, List.mem_toFinset, hnewer.mem_erase_iff]
      by_cases hy : y = b
      · simp [hy, hb]
      · simp [hy]
    · obtain ⟨older', htouch⟩ := touch_other hblocks hb hne
      have hcard : (insert b newer.toFinset).card = newer.length + 1 := by
        rw [Finset.card_insert_of_notMem (fun h => hb (List.mem_toFinset.mp h)), hlen]
      unfold Behind
      rw [hcard, htouch]
      split
      · obtain ⟨k, hk⟩ : ∃ k, ways - (newer.length + 1) = k + 1 :=
          ⟨ways - newer.length - 2, by omega⟩
        refine ⟨b :: newer, older'.take k, ?_, List.toFinset_cons⟩
        rw [List.take_append, List.take_of_length_le (by rw [List.length_cons]; omega),
          List.length_cons, hk, List.take_succ_cons]
      · -- the set is full of newer blocks
        have hfull : ways = (b :: newer).length := by rw [List.length_cons]; omega
        rw [hfull, List.take_left, List.mem_cons, not_or]
        exact ⟨hne.symm, fun h => hdisj x h x List.mem_cons_self rfl⟩
  · rw [Behind, if_neg fun hlt => ‹¬_› (Nat.lt_of_le_of_lt (Finset.card_le_card
      (Finset.subset_insert b S)) hlt)]
    intro hmem
    rcases List.mem_cons.mp (List.mem_of_mem_take hmem) with rfl | hmem
    · exact hne rfl
    · exact h (List.mem_of_mem_erase hmem)

theorem Behind.touchAll (h : s.Behind x S) (hx : x ∉ v) :
    (s.touchAll v).Behind x (S ∪ v.toFinset) := by
  induction v generalizing s S with
  | nil => rwa [List.toFinset_nil, Finset.union_empty]
  | cons b v ih =>
    rw [List.mem_cons, not_or] at hx
    rw [List.toFinset_cons, Finset.union_insert, ← Finset.insert_union]
    exact ih (h.touch (Ne.symm hx.1)) hx.2

/-- A block is in the set as long as fewer others than there are lines were used since. -/
theorem mem_touchAll (hx : x ∉ v) :
    x ∈ (s.touchAll (u ++ x :: v)).blocks ↔ v.toFinset.card < ways := by
  have h : ((s.touchAll u).touch x |>.touchAll v).Behind x (∅ ∪ v.toFinset) :=
    behind_touch.touchAll hx
  rw [Finset.empty_union] at h
  rw [touchAll_append]
  change x ∈ (((s.touchAll u).touch x).touchAll v).blocks ↔ _
  unfold Behind at h
  split at h
  · obtain ⟨newer, older, hblocks, -⟩ := h
    exact iff_of_true (by rw [hblocks]; simp) ‹_›
  · exact iff_of_false h ‹_›

theorem not_mem_touchAll (hs : x ∉ s.blocks) (hx : x ∉ bs) : x ∉ (s.touchAll bs).blocks := by
  induction bs generalizing s with
  | nil => exact hs
  | cons b bs ih =>
    rw [List.mem_cons, not_or] at hx
    refine ih (fun h => ?_) hx.2
    rcases List.mem_cons.mp (List.mem_of_mem_take h) with h | h
    · exact hx.1 h
    · exact hs (List.mem_of_mem_erase h)

end LruSet

namespace CacheContent

variable {g : Geometry} {c : CacheContent g} {i : Nat} {as : List Nat}

/-- The contents after the uses of some addresses in order. -/
def touchAll (c : CacheContent g) (as : List Nat) : CacheContent g := as.foldl touch c

theorem touchAll_append {bs : List Nat} : c.touchAll (as ++ bs) = (c.touchAll as).touchAll bs :=
  List.foldl_append

/-- The memory blocks of a set that are used by some addresses. -/
def blocksIn (g : Geometry) (i : Nat) (as : List Nat) : List Nat :=
  (as.filter fun a => g.set a == i).map g.block

/-- Sets do not mind each other. -/
theorem touchAll_apply : c.touchAll as i = (c i).touchAll (blocksIn g i as) := by
  induction as generalizing c with
  | nil => rfl
  | cons a as ih =>
    change (c.touch a).touchAll as i = _
    rw [ih, blocksIn, blocksIn, List.filter_cons]
    by_cases h : g.set a = i
    · subst h
      rw [if_pos (beq_self_eq_true _), touch_self]
      rfl
    · rw [if_neg (by simpa using h), touch_of_ne _ h]

theorem hits_touchAll {a : Nat} : (c.touchAll as).hits a = true ↔
    g.block a ∈ ((c (g.set a)).touchAll (blocksIn g (g.set a) as)).blocks := by
  rw [hits, touchAll_apply, List.contains_iff_mem]

section
variable {ι : Type} {p : ι → Bool} {f : ι → Nat} {items u v : List ι} {x y : ι} {a b : Nat}

theorem mem_blocksIn_filter : b ∈ blocksIn g i ((items.filter p).map f) ↔
    ∃ x ∈ items, p x = true ∧ g.set (f x) = i ∧ g.block (f x) = b := by
  simp only [blocksIn, List.mem_map, List.mem_filter, beq_iff_eq]
  constructor
  · rintro ⟨a, ⟨⟨x, ⟨hx, hp⟩, rfl⟩, hset⟩, hb⟩
    exact ⟨x, hx, hp, hset, hb⟩
  · rintro ⟨x, hx, hp, hset, hb⟩
    exact ⟨_, ⟨⟨x, ⟨hx, hp⟩, rfl⟩, hset⟩, hb⟩

/-- Whether a block is in the cache is decided by its last use, whatever the cache held before. -/
theorem hits_iff_of_last (hlast : ∀ x ∈ v, p x = true → g.block (f x) ≠ g.block a)
    (hy : p y = true) (hblock : g.block (f y) = g.block a) :
    (c.touchAll (((u ++ y :: v).filter p).map f)).hits a = true ↔
      (blocksIn g (g.set a) ((v.filter p).map f)).toFinset.card < g.ways := by
  have happend : blocksIn g (g.set a) (((u ++ y :: v).filter p).map f) =
      blocksIn g (g.set a) ((u.filter p).map f) ++
        g.block a :: blocksIn g (g.set a) ((v.filter p).map f) := by
    simp [blocksIn, hy, hblock, g.set_eq_of_block_eq hblock]
  rw [hits_touchAll, happend, LruSet.mem_touchAll]
  intro hlater
  obtain ⟨x, hx, hp, -, hb⟩ := mem_blocksIn_filter.mp hlater
  exact hlast x hx hp hb

/-- A block has a last use if it came into an empty cache. -/
theorem exists_last_use
    (h : ((empty : CacheContent g).touchAll ((items.filter p).map f)).hits a = true) :
    ∃ u y v, items = u ++ y :: v ∧ p y = true ∧ g.block (f y) = g.block a ∧
      ∀ x ∈ v, p x = true → g.block (f x) ≠ g.block a := by
  have hused : g.block a ∈ blocksIn g (g.set a) ((items.filter p).map f) := by
    by_contra hnot
    exact LruSet.not_mem_touchAll List.not_mem_nil hnot (hits_touchAll.mp h)
  obtain ⟨x, hx, hp, -, hb⟩ := mem_blocksIn_filter.mp hused
  obtain ⟨u, y, v, rfl, ⟨hy, hblock⟩, hv⟩ := exists_last
    (P := fun x => p x = true ∧ g.block (f x) = g.block a) ⟨x, hx, hp, hb⟩
  exact ⟨u, y, v, rfl, hy, hblock, fun x hx hp hb => hv x hx ⟨hp, hb⟩⟩

end

end CacheContent

end MissBound
