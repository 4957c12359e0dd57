import MissBound.Proofs.Digraph.Sweep

/-!
The dominator tree is right. As sweeps only ever move candidates up, the sum of their places falls
until a sweep changes nothing; climbing from a node then leads to just its dominators.
-/

namespace MissBound.DominatorTree

variable {α β : Type} {g : Digraph α β} {entry : Nat} {order : List Nat}
  {parents : List (Option Nat)} {a b d k m missing n p : Nat}

/-- The sum of the places of the candidates, one that is not there counting as `missing`. -/
def weight (missing : Nat) (order : List Nat) (parents : List (Option Nat)) : Nat :=
  (order.map fun n => (parent? parents n).elim missing order.idxOf).sum

theorem set_parent? (h : parent? parents n = some m) : parents.set n (some m) = parents := by
  refine List.ext_getElem? fun i => ?_
  rw [List.getElem?_set]
  split
  · rename_i hi
    subst hi
    rw [if_pos (lt_length_of_parent? h)]
    rw [parent?, Option.join_eq_some_iff] at h
    exact h.symm
  · rfl

theorem weight_set_lt (hn : n ∈ order) (hlen : n < parents.length)
    (h : order.idxOf m < (parent? parents n).elim missing order.idxOf) :
    weight missing order (parents.set n (some m)) < weight missing order parents := by
  refine List.sum_lt_sum _ _ (fun i _ => ?_) ⟨n, hn, ?_⟩
  · rw [parent?_set hlen]
    split
    · rename_i hi
      exact hi ▸ Nat.le_of_lt h
    · exact Nat.le_refl _
  · rw [parent?_set hlen, if_pos rfl]
    exact h

theorem weight_le (R : Rooted entry order parents) (hmissing : order.length ≤ missing) :
    weight missing order parents ≤ order.length * missing := by
  have h := List.sum_le_card_nsmul (order.map fun n =>
    (parent? parents n).elim missing order.idxOf) missing fun x hx => by
      obtain ⟨n, -, rfl⟩ := List.mem_map.mp hx
      cases hp : parent? parents n with
      | none => exact Nat.le_refl _
      | some p =>
        have hlt := List.idxOf_lt_length_of_mem (R.mem_of_placed (R.placed n p hp))
        exact Nat.le_trans (Nat.le_of_lt hlt) hmissing
  simpa [weight] using h

theorem length_improve : (improve g order parents n).length = parents.length := by
  unfold improve
  split <;> simp

theorem length_pass : (pass g order parents).length = parents.length := by
  unfold pass
  generalize order.drop 1 = rest
  induction rest generalizing parents with
  | nil => rfl
  | cons n rest ih => rw [List.foldl_cons, ih, length_improve]

/-- Every candidate is the meet of the predecessors. -/
def Settled (g : Digraph α β) (order : List Nat) (parents : List (Option Nat)) : Prop :=
  ∀ n ∈ order.drop 1, ∃ m, parent? parents n = some m ∧ Meets parents (g.predecessors n) m

namespace Sweep

variable (O : g.Ordered entry order)

include O in
/-- One improvement, which changes nothing or moves the candidate up. -/
theorem improve (S : Sweep g entry order parents k) (hmissing : order.length ≤ missing)
    (hn : n ∈ order) (hk : order.idxOf n = k) (hne : n ≠ entry) (hlen : n < parents.length) :
    Sweep g entry order (improve g order parents n) (k + 1) ∧
      (improve g order parents n = parents ∧
          (∃ m, parent? parents n = some m ∧ Meets parents (g.predecessors n) m) ∨
        weight missing order (DominatorTree.improve g order parents n) <
          weight missing order parents) := by
  obtain ⟨m, hc, hm, hmk⟩ := S.exists_meets O hn hk hne
  have heq : DominatorTree.improve g order parents n = parents.set n (some m) := by
    rw [DominatorTree.improve, hc]
  rw [heq]
  refine ⟨S.step O hn hk hne hm hmk hlen, ?_⟩
  cases hp : parent? parents n with
  | none =>
    refine .inr (weight_set_lt hn hlen ?_)
    rw [hp]
    have hlt := List.idxOf_lt_length_of_mem (S.rooted.mem_of_placed hm.placed)
    exact Nat.lt_of_lt_of_le hlt hmissing
  | some p =>
    by_cases hmp : m = p
    · exact .inl ⟨set_parent? (hmp ▸ hp), m, hmp ▸ rfl, hm⟩
    · refine .inr (weight_set_lt hn hlen ?_)
      rw [hp]
      have hpm := S.climbs_of_meets O hn hk hne hm hp
      refine Nat.lt_of_not_le fun hle => hmp ?_
      exact (S.rooted.eq_of_climbs (S.rooted.placed n p hp) hpm hle).symm

include O in
/-- The improvement of the node that comes next. -/
theorem improve_next {done rest : List Nat} (S : Sweep g entry order parents done.length)
    (hmissing : order.length ≤ missing) (ho : order = done ++ n :: rest) (hdone : done ≠ [])
    (hlen : ∀ n ∈ order, n < parents.length) :
    Sweep g entry order (DominatorTree.improve g order parents n) (done ++ [n]).length ∧
      (DominatorTree.improve g order parents n = parents ∧
          (∃ m, parent? parents n = some m ∧ Meets parents (g.predecessors n) m) ∨
        weight missing order (DominatorTree.improve g order parents n) <
          weight missing order parents) := by
  have hn : n ∈ order := ho ▸ List.mem_append_right _ List.mem_cons_self
  have hk : order.idxOf n = done.length := by
    have hnd : n ∉ done := fun h =>
      (List.nodup_append.mp (ho ▸ O.nodup)).2.2 n h n List.mem_cons_self rfl
    rw [ho, List.idxOf_append_of_notMem hnd]
    simp
  have hne : n ≠ entry := by
    rintro rfl
    obtain ⟨tail, ht⟩ := O.head
    rw [ht, List.idxOf_cons_self] at hk
    exact hdone (List.length_eq_zero_iff.mp hk.symm)
  rw [List.length_append, List.length_singleton]
  exact S.improve O hmissing hn hk hne (hlen n hn)

include O in
theorem foldl_improve (hmissing : order.length ≤ missing) (rest : List Nat) :
    ∀ (done : List Nat) (parents : List (Option Nat)),
    order = done ++ rest → done ≠ [] → Sweep g entry order parents done.length →
    (∀ n ∈ order, n < parents.length) →
    Sweep g entry order (rest.foldl (DominatorTree.improve g order) parents) order.length ∧
      (rest.foldl (DominatorTree.improve g order) parents = parents ∧
          (∀ n ∈ rest, ∃ m, parent? parents n = some m ∧ Meets parents (g.predecessors n) m) ∨
        weight missing order (rest.foldl (DominatorTree.improve g order) parents) <
          weight missing order parents) := by
  induction rest with
  | nil =>
    intro done parents ho _ S _
    refine ⟨by simpa [ho] using S, .inl ⟨rfl, fun n hn => by cases hn⟩⟩
  | cons n rest ih =>
    intro done parents ho hdone S hlen
    obtain ⟨S', hw⟩ := S.improve_next O hmissing ho hdone hlen
    have hlen' : ∀ x ∈ order, x < (DominatorTree.improve g order parents n).length := by
      rw [length_improve]
      exact hlen
    obtain ⟨S'', hw'⟩ := ih (done ++ [n]) _ (by simpa using ho) (by simp) S' hlen'
    refine ⟨S'', ?_⟩
    rcases hw with ⟨heq, hm⟩ | hlt <;> rcases hw' with ⟨heq', hms⟩ | hlt'
    · refine .inl ⟨heq'.trans heq, fun x hx => ?_⟩
      rcases List.mem_cons.mp hx with rfl | hx
      · exact hm
      · exact heq ▸ hms x hx
    · exact .inr (by rw [heq] at hlt'; simpa [heq] using hlt')
    · exact .inr (by rw [List.foldl_cons, heq']; exact hlt)
    · exact .inr (Nat.lt_trans hlt' hlt)

include O in
/-- A whole pass. -/
theorem pass (S : Sweep g entry order parents 1) (hmissing : order.length ≤ missing)
    (hlen : ∀ n ∈ order, n < parents.length) :
    Sweep g entry order (pass g order parents) order.length ∧
      (pass g order parents = parents ∧ Settled g order parents ∨
        weight missing order (DominatorTree.pass g order parents) <
          weight missing order parents) := by
  obtain ⟨tail, ht⟩ := O.head
  exact foldl_improve O hmissing (order.drop 1) [entry] parents (by simp [ht]) (by simp) S hlen

/-- After a sweep the next one can begin. -/
theorem again (S : Sweep g entry order parents order.length) : Sweep g entry order parents 1 where
  rooted := S.rooted
  placed n hn _ := S.placed n hn (List.idxOf_lt_length_of_mem hn)
  down := S.down
  sound := S.sound
  bound := S.bound
  near := S.near
  above n p hp hne f hf hfn hlt _ :=
    S.above n p hp hne f hf hfn hlt (.inl (List.idxOf_lt_length_of_mem (S.rooted.mem n p hp)))

include O in
theorem start (nodes : Nat) (he : entry < nodes) :
    Sweep g entry order ((List.replicate nodes none).set entry (some entry)) 1 := by
  have hparent : ∀ n, parent? ((List.replicate nodes none).set entry (some entry)) n =
      if n = entry then some entry else none := by
    intro n
    rw [parent?_set (by simpa using he)]
    congr 1
    rw [parent?, List.getElem?_replicate]
    split <;> rfl
  have hentry : ∀ n p, parent? ((List.replicate nodes none).set entry (some entry)) n = some p →
      n = entry := by
    intro n p h
    rw [hparent] at h
    exact (Option.ite_none_right_eq_some.mp h).1
  obtain ⟨tail, ht⟩ := O.head
  refine ⟨⟨?_, ?_, ?_, ?_⟩, ?_, ?_, ?_, ?_, ?_, ?_⟩
  · simp [hparent]
  · intro n p h
    exact hentry n p h ▸ ht ▸ List.mem_cons_self
  · intro n p h
    rw [hparent] at h
    obtain ⟨-, hp⟩ := Option.ite_none_right_eq_some.mp h
    cases hp
    simp [Placed, hparent]
  · exact fun n p h hne => absurd (hentry n p h) hne
  · intro n hn hlt
    have : n = entry := by
      rw [ht] at hn hlt
      rcases List.mem_cons.mp hn with h | h
      · exact h
      · by_contra hne
        rw [List.idxOf_cons_ne _ (Ne.symm hne)] at hlt
        omega
    subst this
    simp [Placed, hparent]
  · intro n hn m _ hlt
    obtain ⟨p, hp⟩ := Option.isSome_iff_exists.mp hn
    rw [hentry n p hp, ht, List.idxOf_cons_self] at hlt
    omega
  all_goals exact fun n p h hne => absurd (hentry n p h) hne

include O in
/-- Enough rounds lead to candidates that no sweep changes. -/
theorem settle (rounds : Nat) : ∀ parents : List (Option Nat), Sweep g entry order parents 1 →
    (∀ n ∈ order, n < parents.length) → weight order.length order parents < rounds →
    Sweep g entry order (settle g order rounds parents) order.length ∧
      Settled g order (DominatorTree.settle g order rounds parents) := by
  induction rounds with
  | zero => intro _ _ _ h; omega
  | succ rounds ih =>
    intro parents S hlen hw
    obtain ⟨S', hor⟩ := S.pass O (Nat.le_refl _) hlen
    simp only [DominatorTree.settle]
    split
    · rename_i heq
      rcases hor with ⟨-, hms⟩ | hlt
      · exact ⟨heq ▸ S', hms⟩
      · rw [heq] at hlt
        omega
    · rename_i hne
      rcases hor with ⟨heq, -⟩ | hlt
      · exact absurd heq hne
      · refine ih _ S'.again (fun n hn => ?_) (by omega)
        rw [length_pass]
        exact hlen n hn

end Sweep

/-- A tree over `order` in which climbing leads to just the dominators. -/
structure Represents (g : Digraph α β) (entry : Nat) (order : List Nat)
    (parents : List (Option Nat)) : Prop where
  rooted : Rooted entry order parents
  placed_iff : ∀ n, Placed parents n ↔ g.Reaches entry n
  climbs_iff : ∀ n, g.Reaches entry n → ∀ d, Climbs parents n d ↔ g.Dominates entry d n

theorem Settled.dominates (O : g.Ordered entry order) (S : Sweep g entry order parents order.length)
    (hs : Settled g order parents) (h : Climbs parents n d) : g.Dominates entry d n := by
  intro w hw
  induction hw with
  | start => exact List.mem_singleton.mpr (S.rooted.climbs_entry h)
  | @step m n w hw hmn ih =>
    rcases h.cases_head with rfl | ⟨p, hp, hpd⟩
    · exact List.mem_cons_self
    · by_cases hne : n = entry
      · subst hne
        exact List.mem_cons.mpr (.inl (S.rooted.climbs_entry h))
      · obtain ⟨tail, ht⟩ := O.head
        have hn : n ∈ order.drop 1 := by
          have := S.rooted.mem n p hp
          rw [ht] at this ⊢
          exact (List.mem_cons.mp this).resolve_left hne
        obtain ⟨q, hq, hqm⟩ := hs n hn
        rw [hp] at hq
        cases hq
        have hm := (O.mem_iff m).mpr ⟨w, hw⟩
        refine List.mem_cons_of_mem _ (ih ?_)
        exact (hqm.climbs_iff d).mp hpd m (Digraph.mem_predecessors.mpr hmn)
          (S.placed m hm (List.idxOf_lt_length_of_mem hm))

section
variable (hg : g.Closed) (he : entry < g.nodeCount)
include hg he

theorem length_reversePostorder_le : (g.reversePostorder entry).length ≤ g.nodeCount :=
  Search.length_le_of_lt (Digraph.nodup_reversePostorder hg he) fun _ =>
    Digraph.reversePostorder_lt hg he

theorem represents_of :
    Represents g entry (g.reversePostorder entry) (of g entry).parents := by
  have O := Digraph.ordered_reversePostorder hg he
  have S₀ := Sweep.start O g.nodeCount he
  have hw := weight_le S₀.rooted (Nat.le_refl _)
  have hlen := length_reversePostorder_le hg he
  have hsq := Nat.mul_le_mul hlen hlen
  obtain ⟨S, hs⟩ := Sweep.settle O (g.nodeCount * g.nodeCount + 1) _ S₀
    (fun n hn => by simpa using Digraph.reversePostorder_lt hg he hn) (by omega)
  have hplaced : ∀ n, g.Reaches entry n → Placed (of g entry).parents n := fun n hn =>
    S.placed n ((O.mem_iff n).mpr hn) (List.idxOf_lt_length_of_mem ((O.mem_iff n).mpr hn))
  refine ⟨S.rooted, fun n => ⟨fun h => ?_, hplaced n⟩, fun n hn d => ⟨fun h => ?_, fun h => ?_⟩⟩
  · exact (O.mem_iff n).mp (S.rooted.mem_of_placed h)
  · exact hs.dominates O S h
  · exact S.climbs_of_dominates (hplaced n hn) h

theorem isReachable_of : (of g entry).isReachable n = true ↔ g.Reaches entry n :=
  (represents_of hg he).placed_iff n

end

/-- The depths count the climbs to the entry. -/
structure Measured (entry : Nat) (done : List Nat) (parents : List (Option Nat))
    (depths : List Nat) : Prop where
  root : depths[entry]?.getD 0 = 0
  succ : ∀ n p, parent? parents n = some p → n ≠ entry → n ∈ done →
    depths[n]?.getD 0 = depths[p]?.getD 0 + 1

theorem measured_foldl (O : g.Ordered entry order) (R : Rooted entry order parents)
    (rest : List Nat) : ∀ (done : List Nat) (depths : List Nat), order = done ++ rest →
    done ≠ [] → (∀ n ∈ order, n < depths.length) → Measured entry done parents depths →
    Measured entry order parents (rest.foldl (fun depths n =>
      match parent? parents n with
      | some p => depths.set n (depths[p]?.getD 0 + 1)
      | none => depths) depths) := by
  induction rest with
  | nil =>
    intro done depths ho _ _ M
    rw [ho, List.append_nil]
    exact M
  | cons n rest ih =>
    intro done depths ho hdone hlen M
    have hnd : n ∉ done := fun h =>
      (List.nodup_append.mp (ho ▸ O.nodup)).2.2 n h n List.mem_cons_self rfl
    have hentry : entry ∈ done := by
      obtain ⟨tail, ht⟩ := O.head
      obtain ⟨d, done, rfl⟩ := List.exists_cons_of_ne_nil hdone
      rw [ht, List.cons_append] at ho
      cases ho
      exact List.mem_cons_self
    -- parents come before their children, so that their depths are final
    have hbefore : ∀ m p, parent? parents m = some p → m ≠ entry → m ∈ done ++ [n] → p ∈ done := by
      intro m p hp hm hmem
      have hlt := R.lt m p hp hm
      by_contra hpd
      rw [ho, List.idxOf_append_of_notMem hpd] at hlt
      rcases List.mem_append.mp hmem with h | h
      · rw [List.idxOf_append_of_mem h] at hlt
        have := List.idxOf_lt_length_of_mem h
        omega
      · cases List.mem_singleton.mp h
        rw [List.idxOf_append_of_notMem hnd, List.idxOf_cons_self] at hlt
        omega
    have hn : n ∈ order := ho ▸ List.mem_append_right _ List.mem_cons_self
    rw [List.foldl_cons]
    refine ih (done ++ [n]) _ (by simpa using ho) (by simp) (fun x hx => ?_) ?_
    · split
      · simpa using hlen x hx
      · exact hlen x hx
    · have hset : ∀ (v m : Nat), m ∈ done → (depths.set n v)[m]?.getD 0 = depths[m]?.getD 0 := by
        intro v m hm
        rw [List.getElem?_set_ne]
        rintro rfl
        exact hnd hm
      cases hp : parent? parents n with
      | none =>
        refine ⟨M.root, fun m p hmp hm hmem => M.succ m p hmp hm ?_⟩
        rcases List.mem_append.mp hmem with h | h
        · exact h
        · cases List.mem_singleton.mp h
          rw [hp] at hmp
          cases hmp
      | some q =>
        refine ⟨by rw [hset _ _ hentry, M.root], fun m p hmp hm hmem => ?_⟩
        have hpd := hbefore m p hmp hm hmem
        rw [hset _ _ hpd]
        rcases List.mem_append.mp hmem with h | h
        · rw [hset _ _ h, M.succ m p hmp hm h]
        · cases List.mem_singleton.mp h
          rw [hp] at hmp
          cases hmp
          rw [List.getElem?_set_self (hlen n hn)]
          rfl

theorem measured_of (hg : g.Closed) (he : entry < g.nodeCount) :
    Measured entry (g.reversePostorder entry) (of g entry).parents (of g entry).depths := by
  have O := Digraph.ordered_reversePostorder hg he
  have R := (represents_of hg he).rooted
  have hzero : ∀ n : Nat, (List.replicate g.nodeCount 0)[n]?.getD 0 = 0 := by
    intro n
    rw [List.getElem?_replicate]
    split <;> rfl
  obtain ⟨tail, ht⟩ := O.head
  refine measured_foldl O R ((g.reversePostorder entry).drop 1) [entry] _ (by simp [ht]) (by simp)
    (fun n hn => by simpa using Digraph.reversePostorder_lt hg he hn) ⟨hzero entry, ?_⟩
  exact fun n p _ hne hn => absurd (List.mem_singleton.mp hn) hne

section
variable {t : DominatorTree}

theorem climbs_of_above? (levels : Nat) : ∀ n, t.above? levels n = some a →
    Climbs t.parents n a := by
  induction levels with
  | zero =>
    intro n h
    cases h
    exact .refl
  | succ levels ih =>
    intro n h
    obtain ⟨p, hp, hpa⟩ := Option.bind_eq_some_iff.mp h
    unfold immediate? at hp
    split at hp
    · cases hp
    · exact .head hp (ih p hpa)

theorem above?_of_climbs (R : Rooted t.entry order t.parents)
    (M : Measured t.entry order t.parents t.depths) (h : Climbs t.parents n a) :
    t.depth a ≤ t.depth n ∧ t.above? (t.depth n - t.depth a) n = some a := by
  induction h using Relation.ReflTransGen.head_induction_on with
  | refl => simp [above?]
  | @head n p hp hpa ih =>
    by_cases hne : n = t.entry
    · subst hne
      cases R.climbs_entry (Climbs.head hp hpa)
      simp [above?]
    · have hd : t.depth n = t.depth p + 1 := M.succ n p hp hne (R.mem n p hp)
      obtain ⟨hle, habove⟩ := ih
      have hsub : t.depth n - t.depth a = t.depth p - t.depth a + 1 := by omega
      refine ⟨by omega, ?_⟩
      rw [hsub, above?, immediate?, if_neg hne, hp]
      exact habove

end

section
variable (hg : g.Closed) (he : entry < g.nodeCount)
include hg he

theorem dominates_of : (of g entry).dominates a b = true ↔
    g.Reaches entry b ∧ g.Dominates entry a b := by
  have T := represents_of hg he
  have M := measured_of hg he
  rw [dominates, Bool.and_eq_true, Bool.and_eq_true, beq_iff_eq, isReachable_of hg he,
    isReachable_of hg he]
  constructor
  · rintro ⟨⟨-, hb⟩, habove⟩
    exact ⟨hb, (T.climbs_iff b hb a).mp (climbs_of_above? _ _ habove)⟩
  · rintro ⟨hb, hab⟩
    have ha := hab.reaches hb
    have R : Rooted (of g entry).entry _ (of g entry).parents := T.rooted
    exact ⟨⟨ha, hb⟩, (above?_of_climbs R M ((T.climbs_iff b hb a).mpr hab)).2⟩

/-- Strict dominators lie strictly higher in the tree. -/
theorem depth_lt_of_dominates (hb : g.Reaches entry b) (hab : g.Dominates entry a b)
    (hne : a ≠ b) : (of g entry).depth a < (of g entry).depth b := by
  have T := represents_of hg he
  have R : Rooted (of g entry).entry _ (of g entry).parents := T.rooted
  obtain ⟨hle, habove⟩ := above?_of_climbs R (measured_of hg he) ((T.climbs_iff b hb a).mpr hab)
  refine Nat.lt_of_le_of_ne hle fun h => hne ?_
  rw [h, Nat.sub_self] at habove
  exact (Option.some.inj habove).symm

/-- Of two dominators of a node one dominates the other. -/
theorem dominates_total (hb : g.Reaches entry b) (ha : g.Dominates entry a b)
    (hd : g.Dominates entry d b) : g.Dominates entry a d ∨ g.Dominates entry d a := by
  have T := represents_of hg he
  rcases ((T.climbs_iff b hb a).mpr ha).total ((T.climbs_iff b hb d).mpr hd) with h | h
  · exact .inr ((T.climbs_iff a (ha.reaches hb) d).mp h)
  · exact .inl ((T.climbs_iff d (hd.reaches hb) a).mp h)

end

end MissBound.DominatorTree
