import MissBound.Digraph.Dominator
import MissBound.Proofs.Digraph.DepthFirst

/-!
Candidates for immediate dominators form a tree at every moment: each leads to a node that comes
earlier in the order. The meet of two nodes is the place from which both can be climbed past.
-/

namespace MissBound

/-- An order of the nodes reachable from `entry` in which every other one has an earlier
predecessor. -/
structure Digraph.Ordered {α β : Type} (g : Digraph α β) (entry : Nat) (order : List Nat) :
    Prop where
  nodup : order.Nodup
  mem_iff : ∀ n, n ∈ order ↔ g.Reaches entry n
  head : ∃ rest, order = entry :: rest
  before : ∀ n ∈ order, n ≠ entry →
    ∃ p ∈ order, g.Adjacent p n ∧ order.idxOf p < order.idxOf n

theorem idxOf_lt_of_sublist {order : List Nat} {m n : Nat} (hd : order.Nodup)
    (h : [m, n].Sublist order) : order.idxOf m < order.idxOf n := by
  rw [← List.singleton_append] at h
  obtain ⟨u, v, rfl, hm, hn⟩ := List.append_sublist_iff.mp h
  have hm := List.singleton_sublist.mp hm
  have hn := List.singleton_sublist.mp hn
  have hne : n ∉ u := fun h => (List.nodup_append.mp hd).2.2 n h n hn rfl
  rw [List.idxOf_append_of_mem hm, List.idxOf_append_of_notMem hne]
  have := List.idxOf_lt_length_of_mem hm
  omega

theorem Digraph.ordered_reversePostorder {α β : Type} {g : Digraph α β} {root : Nat}
    (hg : g.Closed) (hroot : root < g.nodeCount) : g.Ordered root (g.reversePostorder root) where
  nodup := nodup_reversePostorder hg hroot
  mem_iff _ := mem_reversePostorder hg hroot
  head := reversePostorder_eq_cons hg hroot
  before n hn hne := by
    obtain ⟨p, hp, hpn⟩ := exists_pred_before hg hroot hn hne
    exact ⟨p, hp.subset List.mem_cons_self, hpn,
      idxOf_lt_of_sublist (nodup_reversePostorder hg hroot) hp⟩

namespace DominatorTree

variable {parents : List (Option Nat)} {entry : Nat} {order : List Nat} {a b m n p x y : Nat}

/-- Climbing from `n` along `parents` leads to `a`. -/
def Climbs (parents : List (Option Nat)) : Nat → Nat → Prop :=
  Relation.ReflTransGen fun n p => parent? parents n = some p

def Placed (parents : List (Option Nat)) (n : Nat) : Prop := (parent? parents n).isSome

theorem parent?_set (hn : n < parents.length) :
    parent? (parents.set n (some p)) m = if m = n then some p else parent? parents m := by
  unfold parent?
  split
  · rename_i h
    subst h
    simp [hn]
  · rename_i h
    rw [List.getElem?_set_ne (Ne.symm h)]

theorem lt_length_of_parent? (h : parent? parents n = some p) : n < parents.length := by
  unfold parent? at h
  by_contra hn
  rw [List.getElem?_eq_none (by omega)] at h
  cases h

namespace Climbs

theorem refl : Climbs parents n n := Relation.ReflTransGen.refl

theorem head (h : parent? parents n = some p) (h' : Climbs parents p a) : Climbs parents n a :=
  Relation.ReflTransGen.head h h'

theorem trans (h : Climbs parents n a) (h' : Climbs parents a b) : Climbs parents n b :=
  Relation.ReflTransGen.trans h h'

theorem cases_head (h : Climbs parents n a) :
    n = a ∨ ∃ p, parent? parents n = some p ∧ Climbs parents p a :=
  Relation.ReflTransGen.cases_head h

theorem total (h : Climbs parents n a) (h' : Climbs parents n b) :
    Climbs parents a b ∨ Climbs parents b a :=
  Relation.ReflTransGen.total_of_right_unique
    (fun _ _ _ h₁ h₂ => Option.some.inj (h₁.symm.trans h₂)) h h'

/-- A climb is kept where the parents of the nodes that it passes are. -/
theorem congr {parents' : List (Option Nat)} (h : Climbs parents n a)
    (heq : ∀ y, Climbs parents n y → Climbs parents y a → y ≠ a →
      parent? parents' y = parent? parents y) : Climbs parents' n a := by
  induction h using Relation.ReflTransGen.head_induction_on with
  | refl => exact .refl
  | @head n p hp hpa ih =>
    by_cases hna : n = a
    · exact hna ▸ .refl
    · refine head ?_ (ih fun y hy => heq y (head hp hy))
      rw [heq n refl (head hp hpa) hna, hp]

end Climbs

/-- The parents lead down the order, from every placed node to the entry. -/
structure Rooted (entry : Nat) (order : List Nat) (parents : List (Option Nat)) : Prop where
  root : parent? parents entry = some entry
  mem : ∀ n p, parent? parents n = some p → n ∈ order
  placed : ∀ n p, parent? parents n = some p → Placed parents p
  lt : ∀ n p, parent? parents n = some p → n ≠ entry → order.idxOf p < order.idxOf n

namespace Rooted

variable (R : Rooted entry order parents)
include R

theorem mem_of_placed (h : Placed parents n) : n ∈ order := by
  obtain ⟨p, hp⟩ := Option.isSome_iff_exists.mp h
  exact R.mem n p hp

theorem placed_of_climbs (hn : Placed parents n) (h : Climbs parents n a) : Placed parents a := by
  induction h with
  | refl => exact hn
  | tail _ hp _ => exact R.placed _ _ hp

theorem le_of_parent? (h : parent? parents n = some p) : order.idxOf p ≤ order.idxOf n := by
  by_cases hn : n = entry
  · subst hn
    rw [R.root] at h
    cases h
    exact Nat.le_refl _
  · exact Nat.le_of_lt (R.lt n p h hn)

theorem le_of_climbs (h : Climbs parents n a) : order.idxOf a ≤ order.idxOf n := by
  induction h with
  | refl => exact Nat.le_refl _
  | tail _ hp ih => exact Nat.le_trans (R.le_of_parent? hp) ih

theorem eq_of_climbs (hn : Placed parents n) (h : Climbs parents n a)
    (hle : order.idxOf n ≤ order.idxOf a) : n = a :=
  (List.idxOf_inj (R.mem_of_placed hn)).mp (Nat.le_antisymm hle (R.le_of_climbs h))

theorem climbs_entry (h : Climbs parents entry a) : a = entry := by
  induction h with
  | refl => rfl
  | tail _ hp ih => subst ih; exact Option.some.inj (hp.symm.trans R.root)

/-- Of two nodes above one, the earlier is above the later. -/
theorem climbs_of_le (hn : Placed parents n) (ha : Climbs parents n a) (hb : Climbs parents n b)
    (hle : order.idxOf b ≤ order.idxOf a) : Climbs parents a b := by
  rcases ha.total hb with h | h
  · exact h
  · exact R.eq_of_climbs (R.placed_of_climbs hn hb) h hle ▸ .refl

/-- Climbing from the later of two nodes past itself keeps what both lead to. -/
theorem climbs_and_iff (hlt : order.idxOf b < order.idxOf a) (hp : parent? parents a = some p) :
    Climbs parents p x ∧ Climbs parents b x ↔ Climbs parents a x ∧ Climbs parents b x := by
  constructor
  · exact fun ⟨h₁, h₂⟩ => ⟨.head hp h₁, h₂⟩
  · rintro ⟨h₁, h₂⟩
    refine ⟨?_, h₂⟩
    rcases h₁.cases_head with rfl | ⟨q, hq, h₁⟩
    · have := R.le_of_climbs h₂
      omega
    · rw [hp] at hq
      cases hq
      exact h₁

end Rooted

/-- Climbing from `m` leads to just what climbing from all placed ones of `sources` leads to. -/
structure Meets (parents : List (Option Nat)) (sources : List Nat) (m : Nat) : Prop where
  placed : Placed parents m
  climbs_iff : ∀ x, Climbs parents m x ↔ ∀ q ∈ sources, Placed parents q → Climbs parents q x

section
variable (R : Rooted entry order parents) (hhead : ∃ rest, order = entry :: rest)
include R hhead

theorem ne_entry_of_lt (h : order.idxOf b < order.idxOf a) : a ≠ entry := by
  rintro rfl
  obtain ⟨rest, rfl⟩ := hhead
  simp at h

/-- The search for the meet climbs from the later of two nodes. -/
theorem meet_cases (ha : Placed parents a) (hb : Placed parents b) (hab : a ≠ b) (steps : Nat) :
    (∃ p, parent? parents a = some p ∧ order.idxOf b < order.idxOf a ∧
      order.idxOf p < order.idxOf a ∧
      meet order parents (steps + 1) a b = meet order parents steps p b) ∨
    ∃ p, parent? parents b = some p ∧ order.idxOf a < order.idxOf b ∧
      order.idxOf p < order.idxOf b ∧
      meet order parents (steps + 1) a b = meet order parents steps a p := by
  by_cases hlt : order.idxOf b < order.idxOf a
  · obtain ⟨p, hp⟩ := Option.isSome_iff_exists.mp ha
    refine .inl ⟨p, hp, hlt, R.lt a p hp (ne_entry_of_lt R hhead hlt), ?_⟩
    simp only [meet, hab, if_false, hlt, if_true, hp]
  · have hne : order.idxOf a ≠ order.idxOf b := fun h =>
      hab ((List.idxOf_inj (R.mem_of_placed ha)).mp h)
    have hlt' : order.idxOf a < order.idxOf b := by omega
    obtain ⟨p, hp⟩ := Option.isSome_iff_exists.mp hb
    refine .inr ⟨p, hp, hlt', R.lt b p hp (ne_entry_of_lt R hhead hlt'), ?_⟩
    simp only [meet, hab, if_false, hlt, hp]

theorem meet_spec (steps : Nat) : ∀ a b, Placed parents a → Placed parents b →
    order.idxOf a + order.idxOf b < steps → Placed parents (meet order parents steps a b) ∧
      ∀ x, Climbs parents (meet order parents steps a b) x ↔
        Climbs parents a x ∧ Climbs parents b x := by
  induction steps with
  | zero => intro a b _ _ h; omega
  | succ steps ih =>
    intro a b ha hb hlen
    by_cases hab : a = b
    · subst hab
      simp [meet, ha]
    · rcases meet_cases R hhead ha hb hab steps with ⟨p, hp, hlt, hpa, heq⟩ | ⟨p, hp, hlt, hpb, heq⟩
      · rw [heq]
        obtain ⟨h₁, h₂⟩ := ih p b (R.placed a p hp) hb (by omega)
        exact ⟨h₁, fun x => (h₂ x).trans (R.climbs_and_iff hlt hp)⟩
      · rw [heq]
        obtain ⟨h₁, h₂⟩ := ih a p ha (R.placed b p hp) (by omega)
        refine ⟨h₁, fun x => (h₂ x).trans ?_⟩
        rw [and_comm, R.climbs_and_iff hlt hp, and_comm]

/-- The meet of placed nodes found so far, none if there were none. -/
def Describes (parents : List (Option Nat)) (sources : List Nat) : Option Nat → Prop
  | none => ∀ q ∈ sources, ¬Placed parents q
  | some m => Meets parents sources m

omit R hhead in
theorem Describes.skip {done : List Nat} {best : Option Nat} (h : Describes parents done best)
    (hn : ¬Placed parents n) : Describes parents (done ++ [n]) best := by
  cases best with
  | none =>
    intro q hq
    rcases List.mem_append.mp hq with hq | hq
    · exact h q hq
    · exact List.mem_singleton.mp hq ▸ hn
  | some m =>
    refine ⟨h.placed, fun x => (h.climbs_iff x).trans ⟨fun H q hq hp => ?_, fun H q hq => ?_⟩⟩
    · rcases List.mem_append.mp hq with hq | hq
      · exact H q hq hp
      · exact absurd (List.mem_singleton.mp hq ▸ hp) hn
    · exact H q (List.mem_append_left _ hq)

theorem candidate_describes {sources : List Nat} :
    Describes parents sources (candidate order parents sources) := by
  suffices H : ∀ (rest done : List Nat) (best : Option Nat), Describes parents done best →
      Describes parents (done ++ rest) (rest.foldl (fun best p =>
        if (parent? parents p).isNone then best
        else match best with
          | none => some p
          | some q => some (meet order parents (2 * order.length) p q)) best) by
    exact H sources [] none fun q hq => by cases hq
  intro rest
  induction rest with
  | nil =>
    intro done best h
    simpa using h
  | cons n rest ih =>
    intro done best h
    rw [List.append_cons]
    refine ih _ _ ?_
    by_cases hn : Placed parents n
    · have hnone : (parent? parents n).isNone = false := by
        obtain ⟨p, hp⟩ := Option.isSome_iff_exists.mp hn
        simp [hp]
      have hlen : ∀ q, Placed parents q → order.idxOf q < order.length :=
        fun q hq => List.idxOf_lt_length_of_mem (R.mem_of_placed hq)
      simp only [hnone, Bool.false_eq_true, if_false]
      cases best with
      | none =>
        refine ⟨hn, fun x => ⟨fun hx q hq hp => ?_, fun H => ?_⟩⟩
        · rcases List.mem_append.mp hq with hq | hq
          · exact absurd hp (h q hq)
          · exact List.mem_singleton.mp hq ▸ hx
        · exact H n (List.mem_append_right _ (List.mem_singleton_self n)) hn
      | some q =>
        have h₁ := hlen n hn
        have h₂ := hlen q h.placed
        obtain ⟨hp, hx⟩ := meet_spec R hhead (2 * order.length) n q hn h.placed (by omega)
        refine ⟨hp, fun x => (hx x).trans ?_⟩
        rw [h.climbs_iff]
        constructor
        · rintro ⟨h₁, h₂⟩ r hr hr'
          rcases List.mem_append.mp hr with hr | hr
          · exact h₂ r hr hr'
          · exact List.mem_singleton.mp hr ▸ h₁
        · exact fun H => ⟨H n (List.mem_append_right _ (List.mem_singleton_self n)) hn,
            fun r hr => H r (List.mem_append_left _ hr)⟩
    · have hnone : (parent? parents n).isNone = true := by
        simpa [Placed, Option.isSome_iff_ne_none] using hn
      simp only [hnone, if_true]
      exact h.skip hn

end

end DominatorTree

end MissBound
