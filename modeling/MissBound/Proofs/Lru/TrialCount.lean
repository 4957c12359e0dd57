import MissBound.Proofs.Lru.Outcome

/-!
Runs of trials. Trials that follow each other in one run of the innermost loop and lie in one block
form a run; a persistent line can miss where a run begins. The count of the analysis looks at blocks
alone and takes a run for a continuation if it begins in the block of the trial before.
-/

namespace MissBound

section
variable {α : Type} {r : α → α → Bool} {P : α → Bool} {xs all : List α}

/-- The number of elements that do not continue the one before. -/
def breaks (r : α → α → Bool) : Option α → List α → Nat
  | _, [] => 0
  | last, x :: xs => (if last.any (r · x) then 0 else 1) + breaks r (some x) xs

theorem breaks_le_length {last : Option α} : breaks r last xs ≤ xs.length := by
  induction xs generalizing last with
  | nil => exact Nat.le_refl 0
  | cons x xs ih =>
    have hle : breaks r (some x) xs ≤ xs.length := ih
    rw [breaks, List.length_cons]
    split <;> omega

theorem breaks_eq_zero : breaks r none xs = 0 ↔ xs = [] := by
  cases xs with
  | nil => simp [breaks]
  | cons x xs => simp [breaks]

/-- An element of the list continues another one. -/
structure Continues (r : α → α → Bool) (all : List α) (x y : α) : Prop where
  left : x ∈ all
  right : y ∈ all
  next : r x y = true

/-- If no two elements with `P` are connected, there are no more of them than breaks. -/
theorem countP_le_breaks
    (H : ∀ x y, Relation.TransGen (Continues r all) x y → P x = true → P y = true → False) :
    all.countP P ≤ breaks r none all := by
  -- there is room for one more element as long as none with `P` is connected to the last one
  have hsuffix : ∀ (xs : List α) (last : α) (room : Nat), last ∈ all → (∀ x ∈ xs, x ∈ all) →
      (room = 1 ∨ ∃ x, P x = true ∧ Relation.ReflTransGen (Continues r all) x last) →
      xs.countP P ≤ breaks r (some last) xs + room := by
    intro xs
    induction xs with
    | nil => exact fun _ _ _ _ _ => Nat.zero_le _
    | cons x xs ih =>
      intro last room hlast hall hroom
      have hx := hall x List.mem_cons_self
      have hxs : ∀ y ∈ xs, y ∈ all := fun y hy => hall y (List.mem_cons_of_mem _ hy)
      rw [List.countP_cons, breaks, Option.any_some]
      cases hP : P x with
      | true =>
        have hle := ih x 0 hx hxs (.inr ⟨x, hP, .refl⟩)
        cases hr : r last x with
        | false => simp only [if_true, if_neg Bool.false_ne_true]; omega
        | true =>
          rcases hroom with rfl | ⟨y, hy, hpath⟩
          · simp only [if_true]; omega
          · exact (H y x (.tail' hpath ⟨hlast, hx, hr⟩) hy hP).elim
      | false =>
        cases hr : r last x with
        | false =>
          have hle := ih x 1 hx hxs (.inl rfl)
          simp only [if_neg Bool.false_ne_true]
          omega
        | true =>
          have hle := ih x room hx hxs (hroom.imp_right fun ⟨y, hy, hpath⟩ =>
            ⟨y, hy, hpath.tail ⟨hlast, hx, hr⟩⟩)
          simp only [if_true, if_neg Bool.false_ne_true]
          omega
  cases all with
  | nil => exact Nat.le_refl 0
  | cons x xs =>
    have hxs : ∀ y ∈ xs, y ∈ x :: xs := fun y hy => List.mem_cons_of_mem _ hy
    rw [List.countP_cons, breaks, Option.any_none]
    cases hP : P x with
    | true =>
      have hle := hsuffix xs x 0 List.mem_cons_self hxs (.inr ⟨x, hP, .refl⟩)
      simp only [if_true, if_neg Bool.false_ne_true]
      omega
    | false =>
      have hle := hsuffix xs x 1 List.mem_cons_self hxs (.inl rfl)
      simp only [if_neg Bool.false_ne_true]
      omega

end

/-- The next position lies in the same run of the first loop. -/
def Odometer.advances (o o' : Odometer) : Bool :=
  match o.wheels, o'.wheels with
  | w :: rest, w' :: rest' => w' = { w with counter := w.counter + 1 } && rest' = rest
  | _, _ => false

theorem Odometer.advances_iff {o o' : Odometer} : o.advances o' = true ↔ ∃ w rest,
    o.wheels = w :: rest ∧ o'.wheels = { w with counter := w.counter + 1 } :: rest := by
  unfold advances
  split
  · rename_i w rest w' rest' h h'
    rw [Bool.and_eq_true, decide_eq_true_eq, decide_eq_true_eq]
    constructor
    · rintro ⟨rfl, rfl⟩
      exact ⟨w, rest', h, h'⟩
    · rintro ⟨v, vs, hv, hv'⟩
      cases h.symm.trans hv
      cases h'.symm.trans hv'
      exact ⟨rfl, rfl⟩
  · rename_i hnot
    refine ⟨fun h => (by cases h), fun ⟨w, rest, h, h'⟩ => ?_⟩
    exact absurd h' (hnot _ _ _ _ h)

namespace SetDomain

variable {D : SetDomain} {e : Affine} {space : Odometer} {x y : Odometer × Nat}

/-- The trials that lie in the block of the trial before, but not in the same run of the innermost
loop right after it. -/
def repeats (D : SetDomain) (e : Affine) (space : Odometer) : Nat :=
  (D.foldTrials e space
    (fun (acc : Nat × Option (Odometer × Nat)) o block =>
      (if acc.2.any fun last => last.2 == block && !last.1.advances o then acc.1 + 1 else acc.1,
        some (o, block)))
    (0, none)).1

/-- A trial right after another one in the same run of the innermost loop and in the same block. -/
def continues (x y : Odometer × Nat) : Bool := x.2 == y.2 && x.1.advances y.1

/-- A persistent line misses whenever its block changes. -/
theorem countPersistent_eq {looped : Bool} : (D.countPersistent e space looped).2 =
    breaks (fun x y => x.2 == y.2) none (D.trials e space) := by
  have hfold :
      ∀ (xs : List (Odometer × Nat)) (t : Tally) (m : Nat) (last : Option (Odometer × Nat)),
      (xs.foldl (fun (acc : Tally × Nat × Option Nat) x =>
        (if !looped then { acc.1 with mayMiss := acc.1.mayMiss + 1 }
          else if acc.2.2.isNone && !e.isConstant then
            { acc.1 with alwaysMiss := acc.1.alwaysMiss + 1 }
          else { acc.1 with persistent := acc.1.persistent + 1 },
          if acc.2.2 == some x.2 then acc.2.1 else acc.2.1 + 1, some x.2))
        (t, m, last.map (·.2))).2.1 = m + breaks (fun x y => x.2 == y.2) last xs := by
    intro xs
    induction xs with
    | nil => exact fun _ _ _ => rfl
    | cons x xs ih =>
      intro t m last
      rw [List.foldl_cons]
      refine (ih _ _ (some x)).trans ?_
      rw [breaks]
      cases last with
      | none =>
        simp
        omega
      | some y =>
        by_cases hblock : y.2 = x.2
        · simp [hblock]
        · simp [hblock]
          omega
  rw [countPersistent, foldTrials_eq]
  exact (hfold _ _ _ none).trans (Nat.zero_add _)

/-- The misses of a persistent line and the trials overlooked make up the runs of trials. -/
theorem countPersistent_add_repeats {looped : Bool} :
    (D.countPersistent e space looped).2 + D.repeats e space =
      breaks continues none (D.trials e space) := by
  have hfold : ∀ (xs : List (Odometer × Nat)) (n : Nat) (last : Option (Odometer × Nat)),
      breaks (fun x y => x.2 == y.2) last xs +
      (xs.foldl (fun (acc : Nat × Option (Odometer × Nat)) x =>
        (if acc.2.any fun last => last.2 == x.2 && !last.1.advances x.1 then acc.1 + 1 else acc.1,
          some x)) (n, last)).1 = n + breaks continues last xs := by
    intro xs
    induction xs with
    | nil => exact fun _ _ => Nat.zero_add _
    | cons x xs ih =>
      intro n last
      rw [List.foldl_cons, breaks, breaks, Nat.add_assoc, ih]
      cases last with
      | none =>
        simp
        omega
      | some y =>
        by_cases hblock : y.2 = x.2 <;> by_cases hnext : y.1.advances x.1 = true <;>
          simp [continues, hblock, hnext] <;> omega
  rw [countPersistent_eq, repeats, foldTrials_eq]
  exact (hfold _ _ none).trans (Nat.zero_add _)

theorem countOthers_eq {others : List Affine} :
    (D.countOthers e space others).2 = (D.trials e space).length :=
  gains_countOthers.trials.trans (Nat.zero_add _)

/-- Connected trials lie in one block, as all positions between them do, and apart by iterations of
the innermost loop only. -/
theorem blockAt?_of_continues
    (h : Relation.TransGen (Continues continues (D.trials e space)) x y) :
    x.2 = y.2 ∧ ∃ w rest n, 0 < n ∧ x.1.wheels = w :: rest ∧
      y.1.wheels = { w with counter := w.counter + n } :: rest ∧
      ∀ i ≤ n, D.blockAt? e ⟨{ w with counter := w.counter + i } :: rest⟩ = some x.2 := by
  have hat : ∀ z ∈ D.trials e space, ∀ ws, z.1.wheels = ws → D.blockAt? e ⟨ws⟩ = some z.2 := by
    rintro ⟨o, k⟩ hz ws rfl
    exact (mem_trials.mp hz).2
  induction h with
  | @single y h =>
    obtain ⟨hblock, hnext⟩ := (Bool.and_eq_true _ _).mp h.next
    obtain ⟨w, rest, hx, hy⟩ := Odometer.advances_iff.mp hnext
    have hblock : x.2 = y.2 := beq_iff_eq.mp hblock
    refine ⟨hblock, w, rest, 1, Nat.one_pos, hx, hy, fun i hi => ?_⟩
    rcases Nat.le_one_iff_eq_zero_or_eq_one.mp hi with rfl | rfl
    · exact hat x h.left _ hx
    · exact hblock ▸ hat y h.right _ hy
  | @tail y z _ h ih =>
    obtain ⟨hxy, w, rest, n, hn, hx, hy, hbetween⟩ := ih
    obtain ⟨hblock, hnext⟩ := (Bool.and_eq_true _ _).mp h.next
    obtain ⟨v, vs, hy', hz⟩ := Odometer.advances_iff.mp hnext
    cases hy.symm.trans hy'
    have hxz : x.2 = z.2 := hxy.trans (beq_iff_eq.mp hblock)
    refine ⟨hxz, w, rest, n + 1, Nat.succ_pos n, hx, hz, fun i hi => ?_⟩
    rcases Nat.le_succ_iff.mp hi with hi | rfl
    · exact hbetween i hi
    · exact hxz ▸ hat z h.right _ hz

end SetDomain

end MissBound
