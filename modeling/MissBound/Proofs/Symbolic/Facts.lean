import MissBound.Proofs.Symbolic.Value
import MissBound.Symbolic.Facts

/-!
Looking up what is known. Facts have one entry per key, so that the value of a key after an
operation comes from its values before.
-/

namespace MissBound

theorem Symbolic.isTop_iff {v : Symbolic} : v.isTop = true ↔ v = .top := by
  cases v <;> simp [isTop]

@[simp] theorem Symbolic.join_top {L : LoopForest} {v : Symbolic} : v.join L .top = .top := by
  cases v <;> rfl

@[simp] theorem Symbolic.top_join {L : LoopForest} {v : Symbolic} : top.join L v = .top := by
  cases v <;> rfl

@[simp] theorem Symbolic.top_widen {L : LoopForest} {h : Nat} {v : Symbolic} :
    widen L h .top v = .top := by
  cases v <;> rfl

namespace Facts

variable {κ : Type} {f a b : Facts κ} {es : List (κ × Symbolic)} {e : κ × Symbolic} {k k' : κ}
  {v : Symbolic} {Q Q' : Symbolic → Prop} {R : κ → κ → Prop} {L : LoopForest}

/-- All known values have a property. -/
def All (Q : Symbolic → Prop) (f : Facts κ) : Prop := ∀ e ∈ f.entries, Q e.2

theorem All.filter {keep : κ × Symbolic → Bool} (h : f.All Q) :
    (⟨f.entries.filter keep⟩ : Facts κ).All Q :=
  fun e he => h e (List.mem_of_mem_filter he)

/-- What is kept of each entry decides what is kept of all. -/
theorem All.filterMap {g : κ × Symbolic → Option (κ × Symbolic)} (h : f.All Q)
    (hg : ∀ e, Q e.2 → ∀ e' ∈ g e, Q' e'.2) : (⟨f.entries.filterMap g⟩ : Facts κ).All Q' := by
  intro e' he'
  obtain ⟨e, he, hge⟩ := List.mem_filterMap.mp he'
  exact hg e (h e he) e' hge

theorem entry?_eq_some : entry? k v = some e ↔ v ≠ .top ∧ e = (k, v) := by
  unfold entry?
  split
  · rename_i h
    simp [Symbolic.isTop_iff.mp h]
  · rename_i h
    rw [Symbolic.isTop_iff] at h
    simp [h, eq_comm]

theorem All.map {g : Symbolic → Symbolic} (h : f.All Q) (hg : ∀ v, Q v → Q' (g v)) :
    (f.map g).All Q' := by
  refine h.filterMap fun e he e' he' => ?_
  obtain ⟨-, rfl⟩ := entry?_eq_some.mp he'
  exact hg _ he

theorem key_of_mem_entry? (h : e ∈ entry? k v) : e.1 = k := by
  obtain ⟨-, rfl⟩ := entry?_eq_some.mp h
  rfl

/-- The unknown value is not stored. -/
def Known (f : Facts κ) : Prop := f.All (· ≠ .top)

theorem known_filterMap {g : κ × Symbolic → Symbolic} :
    (⟨es.filterMap fun e => entry? e.1 (g e)⟩ : Facts κ).Known := by
  intro e' he'
  obtain ⟨e, -, he⟩ := List.mem_filterMap.mp he'
  obtain ⟨hne, rfl⟩ := entry?_eq_some.mp he
  exact hne

/-- Entries whose keys are related in the order in which they stand. -/
def Keyed (R : κ → κ → Prop) (f : Facts κ) : Prop := f.entries.Pairwise fun x y => R x.1 y.1

theorem Keyed.filter {keep : κ × Symbolic → Bool} (h : f.Keyed R) :
    (⟨f.entries.filter keep⟩ : Facts κ).Keyed R :=
  List.Pairwise.filter _ h

theorem Keyed.filterMap {g : κ × Symbolic → Option (κ × Symbolic)} (h : f.Keyed R)
    (hg : ∀ e, ∀ e' ∈ g e, e'.1 = e.1) : (⟨f.entries.filterMap g⟩ : Facts κ).Keyed R := by
  refine List.Pairwise.filterMap _ (fun x y hxy x' hx' y' hy' => ?_) h
  rw [hg x x' hx', hg y y' hy']
  exact hxy

theorem Keyed.map {g : Symbolic → Symbolic} (h : f.Keyed R) : (f.map g).Keyed R :=
  h.filterMap fun _ _ => key_of_mem_entry?

variable [Ord κ]

/-- Entries by ascending key. -/
def Sorted (f : Facts κ) : Prop := f.entries.Pairwise fun x y => compare x.1 y.1 = .lt

theorem find?_cons : (⟨e :: es⟩ : Facts κ).find? k =
    if compare k e.1 = .eq then some e.2 else (⟨es⟩ : Facts κ).find? k := by
  simp only [find?, List.find?_cons]
  split
  · rename_i h
    rw [if_pos (beq_iff_eq.mp h)]
    rfl
  · rename_i h
    rw [if_neg (by simpa using h)]

theorem get_cons :
    (⟨e :: es⟩ : Facts κ).get k = if compare k e.1 = .eq then e.2 else (⟨es⟩ : Facts κ).get k := by
  rw [get, find?_cons]
  split <;> rfl

theorem get_of_find?_eq_none (h : f.find? k = none) : f.get k = .top := by
  rw [get, h]
  rfl

theorem get_of_forall_ne (h : ∀ e ∈ f.entries, compare k e.1 ≠ .eq) : f.get k = .top := by
  refine get_of_find?_eq_none (Option.map_eq_none_iff.mpr (List.find?_eq_none.mpr fun e he => ?_))
  simpa using h e he

theorem All.find? (h : f.All Q) (hv : f.find? k = some v) : Q v := by
  obtain ⟨e, he, rfl⟩ := Option.map_eq_some_iff.mp hv
  exact h e (List.mem_of_find?_eq_some he)

theorem find?_eq_some_iff (h : f.Known) : f.find? k = some v ↔ f.get k = v ∧ v ≠ .top := by
  constructor
  · intro hv
    rw [get, hv]
    exact ⟨rfl, h.find? hv⟩
  · rintro ⟨rfl, hne⟩
    cases hv : f.find? k with
    | none => exact absurd (get_of_find?_eq_none hv) hne
    | some v =>
      rw [get, hv]
      rfl

theorem All.get (h : f.All Q) (htop : Q .top) : Q (f.get k) := by
  cases hf : f.find? k with
  | none => exact get_of_find?_eq_none hf ▸ htop
  | some v =>
    rw [Facts.get, hf]
    exact h.find? hf

theorem mem_insertEntry (h : e ∈ Facts.insertEntry k v es) : e = (k, v) ∨ e ∈ es := by
  induction es with
  | nil => exact .inl (List.mem_singleton.mp h)
  | cons x es ih =>
    unfold Facts.insertEntry at h
    split at h
    · exact List.mem_cons.mp h
    · exact (List.mem_cons.mp h).imp_right (List.mem_cons_of_mem _)
    · rcases List.mem_cons.mp h with rfl | h
      · exact .inr List.mem_cons_self
      · exact (ih h).imp_right (List.mem_cons_of_mem _)

theorem All.insertEntry (h : (⟨es⟩ : Facts κ).All Q) (hv : Q v) :
    (⟨Facts.insertEntry k v es⟩ : Facts κ).All Q := by
  intro e he
  rcases mem_insertEntry he with rfl | he
  · exact hv
  · exact h e he

theorem All.set (h : f.All Q) (hv : Q v) : (f.set k v).All Q := by
  unfold Facts.set
  split
  · exact h.filter
  · exact All.insertEntry h hv

/-- A join goes through the entries of one side. -/
theorem join_eq : a.join L b =
    ⟨a.entries.filterMap fun e => entry? e.1 (e.2.join L (b.get e.1))⟩ := by
  unfold join
  congr 2
  funext e
  cases h : b.find? e.1 with
  | none => rw [get_of_find?_eq_none h, Symbolic.join_top]; rfl
  | some w => rw [get, h]; rfl

theorem All.join (ha : a.All Q) (hb : b.All Q) (htop : Q .top)
    (hQ : ∀ v w, Q v → Q w → Q (v.join L w)) : (a.join L b).All Q := by
  rw [join_eq]
  refine ha.filterMap fun e he e' he' => ?_
  obtain ⟨-, rfl⟩ := entry?_eq_some.mp he'
  exact hQ _ _ he (hb.get htop)

theorem All.combine {g : Symbolic → Symbolic → Symbolic} (ha : a.All Q) (hb : b.All Q)
    (htop : Q .top) (hQ : ∀ v w, Q v → Q w → Q (g v w)) : (a.combine g b).All Q := by
  refine List.foldlRecOn (motive := All Q) _ _ ?_ fun acc h e he => ?_
  · refine ha.filterMap fun e he e' he' => ?_
    obtain ⟨-, rfl⟩ := entry?_eq_some.mp he'
    exact hQ _ _ he (hb.get htop)
  · exact h.set (hQ _ _ htop (hb e (List.mem_of_mem_filter he)))

theorem Known.set (h : f.Known) : (f.set k v).Known := by
  unfold Facts.set
  split
  · exact h.filter
  · rename_i hne
    exact All.insertEntry h fun heq => hne (Symbolic.isTop_iff.mpr heq)

theorem Known.combine {g : Symbolic → Symbolic → Symbolic} : (a.combine g b).Known :=
  List.foldlRecOn (motive := Known) _ _ known_filterMap fun _ h _ _ => h.set

theorem Keyed.join (h : a.Keyed R) : (a.join L b).Keyed R := by
  rw [join_eq]
  exact h.filterMap fun _ _ => key_of_mem_entry?

/-- A combination under which unknown values stay unknown adds no key. -/
theorem Keyed.combine {g : Symbolic → Symbolic → Symbolic} (hg : ∀ v, g .top v = .top)
    (h : a.Keyed R) : (a.combine g b).Keyed R := by
  refine List.foldlRecOn (motive := Keyed R) _ _ (h.filterMap fun _ _ => key_of_mem_entry?)
    fun acc hacc e _ => ?_
  rw [hg]
  exact hacc.filter

theorem sorted_empty : (empty : Facts κ).Sorted := .nil

theorem Sorted.filter {keep : κ × Symbolic → Bool} (h : f.Sorted) :
    (⟨f.entries.filter keep⟩ : Facts κ).Sorted :=
  Keyed.filter (R := (compare · · = .lt)) h

theorem Sorted.filterMap {g : κ × Symbolic → Option (κ × Symbolic)} (h : f.Sorted)
    (hg : ∀ e, ∀ e' ∈ g e, e'.1 = e.1) : (⟨f.entries.filterMap g⟩ : Facts κ).Sorted :=
  Keyed.filterMap (R := (compare · · = .lt)) h hg

theorem Sorted.map {g : Symbolic → Symbolic} (h : f.Sorted) : (f.map g).Sorted :=
  Keyed.map (R := (compare · · = .lt)) h

theorem Sorted.join (h : a.Sorted) : (a.join L b).Sorted :=
  Keyed.join (R := (compare · · = .lt)) h

section
variable [Std.LawfulEqOrd κ]

/-- Keeping entries by their keys keeps what is known of these. -/
theorem find?_filter (keep : κ → Bool) :
    (⟨f.entries.filter fun e => keep e.1⟩ : Facts κ).find? k =
    if keep k then f.find? k else none := by
  obtain ⟨es⟩ := f
  induction es with
  | nil => exact (ite_self _).symm
  | cons e es ih =>
    simp only [List.filter_cons]
    split
    · rename_i hkeep
      rw [find?_cons, find?_cons, ih]
      split
      · rename_i heq
        rw [Std.LawfulEqOrd.eq_of_compare heq, if_pos hkeep]
      · rfl
    · rename_i hkeep
      rw [ih, find?_cons]
      by_cases heq : compare k e.1 = .eq
      · rw [Std.LawfulEqOrd.eq_of_compare heq, if_neg hkeep, if_neg hkeep]
      · rw [if_neg heq]

theorem find?_insertEntry : (⟨insertEntry k v es⟩ : Facts κ).find? k' =
    if compare k' k = .eq then some v else (⟨es⟩ : Facts κ).find? k' := by
  induction es with
  | nil => exact find?_cons
  | cons e es ih =>
    unfold insertEntry
    split
    · exact find?_cons
    · rename_i heq
      rw [find?_cons, find?_cons, ← Std.LawfulEqOrd.eq_of_compare heq]
      split <;> rfl
    · rename_i hgt
      rw [find?_cons, find?_cons, ih]
      by_cases hk : compare k' k = .eq
      · rw [Std.LawfulEqOrd.eq_of_compare hk, hgt, if_neg (by decide),
          if_pos Std.ReflCmp.compare_self, if_pos Std.ReflCmp.compare_self]
      · rw [if_neg hk, if_neg hk]

theorem find?_set : (f.set k v).find? k' =
    if compare k' k = .eq then if v.isTop then none else some v else f.find? k' := by
  unfold set
  split
  · have hkeep : (compare k k' != .eq) = true ↔ ¬compare k' k = .eq := by
      rw [bne_iff_ne, ne_eq, Std.LawfulEqCmp.compare_eq_iff_eq, Std.LawfulEqCmp.compare_eq_iff_eq,
        eq_comm]
    rw [find?_filter (compare k · != .eq)]
    split
    · rename_i h
      rw [if_neg (hkeep.mp h)]
    · rename_i h
      rw [if_pos (not_not.mp (mt hkeep.mpr h))]
  · exact find?_insertEntry

theorem get_set : (f.set k v).get k' = if compare k' k = .eq then v else f.get k' := by
  rw [get, find?_set]
  split
  · split
    · rename_i htop
      exact (Symbolic.isTop_iff.mp htop).symm
    · rfl
  · rfl

end

section
variable [Std.TransOrd κ]

/-- A new key is related to the keys behind it, and those before it to the new one. -/
theorem Keyed.insertEntry (hs : (⟨es⟩ : Facts κ).Sorted) (h : (⟨es⟩ : Facts κ).Keyed R)
    (hlt : ∀ x ∈ es, compare k x.1 = .lt → R k x.1)
    (hgt : ∀ x ∈ es, compare k x.1 = .gt → R x.1 k) :
    (⟨Facts.insertEntry k v es⟩ : Facts κ).Keyed R := by
  induction es with
  | nil => exact List.pairwise_singleton ..
  | cons e es ih =>
    obtain ⟨he, hes⟩ := List.pairwise_cons.mp hs
    obtain ⟨hRe, hRes⟩ := List.pairwise_cons.mp h
    have hbehind : ∀ x ∈ es, compare k e.1 ≠ .gt → R k x.1 := by
      intro x hx hle
      apply hlt x (List.mem_cons_of_mem _ hx)
      exact Std.TransCmp.lt_of_isLE_of_lt (Ordering.isLE_iff_ne_gt.mpr hle) (he x hx)
    unfold Facts.insertEntry
    split
    · rename_i hke
      refine List.pairwise_cons.mpr ⟨fun x hx => ?_, h⟩
      rcases List.mem_cons.mp hx with rfl | hx
      · exact hlt x List.mem_cons_self hke
      · exact hbehind x hx (by rw [hke]; exact Ordering.noConfusion)
    · rename_i hke
      refine List.pairwise_cons.mpr ⟨fun x hx => ?_, hRes⟩
      exact hbehind x hx (by rw [hke]; exact Ordering.noConfusion)
    · rename_i hke
      refine List.pairwise_cons.mpr ⟨fun x hx => ?_, ih hes hRes
        (fun x hx => hlt x (List.mem_cons_of_mem _ hx)) fun x hx =>
        hgt x (List.mem_cons_of_mem _ hx)⟩
      rcases mem_insertEntry hx with rfl | hx
      · exact hgt e List.mem_cons_self hke
      · exact hRe x hx

theorem Sorted.insertEntry (h : (⟨es⟩ : Facts κ).Sorted) :
    (⟨Facts.insertEntry k v es⟩ : Facts κ).Sorted :=
  Keyed.insertEntry (R := (compare · · = .lt)) h h (fun _ _ hlt => hlt)
    fun _ _ hgt => Std.OrientedCmp.lt_of_gt hgt

theorem Sorted.set (h : f.Sorted) : (f.set k v).Sorted := by
  unfold Facts.set
  split
  · exact h.filter
  · exact Sorted.insertEntry h

theorem Sorted.combine {g : Symbolic → Symbolic → Symbolic} (h : a.Sorted) :
    (a.combine g b).Sorted :=
  List.foldlRecOn (motive := Sorted) _ _ (h.filterMap fun _ _ => key_of_mem_entry?)
    fun _ h _ _ => h.set

/-- The entry of a key is the only one. -/
theorem get_of_head (h : (⟨e :: es⟩ : Facts κ).Sorted) (hk : compare k e.1 = .eq) :
    (⟨es⟩ : Facts κ).get k = .top := by
  refine get_of_forall_ne fun x hx heq => ?_
  have hlt := Std.TransCmp.lt_of_eq_of_lt hk ((List.pairwise_cons.mp h).1 x hx)
  exact Ordering.noConfusion (heq.symm.trans hlt)

section
variable [Std.LawfulEqOrd κ]

/-- Replacing values key by key replaces what is looked up. -/
theorem get_filterMap {g : κ → Symbolic → Symbolic} (hg : ∀ k, g k .top = .top) (h : f.Sorted) :
    (⟨f.entries.filterMap fun e => entry? e.1 (g e.1 e.2)⟩ : Facts κ).get k = g k (f.get k) := by
  obtain ⟨es⟩ := f
  induction es with
  | nil => exact (hg k).symm
  | cons e es ih =>
    have ih := ih (List.pairwise_cons.mp h).2
    simp only [List.filterMap_cons, get_cons]
    split
    · rename_i hnone
      rw [ih]
      split
      · rename_i hk
        have hk' := Std.LawfulEqOrd.eq_of_compare hk
        rw [get_of_head h hk, hg, hk']
        by_contra hne
        rw [entry?_eq_some.mpr ⟨Ne.symm hne, rfl⟩] at hnone
        cases hnone
      · rfl
    · rename_i hsome
      obtain ⟨-, rfl⟩ := entry?_eq_some.mp hsome
      rw [get_cons, ih]
      split
      · rename_i hk
        rw [Std.LawfulEqOrd.eq_of_compare hk]
      · rfl

theorem get_join (h : a.Sorted) : (a.join L b).get k = (a.get k).join L (b.get k) := by
  rw [join_eq]
  exact get_filterMap (g := fun k v => v.join L (b.get k)) (fun _ => Symbolic.top_join) h

/-- A combination under which unknown values stay unknown goes key by key. -/
theorem get_combine {g : Symbolic → Symbolic → Symbolic} (hg : ∀ v, g .top v = .top)
    (h : a.Sorted) : (a.combine g b).get k = g (a.get k) (b.get k) := by
  refine List.foldlRecOn (motive := fun acc : Facts κ => acc.get k = g (a.get k) (b.get k)) _ _
    (get_filterMap (g := fun k v => g v (b.get k)) (fun _ => hg _) h) fun acc ih e he => ?_
  rw [get_set, hg]
  split
  · rename_i hk
    have hnone : a.find? k = none := by
      rw [Std.LawfulEqOrd.eq_of_compare hk]
      exact Option.isNone_iff_eq_none.mp (List.mem_filter.mp he).2
    rw [get_of_find?_eq_none hnone, hg]
  · exact ih

end

end

/-- Facts that operations on registers and memory can yield. -/
structure Proper (L : LoopForest) (P : Nat → Prop) (f : Facts κ) : Prop where
  sorted : f.Sorted
  known : f.Known
  values : f.All (·.Proper L P)

theorem proper_empty {P : Nat → Prop} : (empty : Facts κ).Proper L P :=
  ⟨sorted_empty, fun e he => (by cases he), fun e he => (by cases he)⟩

namespace Proper

variable {P P' : Nat → Prop} (h : f.Proper L P)
include h

theorem get : (f.get k).Proper L P := h.values.get .top

theorem filter {keep : κ × Symbolic → Bool} : (⟨f.entries.filter keep⟩ : Facts κ).Proper L P :=
  ⟨h.sorted.filter, h.known.filter, h.values.filter⟩

theorem mono (hP : ∀ n, P n → P' n) : f.Proper L P' :=
  { h with values := fun e he => (h.values e he).mono fun _ _ _ _ => hP _ }

theorem map {g : Symbolic → Symbolic} (hg : ∀ v : Symbolic, v.Proper L P → (g v).Proper L P') :
    (f.map g).Proper L P' :=
  ⟨h.sorted.map, known_filterMap, h.values.map hg⟩

theorem set [Std.TransOrd κ] (hv : v.Proper L P) : (f.set k v).Proper L P :=
  ⟨h.sorted.set, h.known.set, h.values.set hv⟩

theorem join {f' : Facts κ} (h' : f'.Proper L P) : (f.join L f').Proper L P where
  sorted := h.sorted.join
  known := by
    rw [join_eq]
    exact known_filterMap
  values := h.values.join h'.values .top fun _ _ => Symbolic.proper_join

theorem combine [Std.TransOrd κ] {f' : Facts κ} {g : Symbolic → Symbolic → Symbolic}
    (h' : f'.Proper L P)
    (hg : ∀ v w : Symbolic, v.Proper L P → w.Proper L P → (g v w).Proper L P) :
    (f.combine g f').Proper L P :=
  ⟨h.sorted.combine, .combine, h.values.combine h'.values .top hg⟩

end Proper

end Facts

end MissBound
