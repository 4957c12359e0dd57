import MissBound.Proofs.Lru.Trial
import MissBound.Proofs.Symbolic.Arithmetic

/-!
Runs through iteration spaces, call by call. As long as some wheel can be turned, the position has
not come to its last place; so there are as many positions as the product of the bounds, and the
counters at the position of place `k` are the digits of `k` in the mixed radix of the bounds.
-/

namespace MissBound

namespace Odometer

variable {ws : List Wheel} {o : Odometer} {L : LoopForest} {n c : Nat → Nat} {headers : List Nat}
  {h k k' : Nat}

theorem volume_eq_zero : volume ws = 0 ↔ ∃ w ∈ ws, w.bound = 0 := by
  induction ws with
  | nil => simp [volume]
  | cons w ws ih => simp [volume, ih]

/-- Some wheel can be turned unless the position is the last one. -/
theorem any_lt_iff (h : Valid ws) :
    (ws.any fun w => w.counter + 1 < w.bound) = true ↔ place ws + 1 < volume ws := by
  induction ws with
  | nil => simp [place, volume]
  | cons w ws ih =>
    have hw := h w List.mem_cons_self
    have hws : Valid ws := fun v hv => h v (List.mem_cons_of_mem _ hv)
    have hp := Nat.mul_le_mul_left w.bound (place_lt hws)
    rw [List.any_cons, Bool.or_eq_true, decide_eq_true_iff, ih hws, place, volume]
    rw [Nat.mul_add_one] at hp
    constructor
    · rintro (hlt | hlt)
      · omega
      · have := Nat.mul_lt_mul_of_pos_left hlt (Nat.zero_lt_of_lt hw)
        rw [Nat.mul_add_one] at this
        omega
    · intro hlt
      by_contra hend
      have hlast : place ws + 1 = volume ws := by
        have := place_lt hws
        omega
      rw [← hlast, Nat.mul_add_one] at hlt
      omega

theorem after_succ : after (k + 1) o = (after k o).next := by
  induction k generalizing o with
  | zero => rfl
  | succ k ih => exact ih

/-! Digits. -/

/-- The digit of `k` that counts the loop of `h`, where the loops of `headers` have the bounds `n`
and the first one counts fastest. -/
def digit (n : Nat → Nat) : List Nat → Nat → Nat → Nat
  | [], _, _ => 0
  | x :: headers, k, h => if h = x then k % n x else digit n headers (k / n x) h

/-- Only one number below the product of the bounds has given digits. -/
theorem eq_of_digit (hnodup : headers.Nodup) (hk : k < (headers.map n).prod)
    (hk' : k' < (headers.map n).prod)
    (heq : ∀ x ∈ headers, digit n headers k x = digit n headers k' x) : k = k' := by
  induction headers generalizing k k' with
  | nil =>
    rw [List.map_nil, List.prod_nil] at hk hk'
    omega
  | cons x headers ih =>
    obtain ⟨hx, hnodup⟩ := List.nodup_cons.mp hnodup
    rw [List.map_cons, List.prod_cons] at hk hk'
    have hmod : k % n x = k' % n x := by simpa [digit] using heq x List.mem_cons_self
    have hdiv : k / n x = k' / n x := by
      refine ih hnodup (Nat.div_lt_of_lt_mul hk) (Nat.div_lt_of_lt_mul hk') fun y hy => ?_
      have hne : y ≠ x := fun h => hx (h ▸ hy)
      simpa [digit, hne] using heq y (List.mem_cons_of_mem _ hy)
    rw [← Nat.div_add_mod k (n x), hdiv, hmod, Nat.div_add_mod]

/-- The counters are the digits of the place. -/
theorem counter?_eq_digit (hv : Valid ws) (hb : ∀ w ∈ ws, w.bound = n w.header) :
    (⟨ws⟩ : Odometer).counter? h =
      if h ∈ ws.map (·.header) then some (digit n (ws.map (·.header)) (place ws) h) else none := by
  induction ws with
  | nil => rfl
  | cons w ws ih =>
    have hw := hv w List.mem_cons_self
    have hbound := hb w List.mem_cons_self
    have hrest := ih (fun v hmem => hv v (List.mem_cons_of_mem _ hmem)) fun v hmem =>
      hb v (List.mem_cons_of_mem _ hmem)
    rw [List.map_cons, digit, place, hbound, Nat.add_mul_mod_self_left,
      Nat.mod_eq_of_lt (hbound ▸ hw), Nat.add_mul_div_left _ _ (Nat.zero_lt_of_lt (hbound ▸ hw)),
      Nat.div_eq_of_lt (hbound ▸ hw), Nat.zero_add]
    by_cases hh : h = w.header
    · subst hh
      simp [counter?]
    · have hne : (w.header == h) = false := beq_false_of_ne (Ne.symm hh)
      have hmem : h ∈ w.header :: ws.map (·.header) ↔ h ∈ ws.map (·.header) := by
        rw [List.mem_cons, or_iff_right hh]
      rw [counter?, List.find?_cons, hne, if_neg hh]
      simp only [hmem]
      exact hrest

theorem eval?_eq_none {f : Affine} (h : ∃ x ∈ f.headers, o.counter? x = none) :
    o.eval? f = none := by
  obtain ⟨x, hx, hnone⟩ := h
  obtain ⟨t, ht, rfl⟩ := List.mem_map.mp hx
  have hall : ¬(f.terms.all fun t => (o.counter? t.header).isSome) = true := fun hall => by
    have := List.all_eq_true.mp hall t ht
    rw [hnone] at this
    cases this
  rw [eval?, Affine.eval?, if_neg hall]
  rfl

end Odometer

namespace Traversal

open Odometer

variable {α : Type} {o : Odometer} {t : Traversal} {L : LoopForest} {n c : Nat → Nat}
  {read : Odometer → Option α} {value : (Nat → Nat) → α} {headers : List Nat} {k limit : Nat}

/-- After `k` calls of `next`. -/
def after (read : Odometer → Option α) (k : Nat) (t : Traversal) : Traversal :=
  (fun t => (t.next read).2)^[k] t

theorem after_succ : t.after read (k + 1) = ((t.after read k).next read).2 :=
  Function.iterate_succ_apply' ..

theorem advance_of_done (h : t.done = true) : t.advance = (false, t) := if_pos h

theorem after_of_done (h : t.done = true) : t.after read k = t := by
  refine Function.iterate_fixed ?_ k
  rw [next, advance_of_done h]

/-- While positions are left, each call leads to the next one. -/
theorem advance_after (hz : place o.wheels = 0) (hc : ∀ w ∈ o.wheels, w.counter = 0)
    (hk : k < o.size) :
    ((start o).after read k).advance = (true, ⟨Odometer.after k o, true, false⟩) := by
  rw [size_eq] at hk
  have hpos : 0 < volume o.wheels := Nat.zero_lt_of_lt hk
  have hvalid := valid_of_zero hc hpos
  induction k with
  | zero =>
    have hdone : (o.wheels.any fun w => w.bound == 0) = false := by
      refine List.any_eq_false.mpr fun w hw hzero => ?_
      exact Nat.ne_of_gt hpos (volume_eq_zero.mpr ⟨w, hw, beq_iff_eq.mp hzero⟩)
    simp [after, start, advance, hdone, Odometer.after]
  | succ k ih =>
    have hafter : (start o).after read (k + 1) = ⟨Odometer.after k o, true, false⟩ := by
      rw [after_succ]
      exact congrArg Prod.snd (ih (by omega))
    obtain ⟨hv, halike, hp⟩ := after_spec hvalid (k := k) (by omega)
    have hmoves : ((Odometer.after k o).wheels.any fun w => w.counter + 1 < w.bound) = true := by
      rw [any_lt_iff hv, hp, volume_alike halike]
      omega
    rw [hafter, advance]
    simp [hmoves, Odometer.after_succ]

/-- The call behind the last position marks the end. -/
theorem advance_after_size (hz : place o.wheels = 0) (hc : ∀ w ∈ o.wheels, w.counter = 0)
    (hpos : 0 < o.size) :
    ∃ p, ((start o).after read o.size).advance = (false, ⟨p, true, true⟩) := by
  obtain ⟨m, hm⟩ := Nat.exists_eq_add_one.mpr hpos
  have hlast : (start o).after read o.size = ⟨Odometer.after m o, true, false⟩ := by
    rw [hm, after_succ]
    exact congrArg Prod.snd (advance_after hz hc (by omega))
  rw [size_eq] at hm hpos
  obtain ⟨hv, halike, hp⟩ := after_spec (valid_of_zero hc hpos) (k := m) (by omega)
  have hmoves : ((Odometer.after m o).wheels.any fun w => w.counter + 1 < w.bound) = false := by
    rw [Bool.eq_false_iff, ne_eq, any_lt_iff hv, hp, volume_alike halike]
    omega
  refine ⟨(Odometer.after m o).next, ?_⟩
  rw [hlast, advance]
  simp [hmoves]

/-- Once all positions have been passed, no call leads anywhere. -/
theorem advance_after_of_le (hz : place o.wheels = 0) (hc : ∀ w ∈ o.wheels, w.counter = 0)
    (hk : o.size ≤ k) : ((start o).after read k).advance.1 = false := by
  rcases Nat.eq_zero_or_pos o.size with hzero | hpos
  · obtain ⟨w, hw, hbound⟩ := volume_eq_zero.mp (size_eq.symm.trans hzero)
    have hdone : (start o).done = true :=
      List.any_eq_true.mpr ⟨w, hw, beq_iff_eq.mpr hbound⟩
    rw [after_of_done hdone, advance_of_done hdone]
  · obtain ⟨p, hend⟩ : ∃ p, ((start o).after read o.size).advance = _ :=
      advance_after_size hz hc hpos
    rcases Nat.eq_or_lt_of_le hk with rfl | hlt
    · rw [hend]
    · obtain ⟨j, rfl⟩ := Nat.exists_eq_add_of_lt hlt
      have hsplit : (start o).after read (o.size + j + 1) =
          ((start o).after read (o.size + 1)).after read j := by
        rw [Nat.add_right_comm, Nat.add_comm]
        exact Function.iterate_add_apply ..
      have hnext : (((start o).after read o.size).next read).2 = ⟨p, true, true⟩ :=
        congrArg Prod.snd hend
      rw [hsplit, after_succ, hnext, after_of_done rfl, advance_of_done rfl]

/-- What a call shows, and where it leads. -/
theorem next_after (hz : place o.wheels = 0) (hc : ∀ w ∈ o.wheels, w.counter = 0)
    (hk : k < o.size) : ((start o).after read k).next read =
      (read (Odometer.after k o), ⟨Odometer.after k o, true, false⟩) := by
  rw [next, advance_after hz hc hk]
  rfl

theorem next_after_of_le (hz : place o.wheels = 0) (hc : ∀ w ∈ o.wheels, w.counter = 0)
    (hk : o.size ≤ k) : (((start o).after read k).next read).1 = none := by
  have hend : ((start o).after read k).advance.1 = false := advance_after_of_le hz hc hk
  change (if ((start o).after read k).advance.1 = true then _ else none) = none
  rw [hend]
  rfl

/-- If every position can be read, those collected are the first ones. -/
theorem collect_eq (hz : place o.wheels = 0) (hc : ∀ w ∈ o.wheels, w.counter = 0)
    (hread : ∀ k < o.size, (read (Odometer.after k o)).isSome) :
    (start o).collect read limit =
      (positions (min limit o.size) o).filterMap fun p => (read p).map (p, ·) := by
  suffices H : ∀ k ≤ o.size, ((start o).after read k).collect read limit =
      (positions (min limit (o.size - k)) (Odometer.after k o)).filterMap
        fun p => (read p).map (p, ·) from H 0 (Nat.zero_le _)
  induction limit with
  | zero => intro k _; rw [Nat.zero_min]; rfl
  | succ limit ih =>
    intro k hk
    rw [collect]
    rcases Nat.eq_or_lt_of_le hk with rfl | hlt
    · have hnone : (((start o).after read o.size).next read).1 = none :=
        next_after_of_le hz hc (Nat.le_refl _)
      rw [Nat.sub_self, Nat.min_zero]
      split
      · rename_i heq
        rw [heq] at hnone
        cases hnone
      · rfl
    · obtain ⟨a, ha⟩ := Option.isSome_iff_exists.mp (hread k hlt)
      have hnext : ((start o).after read k).next read = _ := next_after hz hc hlt
      have hrest := ih (k + 1) hlt
      rw [after_succ, hnext, Odometer.after_succ] at hrest
      have hmin : min (limit + 1) (o.size - k) = min limit (o.size - (k + 1)) + 1 := by omega
      rw [hnext, ha, hmin, positions, List.filterMap_cons, ha]
      exact congrArg _ hrest

/-- The calls of `next` run through the loops of `headers`, whose bounds are `n`: call `k` shows
`value` at the digits of `k` and leaves the counters there, up to the product of the bounds, and
from then on no call shows anything. -/
structure Exhausts (n : Nat → Nat) (headers : List Nat) (read : Odometer → Option α)
    (value : (Nat → Nat) → α) (t : Traversal) : Prop where
  shows : ∀ k < (headers.map n).prod,
    ((t.after read k).next read).1 = some (value (digit n headers k))
  counter : ∀ k < (headers.map n).prod, ∀ h, (t.after read (k + 1)).odometer.counter? h =
    if h ∈ headers then some (digit n headers k h) else none
  apply : ∀ k < (headers.map n).prod, ∀ f : Affine, (t.after read (k + 1)).odometer.eval? f =
    if ∀ h ∈ f.headers, h ∈ headers then some (f.eval (digit n headers k)).toNat else none
  ends : ∀ k, (headers.map n).prod ≤ k → ((t.after read k).next read).1 = none

/-- The counters at a position are the digits of its place. -/
theorem counter?_after (h : start? L headers = some o)
    (hn : ∀ x ∈ headers, L.maxIteration? x = some (n x)) (hk : k < o.size) (x : Nat) :
    (Odometer.after k o).counter? x =
      if x ∈ headers then some (digit n headers k x) else none := by
  obtain ⟨hz, hheaders, hbounds⟩ := start?_eq_some h
  rw [size_eq] at hk
  have hvalid := valid_of_zero (fun w hw => (hbounds w hw).2) (Nat.zero_lt_of_lt hk)
  obtain ⟨hv, halike, hp⟩ := after_spec hvalid (k := k) (by omega)
  have hb : ∀ w ∈ (Odometer.after k o).wheels, w.bound = n w.header := by
    intro w hw
    obtain ⟨v, hmem, hheader, hbound⟩ := halike.exists_mem hw
    have hx := hn v.header (hheaders ▸ List.mem_map.mpr ⟨v, hmem, rfl⟩)
    rw [hheader, hbound]
    exact Option.some.inj ((hbounds v hmem).1.symm.trans hx)
  have hcounter := counter?_eq_digit (h := x) hv hb
  rw [halike.headers, hheaders, hp, hz, Nat.zero_add] at hcounter
  exact hcounter

theorem eval?_after (h : start? L headers = some o)
    (hn : ∀ x ∈ headers, L.maxIteration? x = some (n x)) (hk : k < o.size) (f : Affine) :
    (Odometer.after k o).eval? f =
      if ∀ x ∈ f.headers, x ∈ headers then some (f.eval (digit n headers k)).toNat else none := by
  have hcounter := counter?_after h hn hk
  split
  · rename_i hall
    exact eval?_eq_some fun x hx => (hcounter x).trans (if_pos (hall x hx))
  · rename_i hnot
    obtain ⟨x, hx, hnone⟩ : ∃ x ∈ f.headers, x ∉ headers := by simpa using hnot
    exact eval?_eq_none ⟨x, hx, (hcounter x).trans (if_neg hnone)⟩

/-- A run from the start exhausts the iteration space, whatever is read at the positions. -/
theorem exhausts_start (h : start? L headers = some o)
    (hn : ∀ x ∈ headers, L.maxIteration? x = some (n x))
    (hread : ∀ k < o.size, read (Odometer.after k o) = some (value (digit n headers k))) :
    (start o).Exhausts n headers read value := by
  obtain ⟨hz, -, hbounds⟩ := start?_eq_some h
  have hc : ∀ w ∈ o.wheels, w.counter = 0 := fun w hw => (hbounds w hw).2
  have hsize : o.size = (headers.map n).prod := by
    obtain ⟨o', ho', hsize⟩ := exists_start? hn
    rw [h] at ho'
    cases ho'
    exact hsize
  rw [hsize] at hread
  have hafter : ∀ k < (headers.map n).prod,
      ((start o).after read (k + 1)).odometer = Odometer.after k o := fun k hk => by
    rw [after_succ, next_after hz hc (hsize ▸ hk)]
  refine ⟨fun k hk => ?_, fun k hk x => ?_, fun k hk f => ?_, fun k hk => ?_⟩
  · rw [next_after hz hc (hsize ▸ hk)]
    exact hread k hk
  · rw [hafter k hk]
    exact counter?_after h hn (hsize ▸ hk) x
  · rw [hafter k hk]
    exact eval?_after h hn (hsize ▸ hk) f
  · exact next_after_of_le hz hc (hsize ▸ hk)

end Traversal

namespace Affine

open Odometer

variable {L : LoopForest} {e a b : Affine} {o : Odometer} {n : Nat → Nat} {limit : Nat}

/-- The trials of a reference are its values at the first positions. -/
theorem trials?_eq : e.trials? L limit = (e.space? L).map fun o =>
    (min Symbolic.countLimit o.size,
      (positions (min limit o.size) o).filterMap fun p => (p.eval? e).map (p, ·)) := by
  unfold trials?
  cases ho : e.space? L with
  | none => rfl
  | some o =>
    obtain ⟨hz, -, hbounds⟩ := start?_eq_some ho
    have hread : ∀ k < o.size, ((Odometer.after k o).eval? e).isSome := by
      intro k hk
      obtain ⟨c, -, heval⟩ := exists_counters ho hk
      rw [heval e fun t ht => List.mem_map.mpr ⟨t, ht, rfl⟩]
      rfl
    rw [Option.map_some, Option.map_some,
      Traversal.collect_eq hz (fun w hw => (hbounds w hw).2) hread]

/-- The loops of two references, those that they share once. -/
def jointHeaders (a b : Affine) : List Nat :=
  a.headers ++ b.headers.filter fun h => !a.headers.contains h

theorem mem_jointHeaders {h : Nat} : h ∈ jointHeaders a b ↔ h ∈ a.headers ∨ h ∈ b.headers := by
  by_cases ha : h ∈ a.headers <;> simp [jointHeaders, ha]

theorem nodup_jointHeaders (ha : a.headers.Nodup) (hb : b.headers.Nodup) :
    (jointHeaders a b).Nodup := by
  refine List.nodup_append.mpr ⟨ha, hb.sublist List.filter_sublist, fun x hx y hy heq => ?_⟩
  subst heq
  simp [hx] at hy

/-- Every choice of counters below the bounds is spelt by one number. -/
theorem existsUnique_digits {headers : List Nat} {c : Nat → Nat} (hnodup : headers.Nodup)
    (hn : ∀ x ∈ headers, L.maxIteration? x = some (n x)) (hc : ∀ x ∈ headers, c x < n x) :
    ∃! k, k < (headers.map n).prod ∧ ∀ x ∈ headers, digit n headers k x = c x := by
  obtain ⟨o, ho, hsize⟩ := exists_start? hn
  obtain ⟨k, hk, hwheels⟩ := exists_after_setTo (d := c) ho fun x hx m hm => by
    rw [hn x hx] at hm
    cases hm
    exact hc x hx
  have hdigit : ∀ x ∈ headers, digit n headers k x = c x := by
    intro x hx
    have hcounter := Traversal.counter?_after ho hn hk x
    rw [counter?_setTo hwheels (by rw [(start?_eq_some ho).2.1]; exact hx), if_pos hx] at hcounter
    exact (Option.some.inj hcounter).symm
  refine ⟨k, ⟨hsize ▸ hk, hdigit⟩, fun k' hk' => ?_⟩
  exact eq_of_digit hnodup hk'.1 (hsize ▸ hk) fun x hx => (hk'.2 x hx).trans (hdigit x hx).symm

/-- The enumeration of a reference with known bounds shows its value at every number of iterations
of its loops in turn, the first loop counting fastest, and then ends for good. That of two
references does so for the loops of both, where every joint choice of counters comes up once. -/
theorem enumeration_exact (L : LoopForest) (n : Nat → Nat) :
    (∀ e : Affine, (∀ x ∈ e.headers, L.maxIteration? x = some (n x)) →
      ∃ o, e.space? L = some o ∧
        (Traversal.start o).Exhausts n e.headers (·.eval? e) fun c => (e.eval c).toNat) ∧
    ∀ a b : Affine, a.Canonical L → b.Canonical L →
      (∀ x ∈ a.headers ++ b.headers, L.maxIteration? x = some (n x)) →
      ∃ o, jointSpace? L a b = some o ∧
        (Traversal.start o).Exhausts n (jointHeaders a b) (evalBoth? a b)
          (fun c => ((a.eval c).toNat, (b.eval c).toNat)) ∧
        ((jointHeaders a b).Nodup ∧
          ∀ x, x ∈ jointHeaders a b ↔ x ∈ a.headers ∨ x ∈ b.headers) ∧
        ∀ c : Nat → Nat, (∀ x ∈ jointHeaders a b, c x < n x) →
          ∃! k, k < ((jointHeaders a b).map n).prod ∧
            ∀ x ∈ jointHeaders a b, digit n (jointHeaders a b) k x = c x := by
  refine ⟨fun e hn => ?_, fun a b Ca Cb hn => ?_⟩
  · obtain ⟨o, ho, -⟩ := exists_start? hn
    refine ⟨o, ho, Traversal.exhausts_start ho hn fun k hk => ?_⟩
    rw [Traversal.eval?_after ho hn hk, if_pos fun x hx => hx]
  · have hn : ∀ x ∈ jointHeaders a b, L.maxIteration? x = some (n x) := fun x hx =>
      hn x (List.mem_append.mpr (mem_jointHeaders.mp hx))
    have hnodup := nodup_jointHeaders Ca.nodup_headers Cb.nodup_headers
    obtain ⟨o, ho, -⟩ := exists_start? hn
    refine ⟨o, ho, Traversal.exhausts_start ho hn fun k hk => ?_,
      ⟨hnodup, fun _ => mem_jointHeaders⟩, fun c hc => existsUnique_digits hnodup hn hc⟩
    have ha : ∀ x ∈ a.headers, x ∈ jointHeaders a b := fun x hx => mem_jointHeaders.mpr (.inl hx)
    have hb : ∀ x ∈ b.headers, x ∈ jointHeaders a b := fun x hx => mem_jointHeaders.mpr (.inr hx)
    rw [evalBoth?, Traversal.eval?_after ho hn hk, if_pos ha,
      Traversal.eval?_after ho hn hk, if_pos hb]
    rfl

/-- The cells of a matrix of three rows and four columns come up column by column in each row,
twelve of them. Together with a reference that counts rows only, and counts first, they come up row
by row. -/
theorem enumeration_exact_cell :
    (∃ o, Symbolic.cell.space? Symbolic.matrixLoops = some o ∧
      (((Traversal.start o).after (·.eval? Symbolic.cell) 7).next (·.eval? Symbolic.cell)).1 =
        some 0x101c ∧
      ∀ k, 12 ≤ k →
        (((Traversal.start o).after (·.eval? Symbolic.cell) k).next (·.eval? Symbolic.cell)).1 =
        none) ∧
    ∃ o, jointSpace? Symbolic.matrixLoops Symbolic.firstRow Symbolic.cell = some o ∧
      (((Traversal.start o).after (evalBoth? Symbolic.firstRow Symbolic.cell) 7).next
        (evalBoth? Symbolic.firstRow Symbolic.cell)).1 = some (0xfffffff8, 0x1018) := by
  obtain ⟨hone, hboth⟩ := enumeration_exact Symbolic.matrixLoops fun x => if x = 1 then 3 else 4
  obtain ⟨o, ho, E⟩ := hone Symbolic.cell (by decide)
  obtain ⟨p, hp, F, -⟩ := hboth Symbolic.firstRow Symbolic.cell (by decide) (by decide) (by decide)
  exact ⟨⟨o, ho, E.shows 7 (by decide), E.ends⟩, p, hp, F.shows 7 (by decide)⟩

end Affine

end MissBound
