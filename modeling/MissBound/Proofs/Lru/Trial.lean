import MissBound.Lru.Trial
import MissBound.Proofs.Symbolic.Affine

/-!
An odometer passes every position of its iteration space once. The place of a position is the number
that its counters spell, the first one least significant; a turn moves to the next place.
-/

namespace MissBound.Odometer

variable {ws vs : List Wheel} {o : Odometer} {L : LoopForest} {c : Nat → Nat} {k n : Nat}

/-- Every counter lies below its bound. -/
def Valid (ws : List Wheel) : Prop := ∀ w ∈ ws, w.counter < w.bound

/-- The number of turns from all counters at zero. -/
def place : List Wheel → Nat
  | [] => 0
  | w :: rest => w.counter + w.bound * place rest

def volume : List Wheel → Nat
  | [] => 1
  | w :: rest => w.bound * volume rest

/-- Wheels of the same loops, whatever their counters. -/
def Alike (ws vs : List Wheel) : Prop :=
  ws.map (fun w => (w.header, w.bound)) = vs.map fun w => (w.header, w.bound)

theorem size_eq : o.size = volume o.wheels := by
  suffices H : ∀ (ws : List Wheel) (n : Nat), ws.foldl (fun n w => n * w.bound) n = n * volume ws by
    rw [size, H, Nat.one_mul]
  intro ws
  induction ws with
  | nil => simp [volume]
  | cons w ws ih =>
    intro n
    rw [List.foldl_cons, ih, volume, Nat.mul_assoc]

theorem volume_alike (h : Alike ws vs) : volume ws = volume vs := by
  induction ws generalizing vs with
  | nil =>
    cases vs with
    | nil => rfl
    | cons v vs => cases h
  | cons w ws ih =>
    cases vs with
    | nil => cases h
    | cons v vs =>
      obtain ⟨h, hrest⟩ := List.cons.inj h
      rw [volume, volume, ih hrest, (Prod.mk.inj h).2]

theorem bound_pos (h : 0 < volume ws) : ∀ w ∈ ws, 0 < w.bound := by
  induction ws with
  | nil => simp
  | cons w ws ih =>
    obtain ⟨hw, hws⟩ := CanonicallyOrderedAdd.mul_pos.mp h
    simpa [hw] using ih hws

/-- Wheels that stand at zero stand below their bounds. -/
theorem valid_of_zero (hc : ∀ w ∈ ws, w.counter = 0) (h : 0 < volume ws) : Valid ws := by
  intro w hw
  rw [hc w hw]
  exact bound_pos h w hw

theorem Alike.headers (h : Alike ws vs) : ws.map (·.header) = vs.map (·.header) := by
  simpa [Function.comp_def] using congrArg (List.map Prod.fst) h

theorem Alike.exists_mem {w : Wheel} (h : Alike ws vs) (hw : w ∈ ws) :
    ∃ v ∈ vs, w.header = v.header ∧ w.bound = v.bound := by
  have hmem : (w.header, w.bound) ∈ vs.map fun w => (w.header, w.bound) :=
    h ▸ List.mem_map.mpr ⟨w, hw, rfl⟩
  obtain ⟨v, hv, heq⟩ := List.mem_map.mp hmem
  obtain ⟨hheader, hbound⟩ := Prod.mk.inj heq
  exact ⟨v, hv, hheader.symm, hbound.symm⟩

theorem alike_turn : Alike (turn ws) ws := by
  induction ws with
  | nil => rfl
  | cons w ws ih =>
    unfold turn
    split
    · rfl
    · exact congrArg ((w.header, w.bound) :: ·) ih

theorem valid_turn (h : Valid ws) : Valid (turn ws) := by
  induction ws with
  | nil => exact h
  | cons w ws ih =>
    have hw := h w List.mem_cons_self
    have hws : Valid ws := fun v hv => h v (List.mem_cons_of_mem _ hv)
    unfold turn
    split
    · rename_i hlt
      intro v hv
      rcases List.mem_cons.mp hv with rfl | hv
      · exact hlt
      · exact hws v hv
    · intro v hv
      rcases List.mem_cons.mp hv with rfl | hv
      · exact Nat.zero_lt_of_lt hw
      · exact ih hws v hv

theorem place_lt (h : Valid ws) : place ws < volume ws := by
  induction ws with
  | nil => exact Nat.one_pos
  | cons w ws ih =>
    have hw := h w List.mem_cons_self
    have hp := ih fun v hv => h v (List.mem_cons_of_mem _ hv)
    have hmul : w.bound * (place ws + 1) ≤ w.bound * volume ws := Nat.mul_le_mul_left _ hp
    rw [place, volume]
    rw [Nat.mul_add] at hmul
    omega

/-- A turn leads to the next place. -/
theorem place_turn (h : Valid ws) (hlt : place ws + 1 < volume ws) :
    place (turn ws) = place ws + 1 := by
  induction ws with
  | nil => simp [volume] at hlt
  | cons w ws ih =>
    have hw := h w List.mem_cons_self
    unfold turn
    split
    · simp only [place]
      omega
    · rename_i hend
      have hbound : w.counter + 1 = w.bound := by omega
      have hrest : place ws + 1 < volume ws := by
        refine Nat.lt_of_mul_lt_mul_left (a := w.bound) ?_
        rw [place, volume] at hlt
        rw [Nat.mul_add]
        omega
      simp only [place, ih (fun v hv => h v (List.mem_cons_of_mem _ hv)) hrest, Nat.mul_add]
      omega

/-- A place belongs to one position only. -/
theorem eq_of_place (ha : Alike ws vs) (hw : Valid ws) (hv : Valid vs)
    (hp : place ws = place vs) : ws = vs := by
  induction ws generalizing vs with
  | nil =>
    cases vs with
    | nil => rfl
    | cons v vs => cases ha
  | cons w ws ih =>
    cases vs with
    | nil => cases ha
    | cons v vs =>
      obtain ⟨h, hrest⟩ := List.cons.inj ha
      obtain ⟨hh, hb⟩ := Prod.mk.inj h
      have hw₀ := hw w List.mem_cons_self
      have hv₀ := hv v List.mem_cons_self
      simp only [place] at hp
      have hmod : w.counter = v.counter := by
        have := congrArg (· % w.bound) hp
        simp only [Nat.add_mul_mod_self_left] at this
        rw [hb, Nat.add_mul_mod_self_left, Nat.mod_eq_of_lt hv₀] at this
        rw [Nat.mod_eq_of_lt (hb ▸ hw₀)] at this
        exact this
      have hdiv : place ws = place vs := by
        rw [hmod, hb] at hp
        exact Nat.eq_of_mul_eq_mul_left (Nat.zero_lt_of_lt hv₀) (Nat.add_left_cancel hp)
      have hws : Valid ws := fun x hx => hw x (List.mem_cons_of_mem _ hx)
      have hvs : Valid vs := fun x hx => hv x (List.mem_cons_of_mem _ hx)
      rw [ih hrest hws hvs hdiv]
      obtain ⟨wh, wb, wc⟩ := w
      obtain ⟨vh, vb, vc⟩ := v
      simp only at hh hb hmod
      rw [hh, hb, hmod]

/-- The next `n` positions. -/
def positions : Nat → Odometer → List Odometer
  | 0, _ => []
  | n + 1, o => o :: positions n o.next

/-- The position after `k` turns. -/
def after : Nat → Odometer → Odometer
  | 0, o => o
  | k + 1, o => after k o.next

theorem anyNext_iff {p : Odometer → Bool} : anyNext p n o = true ↔
    ∃ k < n, p (after k o) = true := by
  induction n generalizing o with
  | zero => simp [anyNext]
  | succ n ih =>
    rw [anyNext, Bool.or_eq_true, ih]
    constructor
    · rintro (h | ⟨k, hk, h⟩)
      · exact ⟨0, Nat.zero_lt_succ n, h⟩
      · exact ⟨k + 1, Nat.succ_lt_succ hk, h⟩
    · rintro ⟨k, hk, h⟩
      cases k with
      | zero => exact .inl h
      | succ k => exact .inr ⟨k, Nat.lt_of_succ_lt_succ hk, h⟩

theorem mem_positions {o' : Odometer} : o' ∈ positions n o ↔ ∃ k < n, o' = after k o := by
  induction n generalizing o with
  | zero => simp [positions]
  | succ n ih =>
    rw [positions, List.mem_cons, ih]
    constructor
    · rintro (rfl | ⟨k, hk, rfl⟩)
      · exact ⟨0, Nat.zero_lt_succ n, rfl⟩
      · exact ⟨k + 1, Nat.succ_lt_succ hk, rfl⟩
    · rintro ⟨k, hk, rfl⟩
      cases k with
      | zero => exact .inl rfl
      | succ k => exact .inr ⟨k, Nat.lt_of_succ_lt_succ hk, rfl⟩

theorem length_positions : (positions n o).length = n := by
  induction n generalizing o with
  | zero => rfl
  | succ n ih => rw [positions, List.length_cons, ih]

/-- What is known of the position after `k` turns. -/
theorem after_spec (hv : Valid o.wheels) (hk : place o.wheels + k < volume o.wheels) :
    Valid (after k o).wheels ∧ Alike (after k o).wheels o.wheels ∧
      place (after k o).wheels = place o.wheels + k := by
  induction k generalizing o with
  | zero => exact ⟨hv, rfl, rfl⟩
  | succ k ih =>
    have hp : place (turn o.wheels) = place o.wheels + 1 := place_turn hv (by omega)
    have hvol : volume (turn o.wheels) = volume o.wheels := volume_alike alike_turn
    obtain ⟨h₁, h₂, h₃⟩ := ih (o := o.next) (valid_turn hv) (by
      change place (turn o.wheels) + k < volume (turn o.wheels)
      omega)
    refine ⟨h₁, h₂.trans alike_turn, ?_⟩
    change place (after k o.next).wheels = place o.wheels + (k + 1)
    rw [h₃]
    change place (turn o.wheels) + k = _
    omega

/-- The wheels of some loops with given counters. -/
def setTo (d : Nat → Nat) (ws : List Wheel) : List Wheel :=
  ws.map fun w => { w with counter := d w.header }

/-- Every position of the iteration space is passed. -/
theorem exists_after {d : Nat → Nat} (hz : place o.wheels = 0) (hv : Valid o.wheels)
    (hd : ∀ w ∈ o.wheels, d w.header < w.bound) :
    ∃ k < o.size, (after k o).wheels = setTo d o.wheels := by
  have hvalid : Valid (setTo d o.wheels) := by
    intro v hv
    obtain ⟨w, hw, rfl⟩ := List.mem_map.mp hv
    exact hd w hw
  have halike : Alike (setTo d o.wheels) o.wheels := by
    rw [Alike, setTo, List.map_map]
    rfl
  have hlt : place (setTo d o.wheels) < volume o.wheels :=
    volume_alike halike ▸ place_lt hvalid
  obtain ⟨h₁, h₂, h₃⟩ := after_spec hv (k := place (setTo d o.wheels)) (by omega)
  refine ⟨place (setTo d o.wheels), size_eq ▸ hlt, ?_⟩
  exact eq_of_place (h₂.trans halike.symm) h₁ hvalid (by omega)

theorem start?_eq_some {headers : List Nat} (h : start? L headers = some o) :
    place o.wheels = 0 ∧ o.wheels.map (·.header) = headers ∧
      ∀ w ∈ o.wheels, L.maxIteration? w.header = some w.bound ∧ w.counter = 0 := by
  obtain ⟨ws, hws, rfl⟩ := Option.map_eq_some_iff.mp h
  clear h
  induction headers generalizing ws with
  | nil =>
    cases hws
    exact ⟨rfl, rfl, fun w hw => (by cases hw)⟩
  | cons h headers ih =>
    rw [List.mapM_cons] at hws
    obtain ⟨w, hw, hws⟩ := Option.bind_eq_some_iff.mp hws
    obtain ⟨ws', hws', heq⟩ := Option.bind_eq_some_iff.mp hws
    cases heq
    obtain ⟨n, hn, rfl⟩ := Option.map_eq_some_iff.mp hw
    obtain ⟨h₁, h₂, h₃⟩ := ih ws' hws'
    refine ⟨by simp [place, h₁], by simp [h₂], fun v hv => ?_⟩
    rcases List.mem_cons.mp hv with rfl | hv
    · exact ⟨hn, rfl⟩
    · exact h₃ v hv

theorem exists_counter? {h : Nat} (hh : h ∈ o.wheels.map (·.header)) :
    ∃ w ∈ o.wheels, w.header = h ∧ o.counter? h = some w.counter := by
  obtain ⟨v, hv, rfl⟩ := List.mem_map.mp hh
  rw [counter?]
  cases hf : o.wheels.find? fun w => w.header == v.header with
  | none => simpa using List.find?_eq_none.mp hf v hv
  | some w =>
    have hheader := List.find?_some hf
    exact ⟨w, List.mem_of_find?_eq_some hf, beq_iff_eq.mp hheader, rfl⟩

theorem counter?_setTo {d : Nat → Nat} {h : Nat} (hw : o.wheels = setTo d ws)
    (hh : h ∈ ws.map (·.header)) : o.counter? h = some (d h) := by
  rw [counter?, hw, setTo, List.find?_map]
  obtain ⟨w, hmem, rfl⟩ := List.mem_map.mp hh
  cases hf : ws.find? ((fun v => v.header == w.header) ∘ fun v =>
    { v with counter := d v.header }) with
  | none => simpa using List.find?_eq_none.mp hf w hmem
  | some v =>
    have := List.find?_some hf
    simp only [Function.comp_apply, beq_iff_eq] at this
    simp [this]

theorem eval?_eq_some {f : Affine} (h : ∀ x ∈ f.headers, o.counter? x = some (c x)) :
    o.eval? f = some (f.eval c).toNat := by
  have hc : ∀ t ∈ f.terms, o.counter? t.header = some (c t.header) := fun t ht =>
    h _ (List.mem_map.mpr ⟨t, ht, rfl⟩)
  have hall : (f.terms.all fun t => (o.counter? t.header).isSome) = true :=
    List.all_eq_true.mpr fun t ht => by rw [hc t ht]; rfl
  have heval : f.eval (fun h => (o.counter? h).getD 0) = f.eval c :=
    Affine.eval_congr fun t ht => by rw [hc t ht]; rfl
  rw [eval?, Affine.eval?, if_pos hall, Option.map_some, heval]

theorem eval?_setTo {d : Nat → Nat} {e : Affine} (hw : o.wheels = setTo d ws)
    (hh : ∀ t ∈ e.terms, t.header ∈ ws.map (·.header)) : o.eval? e = some (e.eval d).toNat := by
  refine eval?_eq_some fun x hx => ?_
  obtain ⟨t, ht, rfl⟩ := List.mem_map.mp hx
  exact counter?_setTo hw (hh t ht)

theorem isSome_of_space? {e : Affine} (h : e.space? L = some o) :
    ∀ t ∈ e.terms, (L.maxIteration? t.header).isSome := by
  obtain ⟨-, hheaders, hbounds⟩ := start?_eq_some h
  intro t ht
  have hmem : t.header ∈ o.wheels.map (·.header) := hheaders ▸ List.mem_map.mpr ⟨t, ht, rfl⟩
  obtain ⟨w, hw, hheader⟩ := List.mem_map.mp hmem
  rw [← hheader, (hbounds w hw).1]
  rfl

/-- The iteration space of loops with known bounds is as large as their product. -/
theorem exists_start? {n : Nat → Nat} {headers : List Nat}
    (h : ∀ x ∈ headers, L.maxIteration? x = some (n x)) :
    ∃ o, start? L headers = some o ∧ o.size = (headers.map n).prod := by
  have hstart : ∃ ws, headers.mapM
      (fun h => (L.maxIteration? h).map fun bound => Wheel.mk h bound 0) = some ws ∧
      volume ws = (headers.map n).prod := by
    induction headers with
    | nil => exact ⟨[], rfl, rfl⟩
    | cons x headers ih =>
      obtain ⟨ws, hws, hvolume⟩ := ih fun y hy => h y (List.mem_cons_of_mem _ hy)
      refine ⟨⟨x, n x, 0⟩ :: ws, ?_, ?_⟩
      · simp [h x List.mem_cons_self, hws]
      · rw [volume, hvolume, List.map_cons, List.prod_cons]
  obtain ⟨ws, hws, hvolume⟩ := hstart
  exact ⟨⟨ws⟩, congrArg (Option.map mk) hws, size_eq.trans hvolume⟩

theorem exists_space? {e : Affine} {n : Nat → Nat}
    (h : ∀ t ∈ e.terms, L.maxIteration? t.header = some (n t.header)) :
    ∃ o, e.space? L = some o ∧ o.size = (e.terms.map fun t => n t.header).prod := by
  have hheaders : ∀ x ∈ e.headers, L.maxIteration? x = some (n x) := by
    intro x hx
    obtain ⟨t, ht, rfl⟩ := List.mem_map.mp hx
    exact h t ht
  obtain ⟨o, ho, hsize⟩ := exists_start? hheaders
  exact ⟨o, ho, by rw [hsize, Affine.headers, List.map_map]; rfl⟩

/-- The counters of an iteration space take all values that the bounds allow. -/
theorem exists_after_setTo {d : Nat → Nat} {headers : List Nat} (h : start? L headers = some o)
    (hd : ∀ x ∈ headers, ∀ n, L.maxIteration? x = some n → d x < n) :
    ∃ k < o.size, (after k o).wheels = setTo d o.wheels := by
  obtain ⟨hz, hheaders, hbounds⟩ := start?_eq_some h
  have hlt : ∀ w ∈ o.wheels, d w.header < w.bound := fun w hw =>
    hd _ (hheaders ▸ List.mem_map.mpr ⟨w, hw, rfl⟩) _ (hbounds w hw).1
  have hvalid : Valid o.wheels := fun w hw => by
    rw [(hbounds w hw).2]
    exact Nat.zero_lt_of_lt (hlt w hw)
  exact exists_after hz hvalid hlt

/-- Every position of an iteration space has counters below the bounds, at which it evaluates all
references over its loops. -/
theorem exists_counters {headers : List Nat} (h : start? L headers = some o) (hk : k < o.size) :
    ∃ d : Nat → Nat, (∀ x ∈ headers, ∀ n, L.maxIteration? x = some n → d x < n) ∧
      ∀ f : Affine, (∀ t ∈ f.terms, t.header ∈ headers) →
        (after k o).eval? f = some (f.eval d).toNat := by
  obtain ⟨hz, hheaders, hbounds⟩ := start?_eq_some h
  rw [size_eq] at hk
  have hvalid := valid_of_zero (fun w hw => (hbounds w hw).2) (Nat.zero_lt_of_lt hk)
  obtain ⟨hvalid, halike, -⟩ := after_spec hvalid (k := k) (by omega)
  have hcounter : ∀ x ∈ headers, ∃ w ∈ (after k o).wheels, w.header = x ∧
      (after k o).counter? x = some w.counter := by
    intro x hx
    apply exists_counter?
    rw [halike.headers, hheaders]
    exact hx
  refine ⟨fun h => ((after k o).counter? h).getD 0, fun x hx n hn => ?_, fun f hf => ?_⟩
  · obtain ⟨w, hw, hheader, hsome⟩ := hcounter x hx
    obtain ⟨v, hv, heq⟩ := halike.exists_mem hw
    rw [← hheader, heq.1, (hbounds v hv).1, ← heq.2] at hn
    cases hn
    simp only [hsome, Option.getD_some]
    exact hvalid w hw
  · refine eval?_eq_some fun x hx => ?_
    obtain ⟨t, ht, rfl⟩ := List.mem_map.mp hx
    obtain ⟨w, -, -, hsome⟩ := hcounter t.header (hf t ht)
    rw [hsome]
    rfl

/-- The enumeration of a reference passes every position that the bounds allow. -/
theorem setTo_mem_positions {d : Nat → Nat} {e : Affine} (h : e.space? L = some o)
    (hd : ∀ t ∈ e.terms, ∀ n, L.maxIteration? t.header = some n → d t.header < n) :
    (⟨setTo d o.wheels⟩ : Odometer) ∈ positions o.size o := by
  obtain ⟨k, hk, hwheels⟩ := exists_after_setTo (d := d) h fun x hx => by
    obtain ⟨t, ht, rfl⟩ := List.mem_map.mp hx
    exact hd t ht
  exact mem_positions.mpr ⟨k, hk, congrArg mk hwheels.symm⟩

theorem eval?_space {d : Nat → Nat} {e : Affine} (h : e.space? L = some o) :
    (⟨setTo d o.wheels⟩ : Odometer).eval? e = some (e.eval d).toNat := by
  refine eval?_setTo rfl fun t ht => ?_
  rw [(start?_eq_some h).2.1]
  exact List.mem_map.mpr ⟨t, ht, rfl⟩

/-- Every position of the enumeration of a reference has counters below the bounds, at which it
evaluates the reference and all others with its terms. -/
theorem eval?_of_mem_positions {o' : Odometer} {e : Affine} (h : e.space? L = some o)
    (ho : o' ∈ positions o.size o) : ∃ d : Nat → Nat,
      (∀ t ∈ e.terms, ∀ n, L.maxIteration? t.header = some n → d t.header < n) ∧
      ∀ f : Affine, f.terms = e.terms → o'.eval? f = some (f.eval d).toNat := by
  obtain ⟨k, hk, rfl⟩ := mem_positions.mp ho
  obtain ⟨d, hd, heval⟩ := exists_counters h hk
  have hmem : ∀ t ∈ e.terms, t.header ∈ e.headers := fun t ht => List.mem_map.mpr ⟨t, ht, rfl⟩
  exact ⟨d, fun t ht => hd _ (hmem t ht), fun f hf => heval f (hf ▸ hmem)⟩

/-- At every position that the bounds allow, the enumeration of a reference meets its value. -/
theorem exists_after_eval {d : Nat → Nat} {e : Affine} (h : e.space? L = some o)
    (hd : ∀ t ∈ e.terms, ∀ n, L.maxIteration? t.header = some n → d t.header < n) :
    ∃ k < o.size, (after k o).eval? e = some (e.eval d).toNat := by
  obtain ⟨k, hk, heq⟩ := mem_positions.mp (setTo_mem_positions h hd)
  exact ⟨k, hk, heq ▸ eval?_space h⟩

end MissBound.Odometer
