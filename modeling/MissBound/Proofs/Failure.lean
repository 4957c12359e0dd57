import MissBound.Failure

/-!
Computations that may fail: what is known of their parts once they have succeeded.
-/

namespace MissBound

theorem bind_ok {α β : Type} {x : Except Failure α} {next : α → Except Failure β} {r : β} :
    (x >>= next) = .ok r ↔ ∃ a, x = .ok a ∧ next a = .ok r := by
  cases x with
  | error e => exact ⟨fun h => (by cases h), fun ⟨a, h, _⟩ => (by cases h)⟩
  | ok a => exact ⟨fun h => ⟨a, rfl, h⟩, fun ⟨b, h, h'⟩ => (by cases h; exact h')⟩

/-- What holds at the start and is kept by every step holds after a fold that does not fail. -/
theorem foldlM_ok {α σ : Type} {step : σ → α → Except Failure σ} {P : σ → Prop}
    (hstep : ∀ s a t, P s → step s a = .ok t → P t) (xs : List α) :
    ∀ s t, P s → xs.foldlM step s = .ok t → P t := by
  induction xs with
  | nil =>
    intro s t hs h
    cases h
    exact hs
  | cons x xs ih =>
    intro s t hs h
    rw [List.foldlM_cons] at h
    obtain ⟨u, hx, h⟩ := bind_ok.mp h
    exact ih u t (hstep s x u hs hx) h

section
variable {α β : Type} {f : α → Except Failure β} {xs : List α} {ys : List β}

/-- Results that are all there stem from the elements at their places. -/
theorem map_of_mapM (h : xs.mapM f = .ok ys) : xs.map f = ys.map .ok := by
  induction xs generalizing ys with
  | nil =>
    cases h
    rfl
  | cons x xs ih =>
    rw [List.mapM_cons] at h
    obtain ⟨y, hy, h⟩ := bind_ok.mp h
    obtain ⟨zs, hz, h⟩ := bind_ok.mp h
    cases h
    rw [List.map_cons, List.map_cons, hy, ih hz]

theorem length_of_mapM (h : xs.mapM f = .ok ys) : ys.length = xs.length := by
  simpa using congrArg List.length (map_of_mapM h).symm

theorem getElem?_of_mapM {i : Nat} (h : xs.mapM f = .ok ys) : xs[i]?.map f = ys[i]?.map .ok := by
  rw [← List.getElem?_map, ← List.getElem?_map, map_of_mapM h]

end

end MissBound
