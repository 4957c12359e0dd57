import MissBound.Proofs.Lru.WellFormed

/-!
The join of states as a semilattice. A well-formed state is determined by the line that it has for
each value. The line that a join has for a value comes from those of the two sides, so that the laws
of joins are laws about two or three lines, each of which may be missing.
-/

namespace MissBound

namespace Age.Levels

variable {as bs cs : List Nat}

theorem join_nil : join as [] = as := by cases as <;> rfl

theorem join_comm (as bs : List Nat) : join as bs = join bs as := by
  fun_induction join as bs with
  | case1 a as b bs ih => rw [join, ih, Nat.max_comm]
  | case2 bs => exact join_nil.symm
  | case3 as => rfl

theorem join_assoc : join (join as bs) cs = join as (join bs cs) := by
  induction as generalizing bs cs with
  | nil => rfl
  | cons a as ih =>
    cases bs with
    | nil => rfl
    | cons b bs =>
      cases cs with
      | nil => rfl
      | cons c cs => simp only [join, ih, Nat.max_assoc]

theorem join_self : join as as = as := by
  induction as with
  | nil => rfl
  | cons a as ih => rw [join, ih, Nat.max_self]

end Age.Levels

namespace Line

variable {k l m : Line}

theorem join_comm (hr : l.reference = m.reference) (hg : l.generation = m.generation) :
    l.join m = m.join l := by
  simp only [join, hr, hg, Age.Must.join, Age.May.join, Nat.max_comm l.must, Nat.min_comm l.may,
    Age.Levels.join_comm l.persistence]

theorem join_assoc : (k.join l).join m = k.join (l.join m) := by
  simp only [join, Age.Must.join, Age.May.join, Nat.max_assoc, Nat.min_assoc, Age.Levels.join_assoc]

theorem join_self : l.join l = l := by
  simp only [join, Age.Must.join, Age.May.join, Nat.max_self, Nat.min_self, Age.Levels.join_self]

end Line

/-- The line for the current instance of `v`. -/
def SetState.lineFor? (s : SetState) (v : Symbolic) : Option Line := s.lines.find? (·.isFor v)

namespace SetDomain

variable {D : SetDomain} {v : Symbolic} {l m x y z : Line} {xs ys zs : List Line}
  {s t u : SetState} {o p q : Option Line}

/-! The lines of a state as a table. -/

theorem isFor_of_lineFor? (h : s.lineFor? v = some l) : l.isFor v = true := by
  simpa using List.find?_some h

theorem mem_of_lineFor? (h : s.lineFor? v = some l) : l ∈ s.lines := List.mem_of_find?_eq_some h

theorem lineFor?_eq_none : s.lineFor? v = none ↔ ∀ l ∈ s.lines, l.isFor v = false := by
  rw [SetState.lineFor?, List.find?_eq_none]
  simp only [Bool.not_eq_true]

theorem lineFor?_eq_some (h : D.Ascending s.lines) :
    s.lineFor? v = some l ↔ l ∈ s.lines ∧ l.isFor v = true := by
  refine ⟨fun hl => ⟨mem_of_lineFor? hl, isFor_of_lineFor? hl⟩, fun ⟨hl, hfor⟩ => ?_⟩
  cases hm : s.lineFor? v with
  | none => exact absurd hfor (Bool.eq_false_iff.mp (lineFor?_eq_none.mp hm l hl))
  | some m =>
    obtain ⟨hr, hg⟩ := isFor_iff.mp hfor
    obtain ⟨hr', hg'⟩ := isFor_iff.mp (isFor_of_lineFor? hm)
    rw [h.eq (mem_of_lineFor? hm) hl (hr'.trans hr.symm) (hg'.trans hg.symm)]

/-- The lines of a well-formed state are determined by the one that it has for each value. -/
theorem lines_ext (hs : s.WellFormed D) (ht : t.WellFormed D)
    (h : ∀ v, s.lineFor? v = t.lineFor? v) : s.lines = t.lines := by
  have hmem : ∀ {s : SetState}, s.WellFormed D → ∀ l,
      l ∈ s.lines ↔ l.generation = 0 ∧ s.lineFor? l.reference = some l := by
    intro s hs l
    rw [lineFor?_eq_some hs.ascending, isFor_iff]
    exact ⟨fun hl => ⟨(hs.lines l hl).generation, hl, rfl, (hs.lines l hl).generation⟩,
      fun hl => hl.2.1⟩
  refine hs.ascending.ext ht.ascending fun l => ?_
  rw [hmem hs, hmem ht, h]

/-- The line of a join, from those of the two sides. -/
def joinLine? (D : SetDomain) : Option Line → Option Line → Option Line
  | some x, some y => some (x.join y)
  | some x, none => some (D.oneSided x)
  | none, some y => some (D.oneSided y)
  | none, none => none

theorem joined_eq (h : x.isFor v = true) :
    some (D.joined ys x) = D.joinLine? (some x) ((SetState.known ys).lineFor? v) := by
  obtain ⟨hr, hg⟩ := isFor_iff.mp h
  have hkey : (fun y : Line => y.sameKey x) = fun y => y.isFor v := by
    funext y
    rw [Line.sameKey, Line.isFor, hr, hg]
  unfold joined SetState.lineFor? SetState.lines
  rw [hkey]
  cases ys.find? (·.isFor v) <;> rfl

theorem lineFor?_join (hx : (SetState.known xs).WellFormed D)
    (hy : (SetState.known ys).WellFormed D) : (D.join (.known xs) (.known ys)).lineFor? v =
      D.joinLine? ((SetState.known xs).lineFor? v) ((SetState.known ys).lineFor? v) := by
  have hjoin := (wellFormed_join hx hy).ascending
  cases hfx : (SetState.known xs).lineFor? v with
  | some x =>
    have hfor := isFor_of_lineFor? hfx
    rw [← joined_eq hfor, lineFor?_eq_some hjoin, isFor_iff, joined_key.1,
      joined_key.2, ← isFor_iff]
    exact ⟨mem_foldl_insert.mpr (.inl (List.mem_map.mpr ⟨x, mem_of_lineFor? hfx, rfl⟩)), hfor⟩
  | none =>
    have hnone := lineFor?_eq_none.mp hfx
    cases hfy : (SetState.known ys).lineFor? v with
    | some y =>
      have hfor := isFor_of_lineFor? hfy
      refine (lineFor?_eq_some hjoin).mpr ⟨mem_foldl_insert.mpr (.inr ⟨y, ?_, rfl⟩), hfor⟩
      refine List.mem_filter.mpr ⟨mem_of_lineFor? hfy, ?_⟩
      rw [Bool.not_eq_true', List.any_eq_false]
      intro x hx hkey
      obtain ⟨hr, hg⟩ := sameKey_iff.mp hkey
      obtain ⟨hr', hg'⟩ := isFor_iff.mp hfor
      exact Bool.eq_false_iff.mp (hnone x hx) (isFor_iff.mpr ⟨hr.trans hr', hg.trans hg'⟩)
    | none =>
      refine lineFor?_eq_none.mpr fun l hl => ?_
      rcases mem_joinLines hl with ⟨x, hx, y, -, -, rfl⟩ | ⟨x, hx, -, rfl⟩ | ⟨y, hy, -, rfl⟩
      · exact hnone x hx
      · exact hnone x hx
      · exact lineFor?_eq_none.mp hfy y hy

/-! The laws of optional lines. -/

theorem joinLine?_comm (ho : ∀ x ∈ o, x.isFor v = true) (hp : ∀ y ∈ p, y.isFor v = true) :
    D.joinLine? o p = D.joinLine? p o := by
  cases o with
  | none => cases p <;> rfl
  | some x =>
    cases p with
    | none => rfl
    | some y =>
      obtain ⟨hr, hg⟩ := isFor_iff.mp (ho x rfl)
      obtain ⟨hr', hg'⟩ := isFor_iff.mp (hp y rfl)
      exact congrArg some (Line.join_comm (hr.trans hr'.symm) (hg.trans hg'.symm))

/-- A line that is missing on one of several paths is not certain, whichever paths meet first. -/
theorem oneSided_join (h : y.must ≤ D.ways) : (D.oneSided x).join y = D.oneSided (x.join y) := by
  simp only [oneSided, Line.join, Age.Must.join, Nat.max_eq_left h]

theorem join_oneSided (h : x.must ≤ D.ways) : x.join (D.oneSided y) = D.oneSided (x.join y) := by
  simp only [oneSided, Line.join, Age.Must.join, Nat.max_eq_right h]

theorem joinLine?_assoc (ho : ∀ x ∈ o, x.must ≤ D.ways) (hp : ∀ y ∈ p, y.must ≤ D.ways)
    (hq : ∀ z ∈ q, z.must ≤ D.ways) :
    D.joinLine? (D.joinLine? o p) q = D.joinLine? o (D.joinLine? p q) := by
  cases o with
  | none =>
    cases p with
    | none => cases q <;> rfl
    | some y =>
      cases q with
      | none => rfl
      | some z => exact congrArg some (oneSided_join (hq z rfl))
  | some x =>
    cases p with
    | none =>
      cases q with
      | none => rfl
      | some z =>
        exact congrArg some ((oneSided_join (hq z rfl)).trans (join_oneSided (ho x rfl)).symm)
    | some y =>
      cases q with
      | none => exact congrArg some (join_oneSided (ho x rfl)).symm
      | some z => exact congrArg some Line.join_assoc

theorem joinLine?_self : D.joinLine? o o = o := by
  cases o with
  | none => rfl
  | some x => exact congrArg some Line.join_self

/-! The laws of states. -/

theorem join_known (D : SetDomain) (xs ys : List Line) :
    D.join (.known xs) (.known ys) = .known (D.joinLines xs ys) := rfl

theorem must_le_of_lineFor? (h : s.WellFormed D) : ∀ x ∈ s.lineFor? v, x.must ≤ D.ways :=
  fun x hx => (h.lines x (mem_of_lineFor? hx)).must_le

theorem join_comm (hs : s.WellFormed D) (ht : t.WellFormed D) : D.join s t = D.join t s := by
  cases s with
  | bottom => cases t <;> rfl
  | known xs =>
    cases t with
    | bottom => rfl
    | known ys =>
      refine congrArg SetState.known (lines_ext (wellFormed_join hs ht) (wellFormed_join ht hs) ?_)
      intro v
      rw [lineFor?_join hs ht, lineFor?_join ht hs]
      exact joinLine?_comm (fun _ => isFor_of_lineFor?) fun _ => isFor_of_lineFor?

theorem join_assoc (hs : s.WellFormed D) (ht : t.WellFormed D) (hu : u.WellFormed D) :
    D.join (D.join s t) u = D.join s (D.join t u) := by
  cases s with
  | bottom => rfl
  | known xs =>
    cases t with
    | bottom => rfl
    | known ys =>
      cases u with
      | bottom => rfl
      | known zs =>
        have hst : (SetState.known (D.joinLines xs ys)).WellFormed D := wellFormed_join hs ht
        have htu : (SetState.known (D.joinLines ys zs)).WellFormed D := wellFormed_join ht hu
        refine congrArg SetState.known
          (lines_ext (wellFormed_join hst hu) (wellFormed_join hs htu) ?_)
        intro v
        rw [lineFor?_join hst hu, lineFor?_join hs htu, ← join_known, ← join_known,
          lineFor?_join hs ht, lineFor?_join ht hu]
        exact joinLine?_assoc (must_le_of_lineFor? hs) (must_le_of_lineFor? ht)
          (must_le_of_lineFor? hu)

theorem join_self (hs : s.WellFormed D) : D.join s s = s := by
  cases s with
  | bottom => rfl
  | known xs =>
    refine congrArg SetState.known (lines_ext (wellFormed_join hs hs) hs fun v => ?_)
    rw [lineFor?_join hs hs, joinLine?_self]

end SetDomain

end MissBound
