import MissBound.Proofs.Symbolic.Facts

/-!
Values that only grow. What is widened or joined has the terms of the value before, or is unknown;
each time a value changes it comes nearer to the unknown one.
-/

namespace MissBound

section
variable {α β : Type} {m : α → Nat} {m' : β → Nat} {a b c : α} {a' b' : β}

/-- `b` is `a`, or measures less. -/
def Lowers (m : α → Nat) (a b : α) : Prop := b = a ∨ m b < m a

theorem Lowers.le (h : Lowers m a b) : m b ≤ m a := by
  rcases h with rfl | h
  · exact Nat.le_refl _
  · exact Nat.le_of_lt h

theorem Lowers.trans (h₁ : Lowers m a b) (h₂ : Lowers m b c) : Lowers m a c := by
  rcases h₁ with rfl | h₁
  · exact h₂
  · exact .inr (Nat.lt_of_le_of_lt h₂.le h₁)

theorem Lowers.add (h : Lowers m a b) (h' : Lowers m' a' b') :
    (b = a ∧ b' = a') ∨ m b + m' b' < m a + m' a' := by
  rcases h with rfl | hlt
  · exact h'.imp (fun heq => ⟨rfl, heq⟩) fun hlt => Nat.add_lt_add_left hlt _
  · exact .inr (Nat.add_lt_add_of_lt_of_le hlt h'.le)

end

namespace Symbolic

variable {L : LoopForest} {P : Nat → Prop} {v w : Symbolic}

/-- The second value is unknown, or an expression of which the first is a part. -/
inductive Below : Symbolic → Symbolic → Prop
  | top {v : Symbolic} : Below v .top
  | part {x y : Affine} : x.Part y → Below (.affine x) (.affine y)

theorem below_of_affine (hw : w.Proper L P)
    (h : ∀ y, w = .affine y → ∃ x, v = .affine x ∧ x.Part y) : v.Below w := by
  cases hw with
  | top => exact .top
  | affine =>
    obtain ⟨x, rfl, hpart⟩ := h _ rfl
    exact .part hpart

theorem below_join (hv : v.Proper L P) (hw : w.Proper L P) : w.Below (v.join L w) := by
  apply below_of_affine (proper_join hv hw)
  intro y hy
  obtain ⟨-, z, -, hz, -, hpart⟩ := join_eq_affine hv hw hy
  exact ⟨z, hz, hpart⟩

theorem below_widen {h : Nat} (hP : P h) (hv : v.Proper L P) (hw : w.Proper L P) :
    v.Below (widen L h v w) := by
  apply below_of_affine (proper_widen hP hv hw)
  intro y hy
  obtain ⟨p, -, hp, -, hpart, -⟩ := widen_eq_affine hv hw hy
  exact ⟨p, hp, hpart⟩

/-- How often a value can still grow. -/
def slack : Symbolic → Nat
  | affine e => maxTerms + 1 - e.terms.length
  | _ => 0

theorem Proper.slack_pos (hv : v.Proper L P) (hne : v ≠ .top) : 0 < v.slack := by
  cases hv with
  | top => exact absurd rfl hne
  | affine he => exact Nat.sub_pos_of_lt (Nat.lt_succ_of_le he.length_le)

theorem Below.lowers (h : v.Below w) (hv : v.Proper L P) (hw : w.Proper L P) :
    Lowers slack v w := by
  cases h with
  | top => exact or_iff_not_imp_left.mpr fun hne => hv.slack_pos (Ne.symm hne)
  | @part x y hpart =>
    cases hv with
    | affine hx =>
      cases hw with
      | affine hy =>
        rcases hx.sorted.eq_or_length_lt hy.sorted hpart.terms with hterms | hlt
        · refine .inl ?_
          obtain ⟨xs, c⟩ := x
          obtain ⟨ys, d⟩ := y
          cases hterms
          cases hpart.constant
          rfl
        · have hle := hy.length_le
          exact .inr (by simp only [slack]; omega)

end Symbolic

namespace Facts

variable {κ : Type} {a b : Facts κ} {es : List (κ × Symbolic)} {e : κ × Symbolic} {k : κ}
  {L : LoopForest} {P : Nat → Prop}

/-- How often the values can still grow. -/
def slack (f : Facts κ) : Nat := (f.entries.map fun e => e.2.slack).sum

theorem slack_cons : (⟨e :: es⟩ : Facts κ).slack = e.2.slack + (⟨es⟩ : Facts κ).slack := by
  simp [slack]

variable [Ord κ]

theorem Proper.tail (h : (⟨e :: es⟩ : Facts κ).Proper L P) : (⟨es⟩ : Facts κ).Proper L P :=
  ⟨(List.pairwise_cons.mp h.sorted).2, (List.forall_mem_cons.mp h.known).2,
    (List.forall_mem_cons.mp h.values).2⟩

variable [Std.TransOrd κ]

theorem get_tail (h : (⟨e :: es⟩ : Facts κ).Sorted) : (⟨es⟩ : Facts κ).get k =
    if compare k e.1 = .eq then .top else (⟨e :: es⟩ : Facts κ).get k := by
  rw [get_cons]
  split
  · rename_i hk
    exact get_of_head h hk
  · rfl

/-- A key before all entries is not known. -/
theorem get_of_lt (h : (⟨e :: es⟩ : Facts κ).Sorted) (hk : compare k e.1 = .lt) :
    (⟨e :: es⟩ : Facts κ).get k = .top := by
  apply get_of_forall_ne
  intro x hx heq
  have hlt : compare k x.1 = .lt := by
    rcases List.mem_cons.mp hx with rfl | hx
    · exact hk
    · exact Std.TransCmp.lt_trans hk ((List.pairwise_cons.mp h).1 x hx)
  cases heq.symm.trans hlt

variable [Std.LawfulEqOrd κ]

omit [Std.TransOrd κ] in
/-- What grows into an entry was known. -/
theorem Proper.get_ne_top (hb : (⟨e :: es⟩ : Facts κ).Proper L P)
    (h : (a.get e.1).Below ((⟨e :: es⟩ : Facts κ).get e.1)) : a.get e.1 ≠ .top := by
  intro htop
  rw [htop, get_cons, if_pos Std.ReflCmp.compare_self] at h
  generalize he : e.2 = v at h
  cases h
  exact hb.known e List.mem_cons_self he

/-- Facts that grow key by key stay as they are or come nearer to knowing nothing. -/
theorem Proper.lowers (ha : a.Proper L P) (hb : b.Proper L P)
    (h : ∀ k, (a.get k).Below (b.get k)) : Lowers slack a b := by
  obtain ⟨as⟩ := a
  obtain ⟨bs⟩ := b
  induction as generalizing bs with
  | nil =>
    cases bs with
    | nil => exact .inl rfl
    | cons y bs => exact absurd rfl (hb.get_ne_top (h y.1))
  | cons x as ih =>
    have hx := ha.values x List.mem_cons_self
    have hpos : 0 < x.2.slack := hx.slack_pos (ha.known x List.mem_cons_self)
    cases bs with
    | nil => exact .inr (by rw [slack_cons]; exact Nat.add_pos_left hpos _)
    | cons y bs =>
      cases hxy : compare x.1 y.1 with
      | lt =>
        -- the entry of `x` is lost
        have hle := (ih ha.tail _ hb fun k => ?_).le
        · refine .inr ?_
          rw [slack_cons (e := x)]
          omega
        · rw [get_tail ha.sorted]
          split
          · rename_i hk
            rw [get_of_lt hb.sorted (Std.TransCmp.lt_of_eq_of_lt hk hxy)]
            exact .top
          · exact h k
      | eq =>
        have hkey := Std.LawfulEqOrd.eq_of_compare hxy
        have hhead := h x.1
        rw [get_cons, get_cons, if_pos Std.ReflCmp.compare_self, if_pos hxy] at hhead
        have htail := ih ha.tail _ hb.tail fun k => ?_
        · rw [Lowers, slack_cons, slack_cons]
          refine ((hhead.lowers hx (hb.values y List.mem_cons_self)).add htail).imp ?_ id
          rintro ⟨hvalue, htails⟩
          cases htails
          rw [Prod.ext hkey.symm hvalue]
        · rw [get_tail ha.sorted, get_tail hb.sorted, hkey]
          split
          · exact .top
          · exact h k
      | gt =>
        exact absurd (get_of_lt ha.sorted (Std.OrientedCmp.lt_of_gt hxy)) (hb.get_ne_top (h y.1))

theorem Proper.below_widen {h : Nat} (ha : a.Proper L P) (hb : b.Proper L P) (hP : P h) (k : κ) :
    (a.get k).Below ((a.combine (Symbolic.widen L h) b).get k) := by
  rw [get_combine (fun _ => Symbolic.top_widen) ha.sorted]
  exact Symbolic.below_widen hP ha.get hb.get

theorem Proper.below_join (ha : a.Proper L P) (hb : b.Proper L P) (k : κ) :
    (b.get k).Below ((a.combine (Symbolic.join L) b).get k) := by
  rw [get_combine (fun _ => Symbolic.top_join) ha.sorted]
  exact Symbolic.below_join ha.get hb.get

end Facts

end MissBound
