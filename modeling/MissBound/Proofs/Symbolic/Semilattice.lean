import MissBound.Proofs.Symbolic.Ascent
import MissBound.Proofs.Symbolic.Laws

/-!
The join as a least upper bound. Expressions are ordered by their terms, below the unknown value and
above the one that is not reached. Two expressions that are parts of a third can be joined, and
their join is a part of it too; so whichever joins give up on the way, the upper bounds in the end
are the same, and with them the result.
-/

namespace MissBound

namespace Affine

variable {L : LoopForest} {P : Nat → Prop} {x y z : Affine}

theorem Part.antisymm (hx : x.Proper L P) (hy : y.Proper L P) (hxy : x.Part y) (hyx : y.Part x) :
    x = y := by
  have hterms := hx.sorted.eq_of_mem_iff hy.sorted fun t => ⟨hxy.terms t, hyx.terms t⟩
  obtain ⟨xs, k⟩ := x
  obtain ⟨ys, k'⟩ := y
  cases hterms
  cases hxy.constant
  rfl

/-- Parts of one expression agree wherever they meet, and together they do not have more terms. -/
theorem Proper.exists_join (hx : x.Proper L P) (hy : y.Proper L P) (hz : z.Proper L P)
    (hxz : x.Part z) (hyz : y.Part z) :
    ∃ w, Symbolic.join L (.affine x) (.affine y) = .affine w ∧ w.Part z := by
  by_cases hxy : x = y
  · exact ⟨x, hxy ▸ if_pos rfl, hxz⟩
  · have hne : Symbolic.affine x ≠ .affine y := fun h => hxy (Symbolic.affine.inj h)
    have hmeet : (Term.merge L.compareHeaders (fun c d => if c = d then some c else none) x.terms
        y.terms).isSome := by
      apply (Term.isSome_merge hx.sorted hy.sorted).mpr
      intro u hu t ht heq
      rw [hz.canonical.eq_of_header (hxz.terms t ht) (hyz.terms u hu) heq, if_pos rfl]
      rfl
    obtain ⟨ts, hts⟩ := Option.isSome_iff_exists.mp hmeet
    have hsub : ∀ t ∈ ts, t ∈ z.terms := by
      refine Term.forall_merge hxz.terms hyz.terms (fun c d r h hc _ hr _ => ?_) hts
      split at hr
      · exact Option.some.inj hr ▸ hc
      · cases hr
    have hlength : ts.length ≤ maxTerms := by
      rcases (Term.sorted_merge hx.sorted hts).eq_or_length_lt hz.sorted hsub with heq | hlt
      · exact heq ▸ hz.length_le
      · exact Nat.le_trans (Nat.le_of_lt hlt) hz.length_le
    refine ⟨⟨ts, x.constant⟩, ?_, hxz.constant, hsub⟩
    rw [Symbolic.join, if_neg hne, Symbolic.lift, if_pos (hxz.constant.trans hyz.constant.symm),
      hts]
    exact if_neg (Nat.not_lt_of_le hlength)

end Affine

namespace Symbolic

variable {L : LoopForest} {P : Nat → Prop} {a b c v w : Symbolic}

/-- An expression in canonical form, or a value that is unknown or not reached. -/
def Canonical (L : LoopForest) (v : Symbolic) : Prop := v = .bottom ∨ v.Proper L fun _ => True

@[simp] theorem bottom_join : bottom.join L v = v := by
  cases v <;> rfl

@[simp] theorem join_bottom : v.join L .bottom = v := by
  cases v <;> rfl

theorem Canonical.join (ha : a.Canonical L) (hb : b.Canonical L) : (a.join L b).Canonical L := by
  rcases ha with rfl | ha
  · rwa [bottom_join]
  · rcases hb with rfl | hb
    · rw [join_bottom]
      exact .inr ha
    · exact .inr (proper_join ha hb)

theorem below_join_left (hv : v.Proper L P) (hw : w.Proper L P) : v.Below (v.join L w) := by
  apply below_of_affine (proper_join hv hw)
  intro y hy
  obtain ⟨x, -, hx, -, hpart, -⟩ := join_eq_affine hv hw hy
  exact ⟨x, hx, hpart⟩

theorem Proper.below_self (hv : v.Proper L P) : v.Below v := by
  cases hv with
  | top => exact .top
  | affine => exact .part .refl

theorem Below.trans (h₁ : a.Below b) (h₂ : b.Below c) : a.Below c := by
  cases h₂ with
  | top => exact .top
  | part hbc =>
    cases h₁ with
    | part hab => exact .part (hab.trans hbc)

theorem Below.antisymm (ha : a.Proper L P) (hb : b.Proper L P) (hab : a.Below b) (hba : b.Below a) :
    a = b := by
  cases hab with
  | top =>
    cases hba
    rfl
  | part hxy =>
    cases hba with
    | part hyx =>
      cases ha with
      | affine hx =>
        cases hb with
        | affine hy => exact congrArg affine (hxy.antisymm hx hy hyx)

/-- The join is the least of all values above both. -/
theorem Below.join (ha : a.Proper L P) (hb : b.Proper L P) (hc : c.Proper L P) (hac : a.Below c)
    (hbc : b.Below c) : (a.join L b).Below c := by
  cases hc with
  | top => exact .top
  | @affine z hz =>
    cases hac with
    | part hxz =>
      cases hbc with
      | part hyz =>
        cases ha with
        | affine hx =>
          cases hb with
          | affine hy =>
            obtain ⟨w, hw, hwz⟩ := hx.exists_join hy hz hxz hyz
            rw [hw]
            exact .part hwz

/-- The order of values, from the one that is not reached up to the unknown one. -/
inductive AtMost : Symbolic → Symbolic → Prop
  | bottom {v : Symbolic} : AtMost .bottom v
  | below {v w : Symbolic} : v.Below w → AtMost v w

namespace AtMost

protected theorem refl (ha : a.Canonical L) : a.AtMost a := by
  rcases ha with rfl | ha
  · exact .bottom
  · exact .below ha.below_self

protected theorem trans (hab : a.AtMost b) (hbc : b.AtMost c) : a.AtMost c := by
  cases hab with
  | bottom => exact .bottom
  | below hab =>
    cases hbc with
    | bottom => cases hab
    | below hbc => exact .below (hab.trans hbc)

protected theorem antisymm (ha : a.Canonical L) (hb : b.Canonical L) (hab : a.AtMost b)
    (hba : b.AtMost a) : a = b := by
  rcases ha with rfl | ha
  · cases hba with
    | bottom => rfl
    | below hba => cases hba
  · rcases hb with rfl | hb
    · cases hab with
      | bottom => rfl
      | below hab => cases hab
    · cases hab with
      | bottom => cases ha
      | below hab =>
        cases hba with
        | bottom => cases hb
        | below hba => exact hab.antisymm ha hb hba

theorem join_left (ha : a.Canonical L) (hb : b.Canonical L) : a.AtMost (a.join L b) := by
  rcases ha with rfl | ha
  · exact .bottom
  · rcases hb with rfl | hb
    · rw [join_bottom]
      exact .below ha.below_self
    · exact .below (below_join_left ha hb)

theorem join_right (ha : a.Canonical L) (hb : b.Canonical L) : b.AtMost (a.join L b) := by
  rcases hb with rfl | hb
  · exact .bottom
  · rcases ha with rfl | ha
    · rw [bottom_join]
      exact .below hb.below_self
    · exact .below (below_join ha hb)

theorem join (ha : a.Canonical L) (hb : b.Canonical L) (hc : c.Canonical L) (hac : a.AtMost c)
    (hbc : b.AtMost c) : (a.join L b).AtMost c := by
  rcases ha with rfl | ha
  · rwa [bottom_join]
  · rcases hb with rfl | hb
    · rwa [join_bottom]
    · cases hac with
      | bottom => cases ha
      | below hac =>
        cases hbc with
        | bottom => cases hb
        | below hbc =>
          rcases hc with rfl | hc
          · cases hac
          · exact .below (hac.join ha hb hc hbc)

end AtMost

/-- The values in canonical form. -/
def CanonicalValue (L : LoopForest) : Type := { v : Symbolic // v.Canonical L }

instance : PartialOrder (CanonicalValue L) where
  le a b := a.1.AtMost b.1
  le_refl a := .refl a.2
  le_trans _ _ _ := .trans
  le_antisymm a b hab hba := Subtype.ext (hab.antisymm a.2 b.2 hba)

instance : SemilatticeSup (CanonicalValue L) where
  sup a b := ⟨a.1.join L b.1, a.2.join b.2⟩
  le_sup_left a b := .join_left a.2 b.2
  le_sup_right a b := .join_right a.2 b.2
  sup_le a b c hac hbc := .join a.2 b.2 c.2 hac hbc

/-- An expression that grows by joins gains a term each time. -/
theorem length_le_slack {e : Affine} {chain : List Affine}
    (hproper : ∀ x ∈ e :: chain, x.Proper L P)
    (h : (e :: chain).IsChain fun x y => join L (.affine x) (.affine y) = .affine y ∧ x ≠ y) :
    (e :: chain).length ≤ (affine e).slack := by
  induction chain generalizing e with
  | nil => exact Proper.slack_pos (.affine (hproper e List.mem_cons_self)) (by simp)
  | cons y chain ih =>
    obtain ⟨he, hrest⟩ := List.forall_mem_cons.mp hproper
    obtain ⟨⟨hjoin, hne⟩, h⟩ := List.isChain_cons_cons.mp h
    have hy := hrest y List.mem_cons_self
    have hbelow := below_join_left (.affine he) (.affine hy)
    rw [hjoin] at hbelow
    have hlt := (hbelow.lowers (.affine he) (.affine hy)).resolve_left fun heq =>
      hne (affine.inj heq).symm
    exact Nat.lt_of_le_of_lt (ih hrest h) hlt

/-- On canonical values the join is commutative, associative and idempotent, the value that is not
reached is neutral and the unknown one absorbs; and expressions grow at most `maxTerms` times. -/
theorem join_laws (ha : a.Canonical L) (hb : b.Canonical L) (hc : c.Canonical L) :
    (a.join L b).Canonical L ∧ a.join L b = b.join L a ∧
    (a.join L b).join L c = a.join L (b.join L c) ∧ a.join L a = a ∧
    (bottom.join L a = a ∧ a.join L .bottom = a) ∧ (top.join L a = .top ∧ a.join L .top = .top) ∧
    ∀ chain : List Affine, (∀ e ∈ chain, e.Proper L fun _ => True) →
      (chain.IsChain fun x y => join L (.affine x) (.affine y) = .affine y ∧ x ≠ y) →
      chain.length ≤ maxTerms + 1 := by
  let x : CanonicalValue L := ⟨a, ha⟩
  let y : CanonicalValue L := ⟨b, hb⟩
  let z : CanonicalValue L := ⟨c, hc⟩
  refine ⟨ha.join hb, congrArg Subtype.val (sup_comm x y), congrArg Subtype.val (sup_assoc x y z),
    congrArg Subtype.val (sup_idem x), ⟨bottom_join, join_bottom⟩, ⟨top_join, join_top⟩, ?_⟩
  intro chain hproper h
  cases chain with
  | nil => exact Nat.zero_le _
  | cons e chain => exact Nat.le_trans (length_le_slack hproper h) (Nat.sub_le ..)

/-- Seven loops one after the other. -/
def loopRow : LoopForest := .nest ((List.range' 1 7).map fun h => ⟨h, [h], [h]⟩) (List.range 8)

/-- The sum of the counters of the first `n` loops. -/
def counterSum (n : Nat) : Affine := ⟨(List.range' 1 n).reverse.map fun h => ⟨1, h⟩, 0⟩

/-- The first two of three values can be joined, and so can the last two, but not all three; and the
sums of more and more counters reach the greatest length. -/
theorem join_laws_counterSum :
    ((affine (counterSum 3)).Canonical loopRow ∧ (term 1 5).Canonical loopRow ∧
      (term 2 1).Canonical loopRow) ∧
    ((affine (counterSum 3)).join loopRow (term 1 5) =
        .affine ⟨[⟨1, 5⟩, ⟨1, 3⟩, ⟨1, 2⟩, ⟨1, 1⟩], 0⟩ ∧
      (affine (counterSum 3)).join loopRow (term 1 5) =
        (term 1 5).join loopRow (affine (counterSum 3))) ∧
    ((term 1 5).join loopRow (term 2 1) = .affine ⟨[⟨1, 5⟩, ⟨2, 1⟩], 0⟩ ∧
      ((affine (counterSum 3)).join loopRow (term 1 5)).join loopRow (term 2 1) = .top ∧
      ((affine (counterSum 3)).join loopRow (term 1 5)).join loopRow (term 2 1) =
        (affine (counterSum 3)).join loopRow ((term 1 5).join loopRow (term 2 1))) ∧
    ((∀ e ∈ (List.range 8).map counterSum, e.Proper loopRow fun _ => True) ∧
      (((List.range 8).map counterSum).IsChain fun x y =>
        join loopRow (.affine x) (.affine y) = .affine y ∧ x ≠ y) ∧
      ((List.range 8).map counterSum).length ≤ maxTerms + 1) := by
  have ha : (affine (counterSum 3)).Canonical loopRow := .inr (.affine (by decide +kernel))
  have hb : (term 1 5).Canonical loopRow := .inr (proper_term (by decide) (by decide) trivial)
  have hc : (term 2 1).Canonical loopRow := .inr (proper_term (by decide) (by decide) trivial)
  have hproper : ∀ e ∈ (List.range 8).map counterSum, e.Proper loopRow fun _ => True := by
    decide +kernel
  have hchain : ((List.range 8).map counterSum).IsChain fun x y =>
      join loopRow (.affine x) (.affine y) = .affine y ∧ x ≠ y := by decide +kernel
  obtain ⟨-, hcomm, hassoc, -, -, -, hgrowth⟩ := join_laws ha hb hc
  exact ⟨⟨ha, hb, hc⟩, ⟨by decide +kernel, hcomm⟩, ⟨by decide +kernel, by decide +kernel, hassoc⟩,
    ⟨hproper, hchain, hgrowth _ hproper hchain⟩⟩

end Symbolic

end MissBound
