import MissBound.Proofs.Symbolic.Affine

/-!
Lists of terms. Merging keeps them in order and adds their coefficients header by header; an ordered
list without zero coefficients is determined by the coefficients of its headers.
-/

namespace MissBound.Term

variable {L : LoopForest} {both : Int → Int → Option Int} {t u : Term} {terms xs ys zs : List Term}
  {h : Nat}

/-- Terms in the order of their headers. -/
def Sorted (L : LoopForest) (terms : List Term) : Prop :=
  terms.Pairwise fun t u => L.compareHeaders t.header u.header = .lt

instance : Decidable (Sorted L terms) := inferInstanceAs (Decidable (List.Pairwise _ _))

/-- The coefficient of a header, zero if it does not occur. -/
def coefOf (terms : List Term) (h : Nat) : Int :=
  (terms.map fun t => if t.header = h then t.coef else 0).sum

@[simp] theorem coefOf_nil : coefOf [] h = 0 := rfl

@[simp] theorem coefOf_cons :
    coefOf (t :: terms) h = (if t.header = h then t.coef else 0) + coefOf terms h := by
  simp [coefOf]

theorem coefOf_eq_zero (hne : ∀ t ∈ terms, t.header ≠ h) : coefOf terms h = 0 := by
  induction terms with
  | nil => rfl
  | cons t terms ih =>
    rw [coefOf_cons, if_neg (hne t List.mem_cons_self),
      ih fun u hu => hne u (List.mem_cons_of_mem _ hu), Int.add_zero]

theorem coefOf_of_mem (hs : Sorted L terms) (ht : t ∈ terms) : coefOf terms t.header = t.coef := by
  induction terms with
  | nil => cases ht
  | cons u terms ih =>
    obtain ⟨hlt, hs⟩ := List.pairwise_cons.mp hs
    rcases List.mem_cons.mp ht with rfl | ht
    · rw [coefOf_cons, if_pos rfl, coefOf_eq_zero, Int.add_zero]
      exact fun v hv => (L.ne_of_compareHeaders (hlt v hv)).symm
    · rw [coefOf_cons, if_neg (L.ne_of_compareHeaders (hlt t ht)), ih hs ht, Int.zero_add]

/-- A header with a coefficient has a term. -/
theorem mem_of_coefOf (hs : Sorted L terms) (hne : coefOf terms h ≠ 0) :
    ⟨coefOf terms h, h⟩ ∈ terms := by
  by_contra hnot
  refine hne (coefOf_eq_zero fun t ht heq => hnot ?_)
  rw [← heq, coefOf_of_mem hs ht]
  exact ht

theorem Sorted.nodup (hs : Sorted L terms) : terms.Nodup :=
  hs.imp fun hlt => ne_of_apply_ne _ (L.ne_of_compareHeaders hlt)

theorem Sorted.eq_of_perm (hx : Sorted L xs) (hy : Sorted L ys) (h : xs.Perm ys) : xs = ys :=
  h.eq_of_pairwise (fun _ _ _ _ hab hba => absurd hba (L.compareHeaders_asymm hab)) hx hy

theorem Sorted.eq_of_mem_iff (hx : Sorted L xs) (hy : Sorted L ys) (h : ∀ t, t ∈ xs ↔ t ∈ ys) :
    xs = ys :=
  hx.eq_of_perm hy ((List.perm_ext_iff_of_nodup hx.nodup hy.nodup).mpr h)

/-- Ordered terms that are not all of a list are fewer. -/
theorem Sorted.eq_or_length_lt (hx : Sorted L xs) (hy : Sorted L ys) (h : ∀ t ∈ xs, t ∈ ys) :
    xs = ys ∨ xs.length < ys.length := by
  have hsub := List.subperm_of_subset hx.nodup h
  rcases Nat.lt_or_ge xs.length ys.length with hlt | hge
  · exact .inr hlt
  · exact .inl (hx.eq_of_perm hy (hsub.perm_of_length_le hge))

/-- Ordered terms without zero coefficients are determined by their coefficients. -/
theorem eq_of_coefOf (hx : Sorted L xs) (hy : Sorted L ys) (hx0 : ∀ t ∈ xs, t.coef ≠ 0)
    (hy0 : ∀ t ∈ ys, t.coef ≠ 0) (heq : ∀ h, coefOf xs h = coefOf ys h) : xs = ys := by
  have hsub : ∀ {as bs : List Term}, Sorted L as → Sorted L bs → (∀ t ∈ as, t.coef ≠ 0) →
      (∀ h, coefOf as h = coefOf bs h) → ∀ t ∈ as, t ∈ bs := by
    intro as bs ha hb ha0 heq t ht
    have hcoef : coefOf bs t.header = t.coef := by rw [← heq, coefOf_of_mem ha ht]
    have hmem := mem_of_coefOf hb (h := t.header) (by rw [hcoef]; exact ha0 t ht)
    rwa [hcoef] at hmem
  refine hx.eq_of_mem_iff hy fun t => ?_
  exact ⟨hsub hx hy hx0 heq t, hsub hy hx hy0 (fun h => (heq h).symm) t⟩

/-- The three ways to put a term into a list. -/
theorem insert_cons (hz : insert L.compareHeaders both t (u :: terms) = some zs) :
    L.compareHeaders t.header u.header = .lt ∧ zs = t :: u :: terms ∨
    t.header = u.header ∧ (∃ c, both u.coef t.coef = some c ∧
      zs = if c = 0 then terms else ⟨c, u.header⟩ :: terms) ∨
    L.compareHeaders u.header t.header = .lt ∧
      ∃ ws, insert L.compareHeaders both t terms = some ws ∧ zs = u :: ws := by
  unfold insert at hz
  split at hz
  · rename_i hlt
    exact .inl ⟨hlt, (Option.some.inj hz).symm⟩
  · rename_i heq
    obtain ⟨c, hc, rfl⟩ := Option.map_eq_some_iff.mp hz
    exact .inr (.inl ⟨L.compareHeaders_eq.mp heq, c, hc, rfl⟩)
  · rename_i hgt
    obtain ⟨ws, hws, rfl⟩ := Option.map_eq_some_iff.mp hz
    exact .inr (.inr ⟨L.compareHeaders_gt.mp hgt, ws, hws, rfl⟩)

/-- Where the terms of a list come from after one was put in. -/
theorem mem_insert (hz : insert L.compareHeaders both t terms = some zs) (hu : u ∈ zs) :
    u = t ∨ u ∈ terms ∨ ∃ v ∈ terms, v.header = t.header ∧ u.header = t.header ∧
      both v.coef t.coef = some u.coef ∧ u.coef ≠ 0 := by
  induction terms generalizing zs with
  | nil =>
    cases hz
    exact .inl (List.mem_singleton.mp hu)
  | cons v terms ih =>
    rcases insert_cons hz with ⟨-, rfl⟩ | ⟨heq, c, hc, rfl⟩ | ⟨-, ws, hws, rfl⟩
    · rcases List.mem_cons.mp hu with rfl | hu
      · exact .inl rfl
      · exact .inr (.inl hu)
    · split at hu
      · exact .inr (.inl (List.mem_cons_of_mem _ hu))
      · rename_i hne
        rcases List.mem_cons.mp hu with rfl | hu
        · exact .inr (.inr ⟨v, List.mem_cons_self, heq.symm, heq.symm, hc, hne⟩)
        · exact .inr (.inl (List.mem_cons_of_mem _ hu))
    · rcases List.mem_cons.mp hu with rfl | hu
      · exact .inr (.inl List.mem_cons_self)
      · rcases ih hws hu with h | h | ⟨w, hw, h⟩
        · exact .inl h
        · exact .inr (.inl (List.mem_cons_of_mem _ h))
        · exact .inr (.inr ⟨w, List.mem_cons_of_mem _ hw, h⟩)

theorem header_of_mem_insert (hz : insert L.compareHeaders both t terms = some zs) (hu : u ∈ zs) :
    u.header = t.header ∨ ∃ v ∈ terms, v.header = u.header := by
  rcases mem_insert hz hu with rfl | hu | ⟨v, hv, heq, hu, -⟩
  · exact .inl rfl
  · exact .inr ⟨u, hu, rfl⟩
  · exact .inl hu

theorem sorted_insert (hs : Sorted L terms) (hz : insert L.compareHeaders both t terms = some zs) :
    Sorted L zs := by
  induction terms generalizing zs with
  | nil =>
    cases hz
    exact List.pairwise_singleton ..
  | cons u terms ih =>
    obtain ⟨hlt, hs'⟩ := List.pairwise_cons.mp hs
    rcases insert_cons hz with ⟨htu, rfl⟩ | ⟨heq, c, -, rfl⟩ | ⟨hut, ws, hws, rfl⟩
    · refine List.pairwise_cons.mpr ⟨fun v hv => ?_, hs⟩
      rcases List.mem_cons.mp hv with rfl | hv
      · exact htu
      · exact L.compareHeaders_trans htu (hlt v hv)
    · split
      · exact hs'
      · exact List.pairwise_cons.mpr ⟨hlt, hs'⟩
    · refine List.pairwise_cons.mpr ⟨fun v hv => ?_, ih hs' hws⟩
      rcases header_of_mem_insert hws hv with heq | ⟨w, hw, heq⟩
      · exact heq ▸ hut
      · exact heq ▸ hlt w hw

/-- Coefficients of one header are added. -/
theorem coefOf_insert (hadd : ∀ c d r, both c d = some r → r = c + d)
    (hz : insert L.compareHeaders both t terms = some zs) :
    coefOf zs h = (if t.header = h then t.coef else 0) + coefOf terms h := by
  induction terms generalizing zs with
  | nil =>
    cases hz
    exact coefOf_cons
  | cons u terms ih =>
    rcases insert_cons hz with ⟨-, rfl⟩ | ⟨heq, c, hc, rfl⟩ | ⟨-, ws, hws, rfl⟩
    · exact coefOf_cons
    · have hsum := hadd _ _ _ hc
      rw [coefOf_cons, heq]
      split
      · split <;> omega
      · rw [coefOf_cons]
        simp only
        split <;> omega
    · rw [coefOf_cons, coefOf_cons, ih hws]
      omega

/-- Terms that agree wherever they meet are all kept. -/
theorem subset_insert (hboth : ∀ c d r, both c d = some r → c = d ∧ r = c) (ht : t.coef ≠ 0)
    (hz : insert L.compareHeaders both t terms = some zs) : ∀ u, u = t ∨ u ∈ terms → u ∈ zs := by
  induction terms generalizing zs with
  | nil =>
    cases hz
    exact fun u hu => List.mem_singleton.mpr (hu.resolve_right List.not_mem_nil)
  | cons v terms ih =>
    intro u hu
    rcases insert_cons hz with ⟨-, rfl⟩ | ⟨heq, c, hc, rfl⟩ | ⟨-, ws, hws, rfl⟩
    · exact List.mem_cons.mpr hu
    · obtain ⟨hcd, rfl⟩ := hboth _ _ _ hc
      have htv : t = v := by
        obtain ⟨coef, header⟩ := t
        obtain ⟨coef', header'⟩ := v
        cases heq
        cases hcd
        rfl
      subst htv
      rw [if_neg ht]
      rcases hu with rfl | hu
      · exact List.mem_cons_self
      · exact hu
    · rcases hu with rfl | hu
      · exact List.mem_cons_of_mem _ (ih hws _ (.inl rfl))
      · rcases List.mem_cons.mp hu with rfl | hu
        · exact List.mem_cons_self
        · exact List.mem_cons_of_mem _ (ih hws _ (.inr hu))

theorem merge_cons (hz : merge L.compareHeaders both xs (t :: ys) = some zs) :
    ∃ ws, insert L.compareHeaders both t xs = some ws ∧
      merge L.compareHeaders both ws ys = some zs := by
  unfold merge at hz
  rw [List.foldlM_cons] at hz
  exact Option.bind_eq_some_iff.mp hz

theorem sorted_merge (hs : Sorted L xs) (hz : merge L.compareHeaders both xs ys = some zs) :
    Sorted L zs := by
  induction ys generalizing xs with
  | nil =>
    cases hz
    exact hs
  | cons t ys ih =>
    obtain ⟨ws, hws, hz⟩ := merge_cons hz
    exact ih (sorted_insert hs hws) hz

/-- What holds of all terms of two lists, and of merged ones, holds after a merge. -/
theorem forall_merge {P : Term → Prop} (hx : ∀ t ∈ xs, P t) (hy : ∀ t ∈ ys, P t)
    (hboth : ∀ c d r h, P ⟨c, h⟩ → P ⟨d, h⟩ → both c d = some r → r ≠ 0 → P ⟨r, h⟩)
    (hz : merge L.compareHeaders both xs ys = some zs) : ∀ t ∈ zs, P t := by
  induction ys generalizing xs with
  | nil =>
    cases hz
    exact hx
  | cons t ys ih =>
    obtain ⟨ws, hws, hz⟩ := merge_cons hz
    refine ih (fun u hu => ?_) (fun u hu => hy u (List.mem_cons_of_mem _ hu)) hz
    have ht := hy t List.mem_cons_self
    rcases mem_insert hws hu with rfl | hu | ⟨v, hv, heq, heq', hc, hne⟩
    · exact ht
    · exact hx u hu
    · obtain ⟨coef, header⟩ := u
      obtain ⟨coef', header'⟩ := v
      obtain ⟨coef'', header''⟩ := t
      cases heq
      cases heq'
      exact hboth _ _ _ _ (hx _ hv) ht hc hne

theorem coefOf_merge (hadd : ∀ c d r, both c d = some r → r = c + d)
    (hz : merge L.compareHeaders both xs ys = some zs) :
    coefOf zs h = coefOf xs h + coefOf ys h := by
  induction ys generalizing xs with
  | nil =>
    cases hz
    simp
  | cons t ys ih =>
    obtain ⟨ws, hws, hz⟩ := merge_cons hz
    rw [ih hz, coefOf_insert hadd hws, coefOf_cons]
    omega

theorem subset_merge (hboth : ∀ c d r, both c d = some r → c = d ∧ r = c)
    (hy : ∀ t ∈ ys, t.coef ≠ 0) (hz : merge L.compareHeaders both xs ys = some zs) :
    ∀ u, u ∈ xs ∨ u ∈ ys → u ∈ zs := by
  induction ys generalizing xs with
  | nil =>
    cases hz
    exact fun u hu => hu.resolve_right List.not_mem_nil
  | cons t ys ih =>
    obtain ⟨ws, hws, hz⟩ := merge_cons hz
    have hinsert := subset_insert hboth (hy t List.mem_cons_self) hws
    have hrest := ih (fun u hu => hy u (List.mem_cons_of_mem _ hu)) hz
    intro u hu
    rcases hu with hu | hu
    · exact hrest u (.inl (hinsert u (.inr hu)))
    · rcases List.mem_cons.mp hu with rfl | hu
      · exact hrest _ (.inl (hinsert _ (.inl rfl)))
      · exact hrest u (.inr hu)

theorem addCoef?_eq_some {c d r : Int} (h : addCoef? c d = some r) : r = c + d := by
  unfold addCoef? at h
  split at h
  · cases h
  · exact (Option.some.inj h).symm

end MissBound.Term
