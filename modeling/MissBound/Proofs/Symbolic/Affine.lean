import Mathlib
import MissBound.Symbolic.Value
import MissBound.Numeral

/-!
What affine expressions mean: their value modulo `2^32` comes from a sum over the integers, and in
canonical form a header has one coefficient.
-/

namespace MissBound

section Word

variable {x y : Int} {n : Nat}

theorem word_eq : word x = UInt32.ofBitVec (BitVec.ofInt 32 x) := rfl

theorem word_add : word (x + y) = word x + word y := by
  simp only [word_eq, BitVec.ofInt_add]
  rfl

theorem word_mul : word (x * y) = word x * word y := by
  simp only [word_eq, BitVec.ofInt_mul]
  rfl

theorem word_natCast : word n = UInt32.ofNat n := rfl

theorem word_toNat (w : UInt32) : word w.toNat = w := by
  rw [word_natCast]
  exact UInt32.ofNat_toNat

theorem toNat_word : (word x).toNat = (x % 2 ^ 32).toNat := by
  rw [word_eq]
  exact BitVec.toNat_ofInt ..

theorem word_bmod : word (x.bmod (2 ^ 32)) = word x := by
  refine UInt32.toNat_inj.mp ?_
  rw [toNat_word, toNat_word]
  exact congrArg Int.toNat Int.bmod_emod

/-- A product that leaves 32 bits wraps, which its value does not show. -/
theorem Term.word_mulCoef? {a b r : Int} (h : mulCoef? a b = some r) :
    word r = word a * word b := by
  obtain ⟨-, heq⟩ := Option.ite_none_left_eq_some.mp h
  cases heq
  rw [← word_mul]
  exact word_bmod

end Word

namespace LoopForest

variable (L : LoopForest) {a b c : Nat}

theorem compareHeaders_lt : L.compareHeaders a b = .lt ↔
    L.dominatorDepth b < L.dominatorDepth a ∨ L.dominatorDepth b = L.dominatorDepth a ∧ a < b := by
  rw [compareHeaders, Ordering.then_eq_lt, Nat.compare_eq_lt, Nat.compare_eq_eq, Nat.compare_eq_lt]

theorem compareHeaders_eq : L.compareHeaders a b = .eq ↔ a = b := by
  rw [compareHeaders, Ordering.then_eq_eq, Nat.compare_eq_eq, Nat.compare_eq_eq]
  exact ⟨fun h => h.2, fun h => ⟨h ▸ rfl, h⟩⟩

theorem compareHeaders_gt : L.compareHeaders a b = .gt ↔ L.compareHeaders b a = .lt := by
  rw [compareHeaders_lt, compareHeaders, Ordering.then_eq_gt, Nat.compare_eq_gt, Nat.compare_eq_eq,
    Nat.compare_eq_gt, eq_comm]

theorem compareHeaders_trans (h₁ : L.compareHeaders a b = .lt) (h₂ : L.compareHeaders b c = .lt) :
    L.compareHeaders a c = .lt := by
  rw [compareHeaders_lt] at *
  omega

theorem compareHeaders_asymm (h : L.compareHeaders a b = .lt) : L.compareHeaders b a ≠ .lt := by
  rw [ne_eq, compareHeaders_lt] at *
  omega

theorem ne_of_compareHeaders (h : L.compareHeaders a b = .lt) : a ≠ b := by
  rintro rfl
  exact L.compareHeaders_asymm h h

end LoopForest

namespace Affine

variable {L : LoopForest} {e : Affine} {c c' : Nat → Nat} {h n : Nat}

/-- Terms in the order of headers, without zero coefficients. -/
structure Canonical (L : LoopForest) (e : Affine) : Prop where
  sorted : e.terms.Pairwise fun t u => L.compareHeaders t.header u.header = .lt
  nonzero : ∀ t ∈ e.terms, t.coef ≠ 0

instance : Decidable (e.Canonical L) :=
  decidable_of_iff ((e.terms.Pairwise fun t u => L.compareHeaders t.header u.header = .lt) ∧
    ∀ t ∈ e.terms, t.coef ≠ 0) ⟨fun h => ⟨h.1, h.2⟩, fun h => ⟨h.1, h.2⟩⟩

theorem canonical_const {k : UInt32} : Canonical L ⟨[], k⟩ := ⟨.nil, fun t ht => (by cases ht)⟩

/-- The sum of the terms over the integers. -/
def offset (terms : List Term) (c : Nat → Nat) : Int :=
  (terms.map fun t => t.coef * (c t.header : Int)).sum

theorem eval_eq : e.eval c = word (e.constant.toNat + offset e.terms c) := by
  obtain ⟨terms, k⟩ := e
  unfold eval
  induction terms with
  | nil => simp [offset, word_toNat]
  | cons t terms ih =>
    simp only at ih
    simp only [List.foldr_cons, offset, List.map_cons, List.sum_cons]
    rw [ih, ← word_natCast, ← word_mul, ← word_add]
    congr 1
    rw [offset]
    omega

theorem toNat_eval : (e.eval c).toNat = ((e.constant.toNat + offset e.terms c) % 2 ^ 32).toNat := by
  rw [eval_eq, toNat_word]

theorem eval_of_isConstant (h : e.isConstant = true) : e.eval c = e.constant := by
  rw [eval, List.isEmpty_iff.mp h]
  rfl

theorem eval_congr (hc : ∀ t ∈ e.terms, c t.header = c' t.header) : e.eval c = e.eval c' := by
  rw [eval_eq, eval_eq, offset, offset, List.map_congr_left fun t ht => by rw [hc t ht]]

theorem substitute_ne_bottom : (Symbolic.affine e).substitute h n ≠ .bottom := by
  unfold Symbolic.substitute Symbolic.ofTerms
  simp only
  split
  · nofun
  · split
    · split
      · split <;> nofun
      · nofun
    · nofun

namespace Canonical

variable (C : Canonical L e)
include C

theorem nodup_headers : (e.terms.map (·.header)).Nodup :=
  List.pairwise_map.mpr (C.sorted.imp L.ne_of_compareHeaders)

theorem eq_of_header {t u : Term} (ht : t ∈ e.terms) (hu : u ∈ e.terms)
    (heq : t.header = u.header) : t = u :=
  List.inj_on_of_nodup_map C.nodup_headers ht hu heq

theorem coefficient?_eq_some {k : Int} : e.coefficient? h = some k ↔ ⟨k, h⟩ ∈ e.terms := by
  unfold coefficient?
  constructor
  · intro hk
    obtain ⟨t, ht, rfl⟩ := Option.map_eq_some_iff.mp hk
    have hh := List.find?_some ht
    cases beq_iff_eq.mp hh
    exact List.mem_of_find?_eq_some ht
  · intro hmem
    cases hf : e.terms.find? fun t => t.header == h with
    | none => simpa using List.find?_eq_none.mp hf _ hmem
    | some t =>
      have hh := List.find?_some hf
      have := C.eq_of_header (List.mem_of_find?_eq_some hf) hmem (beq_iff_eq.mp hh)
      rw [this]
      rfl

omit C in
theorem coefficient?_eq_none : e.coefficient? h = none ↔ ∀ t ∈ e.terms, t.header ≠ h := by
  rw [coefficient?, Option.map_eq_none_iff, List.find?_eq_none]
  simp

/-- The sum splits into the term of one header and the rest. -/
theorem offset_filter {k : Int} (hk : e.coefficient? h = some k) :
    offset e.terms c =
      k * (c h : Int) + offset (e.terms.filter fun t => t.header != h) c := by
  have hmem := C.coefficient?_eq_some.mp hk
  have hd := C.nodup_headers
  unfold offset
  generalize e.terms = terms at hmem hd
  induction terms with
  | nil => cases hmem
  | cons t terms ih =>
    obtain ⟨ht, hd⟩ := List.nodup_cons.mp hd
    rcases List.mem_cons.mp hmem with heq | hmem
    · subst heq
      have hrest : (terms.filter fun t => t.header != h) = terms := by
        refine List.filter_eq_self.mpr fun u hu => ?_
        exact bne_iff_ne.mpr fun heq => ht (List.mem_map.mpr ⟨u, hu, heq⟩)
      simp [hrest]
    · have hne : t.header ≠ h := fun heq => ht (List.mem_map.mpr ⟨_, hmem, heq.symm⟩)
      rw [List.filter_cons_of_pos (by simpa using hne)]
      simp only [List.map_cons, List.sum_cons, ih hmem hd]
      omega

theorem filter {p : Term → Bool} {k : UInt32} : Canonical L ⟨e.terms.filter p, k⟩ where
  sorted := C.sorted.filter _
  nonzero t ht := C.nonzero t (List.mem_of_mem_filter ht)

omit C in
/-- What is left once a counter is replaced by a number. -/
theorem substitute_cases {e' : Affine} (hs : (Symbolic.affine e).substitute h n = .affine e') :
    e.coefficient? h = none ∧ e' = e ∨ ∃ k d, e.coefficient? h = some k ∧
      Term.mulCoef? k n = some d ∧
      e' = ⟨e.terms.filter fun t => t.header != h, e.constant + word d⟩ := by
  unfold Symbolic.substitute at hs
  cases hk : e.coefficient? h with
  | none =>
    simp only [hk] at hs
    cases hs
    exact .inl ⟨rfl, rfl⟩
  | some k =>
    simp only [hk] at hs
    split at hs
    · cases hm : Term.mulCoef? k n with
      | none =>
        rw [hm] at hs
        cases hs
      | some d =>
        rw [hm] at hs
        simp only [Symbolic.ofTerms] at hs
        split at hs
        · cases hs
        · cases hs
          exact .inr ⟨k, d, rfl, hm, rfl⟩
    · cases hs

/-- Replacing a counter by its value keeps the value of the expression. -/
theorem eval_substitute {e' : Affine} (hs : (Symbolic.affine e).substitute h n = .affine e')
    (hc : c h = n) : e'.eval c = e.eval c := by
  rcases substitute_cases hs with ⟨-, rfl⟩ | ⟨k, d, hk, hd, rfl⟩
  · rfl
  · rw [eval_eq, eval_eq, C.offset_filter hk, hc, word_add, word_toNat, Term.word_mulCoef? hd,
      ← word_mul, word_add, word_add, word_toNat, UInt32.add_assoc]

/-- The counter that is replaced is gone. -/
theorem substitute {e' : Affine} (hs : (Symbolic.affine e).substitute h n = .affine e') :
    Canonical L e' ∧ ∀ t ∈ e'.terms, t ∈ e.terms ∧ t.header ≠ h := by
  rcases substitute_cases hs with ⟨hk, rfl⟩ | ⟨k, d, -, -, rfl⟩
  · exact ⟨C, fun t ht => ⟨ht, coefficient?_eq_none.mp hk t ht⟩⟩
  · refine ⟨C.filter, fun t ht => ?_⟩
    obtain ⟨ht, hne⟩ := List.mem_filter.mp ht
    exact ⟨ht, bne_iff_ne.mp hne⟩

end Canonical

end Affine

theorem Symbolic.constant?_eq_some {v : Symbolic} {c : UInt32} :
    v.constant? = some c ↔ v = .const c := by
  constructor
  · intro h
    cases v with
    | top => cases h
    | bottom => cases h
    | affine e =>
      obtain ⟨hterms, hc⟩ := Option.ite_none_right_eq_some.mp h
      rw [const, ← List.isEmpty_iff.mp hterms, ← Option.some.inj hc]
  · rintro rfl
    rfl

theorem Symbolic.isConstant_iff {v : Symbolic} : v.isConstant = true ↔ ∃ c, v = .const c := by
  simp only [isConstant, Option.isSome_iff_exists, constant?_eq_some]

/-- The value is a constant, or nothing is known about it. -/
def Symbolic.Plain (v : Symbolic) : Prop := v.isConstant = true ∨ v = .top

instance (v : Symbolic) : Decidable v.Plain :=
  inferInstanceAs (Decidable (v.isConstant = true ∨ v = .top))

theorem Symbolic.Plain.cases {v : Symbolic} (h : v.Plain) : v = .top ∨ ∃ c, v = .const c :=
  h.elim (fun h => .inr (isConstant_iff.mp h)) .inl

end MissBound
