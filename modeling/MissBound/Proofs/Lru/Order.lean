import MissBound.Proofs.Lru.Scope

/-!
The order of lines. It is a linear order of keys, and every operation on the lines of a state keeps
them in it, so that a state has one line for a key at most.
-/

namespace MissBound

/-- A comparison of what is read off two values. -/
theorem transCmp_of {α β : Type} (cmp : β → β → Ordering) [Std.TransCmp cmp] (f : α → β) :
    Std.TransCmp fun a b => cmp (f a) (f b) where
  eq_swap := Std.OrientedCmp.eq_swap
  isLE_trans := Std.TransCmp.isLE_trans

instance (L : LoopForest) : Std.TransCmp L.compareHeaders :=
  have : Std.TransCmp fun a b => compare (L.dominatorDepth b) (L.dominatorDepth a) :=
    transCmp_of (fun m n : Nat => compare n m) L.dominatorDepth
  inferInstanceAs (Std.TransCmp
    (compareLex (fun a b => compare (L.dominatorDepth b) (L.dominatorDepth a)) fun a b =>
      compare a b))

/-- Terms by header, then by coefficient. -/
def Term.compare (L : LoopForest) : Term → Term → Ordering :=
  compareLex (fun s t => L.compareHeaders s.header t.header) fun s t => Ord.compare s.coef t.coef

instance (L : LoopForest) : Std.TransCmp (Term.compare L) :=
  have := transCmp_of L.compareHeaders Term.header
  have := transCmp_of (fun a b : Int => Ord.compare a b) Term.coef
  inferInstanceAs (Std.TransCmp (compareLex (fun s t : Term => L.compareHeaders s.header t.header)
    fun s t => Ord.compare s.coef t.coef))

instance (L : LoopForest) : Std.LawfulEqCmp (Term.compare L) where
  compare_self := Std.ReflCmp.compare_self
  eq_of_compare {s t} h := by
    obtain ⟨h₁, h₂⟩ := Ordering.then_eq_eq.mp h
    obtain ⟨c, n⟩ := s
    obtain ⟨d, m⟩ := t
    cases L.compareHeaders_eq.mp h₁
    cases Std.LawfulEqCmp.eq_of_compare h₂
    rfl

theorem Affine.compareTerms_eq {L : LoopForest} {xs ys : List Term} :
    compareTerms L.compareHeaders xs ys = List.compareLex (Term.compare L) xs ys := by
  induction xs generalizing ys with
  | nil => cases ys <;> rfl
  | cons x xs ih =>
    cases ys with
    | nil => rfl
    | cons y ys =>
      rw [compareTerms, ih, List.compareLex_cons_cons]
      rfl

namespace Symbolic

/-- The unreached value first, the unknown one last. -/
def kind : Symbolic → Nat
  | bottom => 0
  | affine _ => 1
  | top => 2

def offset : Symbolic → Nat
  | affine e => e.constant.toNat
  | _ => 0

theorem compare_eq {L : LoopForest} {a b : Symbolic} : compare L a b =
    ((Ord.compare a.kind b.kind).then (List.compareLex (Term.compare L) a.terms b.terms)).then
      (Ord.compare a.offset b.offset) := by
  unfold compare
  split
  · rename_i heq
    have hkind : Ord.compare b.kind b.kind = .eq := Std.ReflCmp.compare_self
    have hterms : List.compareLex (Term.compare L) b.terms b.terms = .eq := Std.ReflCmp.compare_self
    have hoffset : Ord.compare b.offset b.offset = .eq := Std.ReflCmp.compare_self
    rw [heq, hkind, hterms, hoffset]
    rfl
  · rename_i hne
    cases a <;> cases b <;> first | rfl | exact absurd rfl hne | skip
    rw [← Affine.compareTerms_eq]
    rfl

instance (L : LoopForest) : Std.TransCmp (compare L) := by
  have h₁ := transCmp_of (fun m n : Nat => Ord.compare m n) kind
  have h₂ := transCmp_of (List.compareLex (Term.compare L)) terms
  have h₃ := transCmp_of (fun m n : Nat => Ord.compare m n) offset
  have heq : compare L = compareLex (compareLex (fun a b => Ord.compare a.kind b.kind)
      fun a b => List.compareLex (Term.compare L) a.terms b.terms)
      fun a b => Ord.compare a.offset b.offset := by
    funext a b
    exact compare_eq
  rw [heq]
  infer_instance

theorem eq_of_compare {L : LoopForest} {a b : Symbolic} (h : compare L a b = .eq) : a = b := by
  rw [compare_eq] at h
  obtain ⟨h, hoffset⟩ := Ordering.then_eq_eq.mp h
  obtain ⟨hkind, hterms⟩ := Ordering.then_eq_eq.mp h
  have hkind := Nat.compare_eq_eq.mp hkind
  have hterms := Std.LawfulEqCmp.eq_of_compare hterms
  have hoffset := Nat.compare_eq_eq.mp hoffset
  match a, b, hkind with
  | bottom, bottom, _ => rfl
  | top, top, _ => rfl
  | affine ⟨xs, k⟩, affine ⟨ys, j⟩, _ =>
    cases hterms
    cases UInt32.toNat_inj.mp hoffset
    rfl

end Symbolic

namespace SetDomain

variable {D : SetDomain} {l m x : Line} {ls xs ys : List Line}

instance : Std.TransCmp D.compareLines :=
  have := transCmp_of (Symbolic.compare D.loops) Line.reference
  have := transCmp_of (fun m n : Nat => compare m n) Line.generation
  inferInstanceAs (Std.TransCmp (compareLex
    (fun l m : Line => Symbolic.compare D.loops l.reference m.reference)
    fun l m => compare l.generation m.generation))

/-- Lines compare equal if they have the same key. -/
theorem compareLines_eq : D.compareLines l m = .eq ↔
    l.reference = m.reference ∧ l.generation = m.generation := by
  rw [compareLines, Ordering.then_eq_eq, Nat.compare_eq_eq]
  refine and_congr_left fun _ => ⟨Symbolic.eq_of_compare, fun h => ?_⟩
  rw [h]
  exact Std.ReflCmp.compare_self

theorem compareLines_congr {l' m' : Line} (h₁ : l.reference = l'.reference)
    (h₂ : l.generation = l'.generation) (h₃ : m.reference = m'.reference)
    (h₄ : m.generation = m'.generation) : D.compareLines l m = D.compareLines l' m' := by
  unfold compareLines
  rw [h₁, h₂, h₃, h₄]

/-- The lines stand in ascending order, each key once. -/
def Ascending (D : SetDomain) (ls : List Line) : Prop :=
  ls.Pairwise fun l m => D.compareLines l m = .lt

/-- Only one line has a given key. -/
theorem Ascending.eq (h : D.Ascending ls) (hl : l ∈ ls) (hm : m ∈ ls)
    (hr : l.reference = m.reference) (hg : l.generation = m.generation) : l = m := by
  induction ls with
  | nil => cases hl
  | cons x ls ih =>
    obtain ⟨hx, h⟩ := List.pairwise_cons.mp h
    rcases List.mem_cons.mp hl with rfl | hl' <;> rcases List.mem_cons.mp hm with rfl | hm'
    · rfl
    · cases (hx m hm').symm.trans (compareLines_eq.mpr ⟨hr, hg⟩)
    · cases (hx l hl').symm.trans (compareLines_eq.mpr ⟨hr.symm, hg.symm⟩)
    · exact ih h hl' hm'

/-- Lines in order are determined by which lines there are. -/
theorem Ascending.ext (hx : D.Ascending xs) (hy : D.Ascending ys) (h : ∀ l, l ∈ xs ↔ l ∈ ys) :
    xs = ys := by
  have : Std.Antisymm fun l m : Line => D.compareLines l m = .lt :=
    ⟨fun l m hlt hgt => (by cases (Std.OrientedCmp.gt_of_lt hlt).symm.trans hgt)⟩
  have : Std.Irrefl fun l m : Line => D.compareLines l m = .lt :=
    ⟨fun l hlt => (by cases hlt.symm.trans (compareLines_eq.mpr ⟨rfl, rfl⟩))⟩
  exact List.Pairwise.eq_of_mem_iff hx hy h

theorem Ascending.map {f : Line → Line} (h : D.Ascending ls)
    (hf : ∀ l, (f l).reference = l.reference ∧ (f l).generation = l.generation) :
    D.Ascending (ls.map f) := by
  refine List.pairwise_map.mpr (h.imp fun {l m} hlt => ?_)
  exact (compareLines_congr (hf l).1 (hf l).2 (hf m).1 (hf m).2).trans hlt

/-- A line with a key of its own is put at its place. -/
theorem Ascending.insert (h : D.Ascending ls) (hx : ∀ m ∈ ls, D.compareLines m x ≠ .eq) :
    D.Ascending (D.insert x ls) := by
  induction ls with
  | nil => exact List.pairwise_singleton ..
  | cons m ls ih =>
    obtain ⟨hm, hrest⟩ := List.pairwise_cons.mp h
    unfold SetDomain.insert
    split
    · rename_i hgt
      have hlt : D.compareLines x m = .lt := Std.OrientedCmp.lt_of_gt (beq_iff_eq.mp hgt)
      refine List.pairwise_cons.mpr ⟨fun k hk => ?_, h⟩
      rcases List.mem_cons.mp hk with rfl | hk
      · exact hlt
      · exact Std.TransCmp.lt_trans hlt (hm k hk)
    · rename_i hgt
      refine List.pairwise_cons.mpr ⟨fun k hk => ?_, ih hrest fun k hk => hx k (.tail _ hk)⟩
      rcases mem_insert.mp hk with rfl | hk
      · cases hc : D.compareLines m k with
        | lt => rfl
        | eq => exact absurd hc (hx m List.mem_cons_self)
        | gt => exact absurd (beq_iff_eq.mpr hc) hgt
      · exact hm k hk

theorem Ascending.insertJoining (h : D.Ascending ls) : D.Ascending (D.insertJoining x ls) := by
  induction ls with
  | nil => exact List.pairwise_singleton ..
  | cons m ls ih =>
    obtain ⟨hm, hrest⟩ := List.pairwise_cons.mp h
    unfold SetDomain.insertJoining
    split
    · rename_i hgt
      have hlt : D.compareLines x m = .lt := Std.OrientedCmp.lt_of_gt hgt
      refine List.pairwise_cons.mpr ⟨fun k hk => ?_, h⟩
      rcases List.mem_cons.mp hk with rfl | hk
      · exact hlt
      · exact Std.TransCmp.lt_trans hlt (hm k hk)
    · exact List.pairwise_cons.mpr ⟨hm, hrest⟩
    · rename_i hlt
      refine List.pairwise_cons.mpr ⟨fun k hk => ?_, ih hrest⟩
      rcases mem_insertJoining hk with rfl | hk | ⟨y, hy, -, rfl⟩
      · exact hlt
      · exact hm k hk
      · exact hm y hy

theorem Ascending.use {v : Symbolic} {b : Nat} (h : D.Ascending ls) :
    D.Ascending (D.use v b ls) := by
  have hmoved : D.Ascending (ls.map fun l =>
      if l.isFor v then D.touched l else D.aged (D.useAges v ls) l) :=
    h.map fun l => by split <;> exact ⟨rfl, rfl⟩
  unfold SetDomain.use
  simp only
  split
  · exact hmoved
  · rename_i hany
    refine hmoved.insert fun m hm heq => hany ?_
    obtain ⟨k, hk, rfl⟩ := List.mem_map.mp hm
    refine List.any_eq_true.mpr ⟨k, hk, ?_⟩
    obtain ⟨hr, hg⟩ := compareLines_eq.mp heq
    rw [isFor_iff]
    split at hr <;> split at hg <;> exact ⟨hr, hg⟩

/-- The lines of the first path, as they stand in a join. -/
def joined (D : SetDomain) (ys : List Line) (x : Line) : Line :=
  match ys.find? (·.sameKey x) with
  | some y => x.join y
  | none => D.oneSided x

theorem joined_key : (D.joined ys x).reference = x.reference ∧
    (D.joined ys x).generation = x.generation := by
  unfold joined
  split <;> exact ⟨rfl, rfl⟩

theorem Ascending.joinLines (hx : D.Ascending xs) (hy : D.Ascending ys) :
    D.Ascending (D.joinLines xs ys) := by
  have hfold : ∀ others acc : List Line, D.Ascending others → D.Ascending acc →
      (∀ y ∈ others, ∀ m ∈ acc, D.compareLines m y ≠ .eq) →
      D.Ascending (others.foldl (fun acc y => D.insert (D.oneSided y) acc) acc) := by
    intro others
    induction others with
    | nil => exact fun _ _ h _ => h
    | cons y others ih =>
      intro acc ho ha hne
      obtain ⟨hy, ho⟩ := List.pairwise_cons.mp ho
      refine ih _ ho (ha.insert (hne y List.mem_cons_self)) fun z hz m hm => ?_
      rcases mem_insert.mp hm with rfl | hm
      · intro heq
        cases (hy z hz).symm.trans heq
      · exact hne z (List.mem_cons_of_mem _ hz) m hm
  refine hfold _ _ (hy.sublist List.filter_sublist) (hx.map fun _ => joined_key)
    fun y hy m hm heq => ?_
  obtain ⟨x, hx, rfl⟩ := List.mem_map.mp hm
  obtain ⟨-, hnot⟩ := List.mem_filter.mp hy
  rw [Bool.not_eq_true', List.any_eq_false] at hnot
  obtain ⟨hr, hg⟩ := compareLines_eq.mp heq
  exact hnot x hx (sameKey_iff.mpr
    ⟨(joined_key (D := D)).1.symm.trans hr, (joined_key (D := D)).2.symm.trans hg⟩)

end SetDomain

end MissBound
