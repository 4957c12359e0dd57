import MissBound.Lru.NodeArena
import MissBound.Proofs.Lru.Order

/-!
The lines of lists that are merged or put in order piece by piece. Two ascending lists merged in
step have the lines of their join. Pieces that are sorted and then joined with their neighbours have
the same lines as if each line had been put at its place in turn: sorting keeps the order of the
lines of one key, so that these are joined in the same order.
-/

namespace MissBound

namespace SetDomain

variable {D : SetDomain} {k l m x y : Line} {ls xs ys : List Line}

theorem sameKey_of_compareLines (h : D.compareLines l m = .lt) : l.sameKey m = false :=
  Bool.eq_false_iff.mpr fun hkey => by
    cases h.symm.trans (compareLines_eq.mpr (sameKey_iff.mp hkey))

theorem sameKey_comm : l.sameKey m = m.sameKey l := by
  rw [Bool.eq_iff_iff, sameKey_iff, sameKey_iff, eq_comm, eq_comm (a := l.generation)]

theorem sameKey_congr (h : l.sameKey m = true) : l.sameKey k = m.sameKey k := by
  obtain ⟨hr, hg⟩ := sameKey_iff.mp h
  rw [Line.sameKey, Line.sameKey, hr, hg]

/-- Only one of two lines in strict order has a given key. -/
theorem sameKey_eq_false_of_lt (hkey : l.sameKey k = true) (h : D.compareLines l m = .lt) :
    m.sameKey k = false := by
  rw [sameKey_comm, ← sameKey_congr hkey, sameKey_of_compareLines h]

theorem find?_sameKey_eq_none (h : ∀ m ∈ ls, D.compareLines l m = .lt) :
    ls.find? (·.sameKey l) = none :=
  List.find?_eq_none.mpr fun m hm =>
    Bool.eq_false_iff.mp (sameKey_comm.trans (sameKey_of_compareLines (h m hm)))

theorem isLE_or_isLE : ((D.compareLines l m).isLE || (D.compareLines m l).isLE) = true := by
  have hswap : D.compareLines m l = (D.compareLines l m).swap := Std.OrientedCmp.eq_swap
  rw [hswap]
  cases D.compareLines l m <;> rfl

theorem lt_of_isLE (h : (D.compareLines l m).isLE = true)
    (hne : ¬(D.compareLines l m == .eq) = true) : D.compareLines l m = .lt :=
  (Ordering.isLE_iff_eq_lt_or_eq_eq.mp h).resolve_right fun heq => hne (beq_iff_eq.mpr heq)

/-! The join of two lists in step. -/

theorem insert_of_lt (h : ∀ m ∈ ls, D.compareLines l m = .lt) : D.insert l ls = l :: ls := by
  cases ls with
  | nil => rfl
  | cons m ls =>
    exact if_pos (beq_iff_eq.mpr (Std.OrientedCmp.gt_of_lt (h m List.mem_cons_self)))

/-- Greater lines are put behind the first one. -/
theorem foldl_insert_cons (h : ∀ y ∈ ys, D.compareLines m y = .lt) :
    ys.foldl (fun acc y => D.insert (D.oneSided y) acc) (m :: ls) =
      m :: ys.foldl (fun acc y => D.insert (D.oneSided y) acc) ls := by
  induction ys generalizing ls with
  | nil => rfl
  | cons y ys ih =>
    have hlt : D.compareLines m (D.oneSided y) = .lt := h y List.mem_cons_self
    have hinsert : D.insert (D.oneSided y) (m :: ls) = m :: D.insert (D.oneSided y) ls := by
      rw [insert, hlt]
      rfl
    rw [List.foldl_cons, hinsert, ih fun z hz => h z (List.mem_cons_of_mem _ hz), List.foldl_cons]

theorem foldl_insert_nil (h : D.Ascending ys) :
    ys.foldl (fun acc y => D.insert (D.oneSided y) acc) [] = ys.map D.oneSided := by
  induction ys with
  | nil => rfl
  | cons y ys ih =>
    obtain ⟨hlt, hys⟩ := List.pairwise_cons.mp h
    have hcons : D.insert (D.oneSided y) [] = [D.oneSided y] := rfl
    rw [List.foldl_cons, hcons, foldl_insert_cons (m := D.oneSided y) hlt, ih hys, List.map_cons]

theorem joinLines_nil_left (h : D.Ascending ys) : D.joinLines [] ys = ys.map D.oneSided := by
  have hothers : (ys.filter fun y => !([] : List Line).any (·.sameKey y)) = ys :=
    List.filter_eq_self.mpr fun _ _ => rfl
  unfold joinLines
  simp only [hothers, List.map_nil]
  exact foldl_insert_nil h

theorem joinLines_nil_right : D.joinLines xs [] = xs.map D.oneSided := rfl

/-- Lines of the second list that are not in the first one. -/
theorem others_cons (h : ∀ y ∈ ys, D.compareLines x y = .lt) :
    (ys.filter fun y => !(x :: xs).any (·.sameKey y)) =
      ys.filter fun y => !xs.any (·.sameKey y) := by
  refine List.filter_congr fun y hy => ?_
  rw [List.any_cons, sameKey_of_compareLines (h y hy), Bool.false_or]

/-- The first line of the first list is the least of all. -/
theorem joinLines_cons_lt (h : ∀ y ∈ ys, D.compareLines x y = .lt) :
    D.joinLines (x :: xs) ys = D.oneSided x :: D.joinLines xs ys := by
  have hjoined : D.joined ys x = D.oneSided x := by rw [joined, find?_sameKey_eq_none h]
  have hothers : ∀ y ∈ ys.filter fun y => !xs.any (·.sameKey y),
      D.compareLines (D.joined ys x) y = .lt := fun y hy =>
    (compareLines_congr joined_key.1 joined_key.2 rfl rfl).trans (h y (List.mem_of_mem_filter hy))
  change ((ys.filter fun y => !(x :: xs).any (·.sameKey y)).foldl
    (fun acc y => D.insert (D.oneSided y) acc) (D.joined ys x :: xs.map (D.joined ys))) = _
  rw [others_cons h, foldl_insert_cons hothers, hjoined]
  rfl

/-- The first line of the second list is the least of all. -/
theorem joinLines_cons_gt (hx : ∀ x ∈ xs, D.compareLines y x = .lt)
    (hy : ∀ z ∈ ys, D.compareLines y z = .lt) :
    D.joinLines xs (y :: ys) = D.oneSided y :: D.joinLines xs ys := by
  have hjoined : xs.map (D.joined (y :: ys)) = xs.map (D.joined ys) := by
    refine List.map_congr_left fun x hmem => ?_
    unfold joined
    rw [List.find?_cons, sameKey_of_compareLines (hx x hmem)]
  have hother : xs.any (·.sameKey y) = false := by
    refine List.any_eq_false.mpr fun x hmem => ?_
    exact Bool.eq_false_iff.mp (sameKey_comm.trans (sameKey_of_compareLines (hx x hmem)))
  have hfirst : ∀ m ∈ xs.map (D.joined ys), D.compareLines (D.oneSided y) m = .lt := by
    intro m hm
    obtain ⟨x, hmem, rfl⟩ := List.mem_map.mp hm
    exact (compareLines_congr rfl rfl joined_key.1 joined_key.2).trans (hx x hmem)
  change (((y :: ys).filter fun y => !xs.any (·.sameKey y)).foldl
    (fun acc y => D.insert (D.oneSided y) acc) (xs.map (D.joined (y :: ys)))) = _
  rw [hjoined, List.filter_cons_of_pos (by rw [hother]; rfl), List.foldl_cons, insert_of_lt hfirst,
    foldl_insert_cons (m := D.oneSided y) fun z hz => hy z (List.mem_of_mem_filter hz)]
  rfl

/-- Both lists start with the same key. -/
theorem joinLines_cons_eq (hkey : D.compareLines x y = .eq)
    (hx : ∀ z ∈ xs, D.compareLines x z = .lt) (hy : ∀ z ∈ ys, D.compareLines y z = .lt) :
    D.joinLines (x :: xs) (y :: ys) = x.join y :: D.joinLines xs ys := by
  have hsame : x.sameKey y = true := sameKey_iff.mpr (compareLines_eq.mp hkey)
  have hxy : ∀ z ∈ ys, D.compareLines x z = .lt := fun z hz =>
    (Std.TransCmp.congr_left hkey).trans (hy z hz)
  have hfirst : D.joined (y :: ys) x = x.join y := by
    rw [joined, List.find?_cons, sameKey_comm, hsame]
  have hjoined : xs.map (D.joined (y :: ys)) = xs.map (D.joined ys) := by
    refine List.map_congr_left fun z hz => ?_
    have hlt : D.compareLines y z = .lt := (Std.TransCmp.congr_left hkey).symm.trans (hx z hz)
    unfold joined
    rw [List.find?_cons, sameKey_of_compareLines hlt]
  change (((y :: ys).filter fun y => !(x :: xs).any (·.sameKey y)).foldl
    (fun acc y => D.insert (D.oneSided y) acc)
    (D.joined (y :: ys) x :: xs.map (D.joined (y :: ys)))) = _
  rw [hfirst, hjoined, List.filter_cons_of_neg (by simp [hsame]), others_cons hxy,
    foldl_insert_cons (m := x.join y) fun z hz => hxy z (List.mem_of_mem_filter hz)]
  rfl

/-! Lines put at their places one after another. -/

theorem Ascending.find?_eq_some (h : D.Ascending ls) :
    ls.find? (·.sameKey k) = some l ↔ l ∈ ls ∧ l.sameKey k = true := by
  refine ⟨fun hl => ⟨List.mem_of_find?_eq_some hl, by simpa using List.find?_some hl⟩, fun hl => ?_⟩
  cases hm : ls.find? (·.sameKey k) with
  | none => exact absurd hl.2 (List.find?_eq_none.mp hm l hl.1)
  | some m =>
    have hkey : m.sameKey k = true := by simpa using List.find?_some hm
    obtain ⟨hr, hg⟩ := sameKey_iff.mp hkey
    obtain ⟨hr', hg'⟩ := sameKey_iff.mp hl.2
    rw [h.eq (List.mem_of_find?_eq_some hm) hl.1 (hr.trans hr'.symm) (hg.trans hg'.symm)]

/-- Lines in order are determined by the one for each key. -/
theorem Ascending.ext_find (hx : D.Ascending xs) (hy : D.Ascending ys)
    (h : ∀ k, xs.find? (·.sameKey k) = ys.find? (·.sameKey k)) : xs = ys := by
  have hself : ∀ l : Line, l.sameKey l = true := fun l => sameKey_iff.mpr ⟨rfl, rfl⟩
  refine hx.ext hy fun l => ?_
  have hl : ∀ {ls : List Line}, D.Ascending ls → (l ∈ ls ↔ ls.find? (·.sameKey l) = some l) :=
    fun hls => by rw [hls.find?_eq_some, and_iff_left (hself l)]
  rw [hl hx, hl hy, h]

/-- What becomes of the lines of one key, one more coming in. -/
def gather (o : Option Line) (l : Line) : Option Line := some (o.elim l (·.join l))

theorem find?_insertJoining (h : D.Ascending ls) : (D.insertJoining l ls).find? (·.sameKey k) =
    if l.sameKey k then gather (ls.find? (·.sameKey k)) l else ls.find? (·.sameKey k) := by
  induction ls with
  | nil =>
    rw [insertJoining, List.find?_cons]
    cases l.sameKey k <;> rfl
  | cons m ls ih =>
    obtain ⟨hm, hls⟩ := List.pairwise_cons.mp h
    rw [insertJoining]
    cases hcmp : D.compareLines m l with
    | gt =>
      have hlt : D.compareLines l m = .lt := Std.OrientedCmp.lt_of_gt hcmp
      have hall : ∀ z ∈ m :: ls, D.compareLines l z = .lt := by
        intro z hz
        rcases List.mem_cons.mp hz with rfl | hz
        · exact hlt
        · exact Std.TransCmp.lt_trans hlt (hm z hz)
      simp only [List.find?_cons (a := l)]
      cases hkey : l.sameKey k with
      | false => rfl
      | true =>
        have hnone : (m :: ls).find? (·.sameKey k) = none :=
          List.find?_eq_none.mpr fun z hz =>
            Bool.eq_false_iff.mp (sameKey_eq_false_of_lt hkey (hall z hz))
        rw [if_pos rfl, hnone]
        rfl
    | eq =>
      have hsame : m.sameKey l = true := sameKey_iff.mpr (compareLines_eq.mp hcmp)
      have hjoin : (m.join l).sameKey k = m.sameKey k := rfl
      simp only [List.find?_cons, hjoin, sameKey_congr hsame]
      cases l.sameKey k <;> rfl
    | lt =>
      simp only [List.find?_cons (a := m)]
      cases hkey : m.sameKey k with
      | false => exact ih hls
      | true =>
        rw [sameKey_eq_false_of_lt hkey hcmp]
        rfl

theorem ascending_foldl_insertJoining (h : D.Ascending ls) :
    D.Ascending (xs.foldl (fun acc l => D.insertJoining l acc) ls) :=
  List.foldlRecOn xs _ h fun _ hacc _ _ => hacc.insertJoining

/-- The lines of one key are joined in the order in which they come. -/
theorem find?_foldl_insertJoining (h : D.Ascending ls) :
    (xs.foldl (fun acc l => D.insertJoining l acc) ls).find? (·.sameKey k) =
      (xs.filter (·.sameKey k)).foldl gather (ls.find? (·.sameKey k)) := by
  induction xs generalizing ls with
  | nil => rfl
  | cons x xs ih =>
    rw [List.foldl_cons, ih h.insertJoining, find?_insertJoining h, List.filter_cons]
    cases x.sameKey k <;> rfl

end SetDomain

namespace NodeArena.Piece

open SetDomain

variable {D : SetDomain} {k : Line} {p q : Piece} {ps rest : List Piece} {xs ys : List (Nat × Line)}

/-- Lists merged in step have the lines of the join. -/
theorem lines_merge (hx : D.Ascending (xs.map (·.2))) (hy : D.Ascending (ys.map (·.2))) :
    (merge D xs ys).map (·.line) = D.joinLines (xs.map (·.2)) (ys.map (·.2)) := by
  fun_induction merge D xs ys with
  | case1 ys =>
    rw [List.map_nil, joinLines_nil_left hy, List.map_map, List.map_map]
    rfl
  | case2 x xs =>
    rw [List.map_nil, joinLines_nil_right, List.map_map, List.map_map]
    rfl
  | case3 x xs y ys hcmp ih =>
    obtain ⟨-, hxs⟩ := List.pairwise_cons.mp hx
    have hlt : ∀ z ∈ (y :: ys).map (·.2), D.compareLines x.2 z = .lt := by
      intro z hz
      rcases List.mem_cons.mp hz with rfl | hz
      · exact hcmp
      · exact Std.TransCmp.lt_trans hcmp ((List.pairwise_cons.mp hy).1 z hz)
    rw [List.map_cons, ih hxs hy, List.map_cons (l := xs), joinLines_cons_lt hlt]
    rfl
  | case4 x xs y ys hcmp ih =>
    obtain ⟨hy', hys⟩ := List.pairwise_cons.mp hy
    have hlt : ∀ z ∈ (x :: xs).map (·.2), D.compareLines y.2 z = .lt := by
      intro z hz
      rcases List.mem_cons.mp hz with rfl | hz
      · exact Std.OrientedCmp.lt_of_gt hcmp
      · exact Std.TransCmp.lt_trans (Std.OrientedCmp.lt_of_gt hcmp)
          ((List.pairwise_cons.mp hx).1 z hz)
    rw [List.map_cons, ih hx hys, List.map_cons (l := ys), joinLines_cons_gt hlt hy']
    rfl
  | case5 x xs y ys hcmp ih =>
    obtain ⟨hx', hxs⟩ := List.pairwise_cons.mp hx
    obtain ⟨hy', hys⟩ := List.pairwise_cons.mp hy
    rw [List.map_cons, ih hxs hys, List.map_cons (l := xs), List.map_cons (l := ys),
      joinLines_cons_eq hcmp hx' hy']
    rfl

theorem lines_insert : (insert D p ps).map (·.line) = D.insert p.line (ps.map (·.line)) := by
  induction ps with
  | nil => rfl
  | cons q ps ih =>
    rw [insert, List.map_cons, SetDomain.insert]
    split
    · rfl
    · rw [List.map_cons, ih]

/-- The pieces stand in ascending order, where several may have one key. -/
def Sorted (D : SetDomain) (ps : List Piece) : Prop :=
  ps.Pairwise fun p q => (D.compareLines p.line q.line).isLE = true

/-- Neighbours joined, every key stands once. -/
theorem ascending_fuse (h : Sorted D (p :: rest)) : D.Ascending ((fuse D p rest).map (·.line)) ∧
    ∀ q ∈ fuse D p rest, (D.compareLines p.line q.line).isLE = true := by
  have hself : ∀ l, (D.compareLines l l).isLE = true := fun l => by
    rw [compareLines_eq.mpr ⟨rfl, rfl⟩]
    rfl
  induction rest generalizing p with
  | nil =>
    refine ⟨List.pairwise_singleton .., fun q hq => ?_⟩
    rw [List.mem_singleton.mp hq]
    exact hself _
  | cons r rest ih =>
    obtain ⟨hp, hrest⟩ := List.pairwise_cons.mp h
    rw [fuse]
    split
    · exact ih (List.pairwise_cons.mpr ⟨fun q hq => hp q (List.mem_cons_of_mem _ hq),
        (List.pairwise_cons.mp hrest).2⟩)
    · rename_i hne
      obtain ⟨hasc, hle⟩ := ih hrest
      have hlt := lt_of_isLE (hp r List.mem_cons_self) hne
      have hall : ∀ q ∈ fuse D r rest, D.compareLines p.line q.line = .lt := fun q hq =>
        Std.TransCmp.lt_of_lt_of_isLE hlt (hle q hq)
      refine ⟨List.pairwise_cons.mpr ⟨fun l hl => ?_, hasc⟩, fun q hq => ?_⟩
      · obtain ⟨q, hq, rfl⟩ := List.mem_map.mp hl
        exact hall q hq
      · rcases List.mem_cons.mp hq with rfl | hq
        · exact hself _
        · rw [hall q hq]
          rfl

theorem find?_fuse (h : Sorted D (p :: rest)) : ((fuse D p rest).map (·.line)).find? (·.sameKey k) =
    (((p :: rest).map (·.line)).filter (·.sameKey k)).foldl gather none := by
  induction rest generalizing p with
  | nil =>
    rw [fuse, List.map_cons, List.map_nil, List.find?_cons, List.filter_cons]
    cases p.line.sameKey k <;> rfl
  | cons r rest ih =>
    obtain ⟨hp, hrest⟩ := List.pairwise_cons.mp h
    rw [fuse]
    split
    · rename_i heq
      have hsame : p.line.sameKey r.line = true :=
        sameKey_iff.mpr (compareLines_eq.mp (beq_iff_eq.mp heq))
      have hjoin : (p.line.join r.line).sameKey k = r.line.sameKey k := sameKey_congr hsame
      have hjoined : Sorted D (⟨p.line.join r.line, none⟩ :: rest) := List.pairwise_cons.mpr
        ⟨fun q hq => hp q (List.mem_cons_of_mem _ hq), (List.pairwise_cons.mp hrest).2⟩
      rw [ih hjoined]
      simp only [List.map_cons, List.filter_cons, hjoin, sameKey_congr hsame]
      cases r.line.sameKey k <;> rfl
    · rename_i hne
      have hlt := lt_of_isLE (hp r List.mem_cons_self) hne
      rw [List.map_cons, List.find?_cons, List.map_cons, List.filter_cons]
      cases hkey : p.line.sameKey k with
      | false => exact ih hrest
      | true =>
        -- all that follow are greater, so no other line has the key
        have hnone : ((r :: rest).map (·.line)).filter (·.sameKey k) = [] := by
          refine List.filter_eq_nil_iff.mpr fun l hl => ?_
          obtain ⟨q, hq, rfl⟩ := List.mem_map.mp hl
          have hpq : D.compareLines p.line q.line = .lt := by
            rcases List.mem_cons.mp hq with rfl | hq
            · exact hlt
            · exact Std.TransCmp.lt_of_lt_of_isLE hlt ((List.pairwise_cons.mp hrest).1 q hq)
          exact Bool.eq_false_iff.mp (sameKey_eq_false_of_lt hkey hpq)
        rw [if_pos rfl, hnone]
        rfl

/-- Sorting keeps the order of the pieces of one key. -/
theorem filter_mergeSort :
    (ps.mergeSort fun p q => (D.compareLines p.line q.line).isLE).filter (·.line.sameKey k) =
      ps.filter (·.line.sameKey k) := by
  have hperm := List.mergeSort_perm ps fun p q => (D.compareLines p.line q.line).isLE
  have hsub : (ps.filter (·.line.sameKey k)).Sublist
      (ps.mergeSort fun p q => (D.compareLines p.line q.line).isLE) := by
    refine List.sublist_mergeSort (fun _ _ _ => Std.TransCmp.isLE_trans) (fun _ _ => isLE_or_isLE)
      (List.pairwise_of_forall_mem_list fun p hp q hq => ?_) List.filter_sublist
    have hp : p.line.sameKey k = true := (List.mem_filter.mp hp).2
    have hq : q.line.sameKey k = true := (List.mem_filter.mp hq).2
    rw [compareLines_eq.mpr (sameKey_iff.mp ((sameKey_congr hp).trans (sameKey_comm.trans hq)))]
    rfl
  have hsub := hsub.filter (·.line.sameKey k)
  rw [List.filter_filter] at hsub
  simp only [Bool.and_self] at hsub
  exact (hsub.eq_of_length (hperm.filter _).length_eq.symm).symm

/-- Pieces put in order have the lines that come from putting each line at its place. -/
theorem lines_collate : (collate D ps).map (·.line) =
    (ps.map (·.line)).foldl (fun acc l => D.insertJoining l acc) [] := by
  have hsorted : Sorted D (ps.mergeSort fun p q => (D.compareLines p.line q.line).isLE) :=
    List.pairwise_mergeSort (fun _ _ _ => Std.TransCmp.isLE_trans) (fun _ _ => isLE_or_isLE) ps
  have hfind : ∀ k, ((collate D ps).map (·.line)).find? (·.sameKey k) =
      ((ps.map (·.line)).filter (·.sameKey k)).foldl gather none := by
    intro k
    have hfilter : ((ps.mergeSort fun p q => (D.compareLines p.line q.line).isLE).map
        (·.line)).filter (·.sameKey k) = (ps.map (·.line)).filter (·.sameKey k) := by
      rw [List.filter_map, List.filter_map]
      exact congrArg _ filter_mergeSort
    rw [← hfilter, collate]
    split
    · rename_i hnil
      rw [hnil]
      rfl
    · rename_i hcons
      rw [hcons] at hsorted ⊢
      exact find?_fuse hsorted
  have hascending : D.Ascending ((collate D ps).map (·.line)) := by
    rw [collate]
    split
    · exact .nil
    · rename_i hcons
      rw [hcons] at hsorted
      exact (ascending_fuse hsorted).1
  refine hascending.ext_find (ascending_foldl_insertJoining .nil) fun k => ?_
  rw [hfind, find?_foldl_insertJoining .nil]
  rfl

end NodeArena.Piece

end MissBound
