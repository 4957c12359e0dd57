import MissBound.Proofs.Lru.Lattice
import MissBound.Proofs.Lru.Pieces

/-!
Lists in an arena. Links lead to older nodes and nodes do not change, so that a list is the same
whatever is built later. Which nodes are shared does not matter for what a list stands for; in
particular the join of lists is that of the states, whether or not the lists are told apart by their
first nodes.
-/

namespace MissBound.NodeArena

variable {A B C : NodeArena} {D : SetDomain} {h k m : Handle} {s t u : SetState}
  {line : Line} {lines : List Line} {pieces : List Piece} {head head' next : Option Nat}
  {limit limit' : Nat}

/-- Every link leads to an older node. -/
def Linked (A : NodeArena) : Prop :=
  ∀ (i : Nat) (node : Node), A.nodes[i]? = some node → ∀ n ∈ node.next, n < i

instance : Decidable A.Linked :=
  decidable_of_iff (∀ i : Fin A.nodes.size, A.nodes[i].next.all (· < i.val) = true) <| by
    simp only [Option.all_eq_true, decide_eq_true_eq]
    constructor
    · intro h i node hnode
      obtain ⟨hi, rfl⟩ := Array.getElem?_eq_some_iff.mp hnode
      exact h ⟨i, hi⟩
    · exact fun h i => h i _ (Array.getElem?_eq_getElem i.2)

/-- The list of a handle starts at a node of the arena, if it has one. -/
def Has (A : NodeArena) : Handle → Prop
  | .bottom => True
  | .list head => ∀ n ∈ head, n < A.size

instance : Decidable (A.Has h) :=
  match h with
  | .bottom => isTrue trivial
  | .list head => inferInstanceAs (Decidable (∀ n ∈ head, n < A.size))

/-- The handle is one of the arena and stands for `s`. -/
structure Stands (A : NodeArena) (h : Handle) (s : SetState) : Prop where
  has : A.Has h
  state : A.state h = s

/-- The nodes of `A` are nodes of `B`. -/
def Extends (B A : NodeArena) : Prop :=
  ∀ (i : Nat) (node : Node), A.nodes[i]? = some node → B.nodes[i]? = some node

theorem Extends.refl : A.Extends A := fun _ _ h => h

theorem Extends.trans (hC : C.Extends B) (hB : B.Extends A) : C.Extends A :=
  fun i node h => hC i node (hB i node h)

theorem Extends.size_le (hB : B.Extends A) : A.size ≤ B.size := by
  by_contra hlt
  obtain ⟨hsize, -⟩ := Array.getElem?_eq_some_iff.mp
    (hB B.size _ (Array.getElem?_eq_getElem (Nat.lt_of_not_le hlt)))
  exact Nat.lt_irrefl _ hsize

theorem follow_none : A.follow limit none = [] := by
  cases limit <;> rfl

theorem follow_some {n : Nat} {node : Node} (h : A.nodes[n]? = some node) :
    A.follow (limit + 1) (some n) = (n, node.line) :: A.follow limit node.next := by
  rw [follow, h]

/-- A list that starts below the limit is followed to its end, in a larger arena, too. -/
theorem follow_extend (hA : A.Linked) (hB : B.Extends A)
    (hhead : ∀ n ∈ head, n < A.size ∧ n < limit ∧ n < limit') :
    B.follow limit' head = A.follow limit head := by
  induction limit generalizing limit' head with
  | zero =>
    cases head with
    | none => rw [follow_none, follow_none]
    | some n => exact absurd (hhead n rfl).2.1 (Nat.not_lt_zero n)
  | succ limit ih =>
    cases head with
    | none => rw [follow_none, follow_none]
    | some n =>
      obtain ⟨hsize, hlimit, hlimit'⟩ := hhead n rfl
      obtain ⟨limit', rfl⟩ := Nat.exists_eq_add_one.mpr (Nat.zero_lt_of_lt hlimit')
      have hnode := Array.getElem?_eq_getElem hsize
      rw [follow_some hnode, follow_some (hB n _ hnode), ih fun m hm => ?_]
      have := hA n _ hnode m hm
      omega

theorem state_extend (hA : A.Linked) (hB : B.Extends A) (hh : A.Has h) : B.state h = A.state h := by
  cases h with
  | bottom => rfl
  | list head =>
    refine congrArg (fun es : List (Nat × Line) => SetState.known (es.map (·.2))) ?_
    refine follow_extend hA hB fun n hn => ⟨hh n hn, hh n hn, ?_⟩
    exact Nat.lt_of_lt_of_le (hh n hn) hB.size_le

/-- A handle stands for the same state as the arena grows. -/
theorem Stands.extend (hh : A.Stands h s) (hA : A.Linked) (hB : B.Extends A) : B.Stands h s := by
  refine ⟨?_, (state_extend hA hB hh.has).trans hh.state⟩
  cases h with
  | bottom => trivial
  | list head => exact fun n hn => Nat.lt_of_lt_of_le (hh.has n hn) hB.size_le

/-- Lists are compared up to a common node, behind which they do not differ. -/
theorem equalFrom_iff (hA : A.Linked) (hhead : ∀ n ∈ head, n < A.size ∧ n < limit)
    (hhead' : ∀ n ∈ head', n < A.size ∧ n < limit) : A.equalFrom limit head head' = true ↔
      (A.follow limit head).map (·.2) = (A.follow limit head').map (·.2) := by
  induction limit generalizing head head' with
  | zero =>
    cases head with
    | some n => exact absurd (hhead n rfl).2 (Nat.not_lt_zero n)
    | none =>
      cases head' with
      | some n => exact absurd (hhead' n rfl).2 (Nat.not_lt_zero n)
      | none => exact iff_of_true rfl rfl
  | succ limit ih =>
    cases head with
    | none =>
      cases head' with
      | none => exact iff_of_true rfl rfl
      | some n =>
        rw [follow_none, follow_some (Array.getElem?_eq_getElem (hhead' n rfl).1)]
        exact iff_of_false Bool.false_ne_true (List.cons_ne_nil _ _).symm
    | some m =>
      obtain ⟨hm, hlimit⟩ := hhead m rfl
      have hx := Array.getElem?_eq_getElem hm
      cases head' with
      | none =>
        rw [follow_none, follow_some hx]
        exact iff_of_false Bool.false_ne_true (List.cons_ne_nil _ _)
      | some n =>
        obtain ⟨hn, hlimit'⟩ := hhead' n rfl
        have hy := Array.getElem?_eq_getElem hn
        rw [equalFrom, hx, hy, Bool.or_eq_true, beq_iff_eq]
        by_cases heq : m = n
        · exact iff_of_true (.inl heq) (heq ▸ rfl)
        · rw [or_iff_right heq, Bool.and_eq_true, beq_iff_eq, follow_some hx, follow_some hy,
            List.map_cons, List.map_cons, List.cons.injEq,
            ih (fun i hi => ?_) fun i hi => ?_]
          · have := hA m _ hx i hi
            omega
          · have := hA n _ hy i hi
            omega

theorem equal_iff (hA : A.Linked) (hh : A.Has h) (hk : A.Has k) :
    A.equal h k = true ↔ A.state h = A.state k := by
  cases h with
  | bottom =>
    cases k with
    | bottom => exact iff_of_true rfl rfl
    | list head => exact iff_of_false Bool.false_ne_true SetState.noConfusion
  | list head =>
    cases k with
    | bottom => exact iff_of_false Bool.false_ne_true SetState.noConfusion
    | list head' =>
      have hlines := equalFrom_iff hA (fun n hn => ⟨hh n hn, hh n hn⟩) fun n hn =>
        ⟨hk n hn, hk n hn⟩
      exact hlines.trans ⟨congrArg SetState.known, SetState.known.inj⟩

theorem Stands.equal (hh : A.Stands h s) (hA : A.Linked) (hk : A.Stands k s) : A.equal h k = true :=
  (equal_iff hA hh.has hk.has).mpr (hh.state.trans hk.state.symm)

theorem Stands.of_equal (hh : A.Stands h s) (hA : A.Linked) (hk : A.Has k)
    (heq : A.equal h k = true) : A.Stands k s :=
  ⟨hk, ((equal_iff hA hh.has hk).mp heq).symm.trans hh.state⟩

/-- The outcome of an operation on `A` stands for `s`, and what has been in `A` is still there. -/
structure Yields (A : NodeArena) (r : Handle × NodeArena) (s : SetState) : Prop extends
    r.2.Stands r.1 s where
  linked : r.2.Linked
  kept : r.2.Extends A

theorem Stands.yields (hh : A.Stands h s) (hA : A.Linked) : A.Yields (h, A) s :=
  ⟨hh, hA, .refl⟩

theorem Linked.push (hA : A.Linked) (line : Line) (hnext : A.Has (.list next)) :
    Linked ⟨A.nodes.push ⟨line, next⟩⟩ := by
  intro i node hnode n hn
  rw [Array.getElem?_push] at hnode
  split at hnode
  · rename_i hi
    cases hnode
    exact hi ▸ hnext n hn
  · exact hA i node hnode n hn

theorem extends_push {node : Node} : Extends ⟨A.nodes.push node⟩ A := by
  intro i node' hnode
  obtain ⟨hi, -⟩ := Array.getElem?_eq_some_iff.mp hnode
  rw [Array.getElem?_push, if_neg (Nat.ne_of_lt hi), hnode]

/-- What a list stands for is told by its first node and the rest. -/
theorem stands_node (hA : A.Linked) {n : Nat} (hnode : A.nodes[n]? = some ⟨line, next⟩) :
    A.Stands (.list (some n)) (.known (line :: (A.state (.list next)).lines)) := by
  have hn : n < A.size := (Array.getElem?_eq_some_iff.mp hnode).1
  have hrest : A.follow A.size (some n) = (n, line) :: A.follow A.size next := by
    obtain ⟨limit, hlimit⟩ := Nat.exists_eq_add_one.mpr (Nat.zero_lt_of_lt hn)
    rw [hlimit, follow_some hnode]
    refine congrArg _ (follow_extend hA .refl fun m hm => ?_)
    have := hA n _ hnode m hm
    omega
  refine ⟨fun m hm => Option.mem_some.mp hm ▸ hn, ?_⟩
  exact congrArg (fun es : List (Nat × Line) => SetState.known (es.map (·.2))) hrest

theorem yields_cons (hA : A.Linked) (hnext : A.Stands (.list next) (.known lines)) (line : Line)
    (old : Option Nat) :
    A.Yields (.list (A.cons line old next).1, (A.cons line old next).2)
      (.known (line :: lines)) := by
  have hlines {B : NodeArena} (hB : B.Extends A) : (B.state (.list next)).lines = lines :=
    congrArg SetState.lines (hnext.extend hA hB).state
  unfold cons
  split
  · rename_i n hn
    have hnode : A.nodes[n]? = some ⟨line, next⟩ := by
      simpa using (Option.filter_eq_some_iff.mp hn).2
    exact hlines .refl ▸ (stands_node hA hnode).yields hA
  · have hA' := hA.push line hnext.has
    exact hlines extends_push ▸ ⟨stands_node hA' Array.getElem?_push_size, hA', extends_push⟩

/-- Whatever nodes are tried for reuse, the list built has the given lines. -/
theorem yields_build (hA : A.Linked) :
    A.Yields (A.build pieces) (.known (pieces.map (·.line))) := by
  unfold build
  induction pieces with
  | nil => exact ⟨⟨nofun, congrArg _ (congrArg _ follow_none)⟩, hA, .refl⟩
  | cons p pieces ih =>
    have hcons := yields_cons ih.linked ih.toStands p.line p.old
    exact { hcons with kept := hcons.kept.trans ih.kept }

/-- The join of lists stands for the join of the states. -/
theorem yields_join (hA : A.Linked) (hh : A.Stands h s) (hk : A.Stands k t) (hs : s.WellFormed D)
    (ht : t.WellFormed D) : A.Yields (A.join D h k) (D.join s t) := by
  obtain ⟨hh, rfl⟩ := hh
  obtain ⟨hk, rfl⟩ := hk
  cases h with
  | bottom => exact Stands.yields ⟨hk, rfl⟩ hA
  | list head =>
    cases k with
    | bottom => exact Stands.yields ⟨hh, rfl⟩ hA
    | list head' =>
      unfold join
      simp only
      split
      · rename_i heq
        rw [← heq, SetDomain.join_self hs]
        exact Stands.yields ⟨hh, rfl⟩ hA
      · have hjoin : D.join (A.state (.list head)) (A.state (.list head')) = .known _ :=
          congrArg SetState.known (Piece.lines_merge hs.ascending ht.ascending).symm
        rw [hjoin]
        exact yields_build hA

/-- Lists form a semilattice under their equality, with the unreached state as its least element:
where paths meet, neither their order nor their grouping matters, nor whether one of them is counted
twice. -/
theorem join_semilattice (hA : A.Linked) (hh : A.Stands h s) (hk : A.Stands k t) (hm : A.Stands m u)
    (hs : s.WellFormed D) (ht : t.WellFormed D) (hu : u.WellFormed D) :
    (let there := A.join D h k
     let back := there.2.join D k h
     back.2.equal there.1 back.1 = true) ∧
    (let first := A.join D h k
     let left := first.2.join D first.1 m
     let last := left.2.join D k m
     let right := last.2.join D h last.1
     right.2.equal left.1 right.1 = true) ∧
    (∀ h', A.Has h' → A.equal h h' = true →
     let twice := A.join D h h'
     twice.2.equal twice.1 h = true) ∧
    (let alone := A.join D .bottom h
     alone.2.equal alone.1 h = true) := by
  refine ⟨?_, ?_, fun h' hh' heq => ?_, ?_⟩
  · have hthere := yields_join hA hh hk hs ht
    have hback := yields_join hthere.linked (hk.extend hA hthere.kept)
      (hh.extend hA hthere.kept) ht hs
    rw [SetDomain.join_comm ht hs] at hback
    exact (hthere.toStands.extend hthere.linked hback.kept).equal hback.linked hback.toStands
  · have hfirst := yields_join hA hh hk hs ht
    have hleft := yields_join hfirst.linked hfirst.toStands (hm.extend hA hfirst.kept)
      (SetDomain.wellFormed_join hs ht) hu
    have hlater := hleft.kept.trans hfirst.kept
    have hlast := yields_join hleft.linked (hk.extend hA hlater) (hm.extend hA hlater) ht hu
    have hright := yields_join hlast.linked (hh.extend hA (hlast.kept.trans hlater))
      hlast.toStands hs (SetDomain.wellFormed_join ht hu)
    rw [← SetDomain.join_assoc hs ht hu] at hright
    exact (hleft.toStands.extend hleft.linked (hright.kept.trans hlast.kept)).equal hright.linked
      hright.toStands
  · have htwice := yields_join hA hh (hh.of_equal hA hh' heq) hs hs
    rw [SetDomain.join_self hs] at htwice
    exact htwice.equal htwice.linked (hh.extend hA htwice.kept)
  · exact hh.equal hA hh

/-- Two lists with the same lines and nodes of their own, and one that continues the second. -/
def copiesArena : NodeArena :=
  ⟨#[⟨⟨.affine ⟨[⟨16, 1⟩], 0x1000⟩, 0, 1, 1, [1, 1]⟩, none⟩,
     ⟨⟨.const 0x2000, 0, 0, 0, [0, 0]⟩, some 0⟩,
     ⟨⟨.affine ⟨[⟨16, 1⟩], 0x1000⟩, 0, 1, 1, [1, 1]⟩, none⟩,
     ⟨⟨.const 0x2000, 0, 0, 0, [0, 0]⟩, some 2⟩,
     ⟨⟨.const 0x1000, 0, 2, 2, [2, 2]⟩, some 3⟩]⟩

/-- The join of the two copies is equal to the first one, though a node is compared with another. -/
theorem join_semilattice_copies :
    let D := SetDomain.rowsDomain
    let first := Handle.list (some 1)
    let copy := Handle.list (some 3)
    let longer := Handle.list (some 4)
    (let there := copiesArena.join D first longer
     let back := there.2.join D longer first
     back.2.equal there.1 back.1 = true) ∧
    first ≠ copy ∧
    (let twice := copiesArena.join D first copy
     twice.2.equal twice.1 first = true) := by
  have hlaws := join_semilattice (A := copiesArena) (D := SetDomain.rowsDomain)
    (h := .list (some 1)) (k := .list (some 4)) (m := .list (some 3)) (by decide +kernel)
    ⟨by decide, rfl⟩ ⟨by decide, rfl⟩ ⟨by decide, rfl⟩ (by decide +kernel) (by decide +kernel)
    (by decide +kernel)
  exact ⟨hlaws.1, by decide, hlaws.2.2.1 (.list (some 3)) (by decide) (by decide +kernel)⟩

end MissBound.NodeArena
