import MissBound.Proofs.Lru.NodeArena

/-!
Repeated accesses. An access leaves no other line younger than one use and its own line at age zero,
so that the same access again makes no line older. A list whose lines do not change is rebuilt from
its own nodes and is the same list.
-/

namespace MissBound

namespace Age

variable {ways used age depth : Nat} {as : List Nat}

/-- Whatever is used, no other line is as young as the one used. -/
theorem step_pos (h : 0 < ways) : 0 < step ways used age := by
  unfold step
  split <;> omega

theorem step_zero (h : 0 < age) : step ways 0 age = age := if_neg (by omega)

theorem step_zero_step (h : 0 < ways) : step ways 0 (step ways used age) = step ways used age :=
  step_zero (step_pos h)

namespace Levels

theorem step_zero_step (h : 0 < ways) : step ways 0 (step ways used as) = step ways used as := by
  rw [step, step, List.map_map]
  exact List.map_congr_left fun a _ => Age.step_zero_step h

theorem touch_touch : touch ways (touch ways as) = touch ways as := by
  rw [touch, touch, List.map_map]
  refine List.map_congr_left fun a _ => ?_
  simp only [Function.comp_apply]
  split
  · exact ite_self 0
  · rfl

theorem touch_fresh : touch ways (fresh depth) = fresh depth := by
  simp [touch, fresh]

end Levels

end Age

namespace SetDomain

variable {D : SetDomain} {v : Symbolic} {l : Line} {ls : List Line} {used : Nat × Nat} {b : Nat}

theorem aged_zero_aged : D.aged (0, 0) (D.aged used l) = D.aged used l := by
  have hways : 0 < D.ways := D.cache.ways_pos
  simp only [aged, Age.step_zero_step hways, Age.Levels.step_zero_step hways]

theorem touched_touched : D.touched (D.touched l) = D.touched l := by
  simp only [touched, Age.Levels.touch_touch]

theorem touched_fresh : D.touched (D.fresh v b) = D.fresh v b := by
  simp only [touched, fresh, Age.Levels.touch_fresh]

/-- After a use of `v` its own line has just been used. -/
theorem own_use (hl : l ∈ D.use v b ls) (hfor : l.isFor v = true) :
    l.must = 0 ∧ l.may = 0 ∧ D.touched l = l := by
  rcases mem_use hl with ⟨m, -, -, rfl⟩ | ⟨m, -, hm, rfl⟩ | ⟨-, rfl⟩
  · exact ⟨rfl, rfl, touched_touched⟩
  · exact absurd hfor (Bool.eq_false_iff.mp hm)
  · exact ⟨rfl, rfl, touched_fresh⟩

/-- After a use of `v` the other lines are those before, aged. -/
theorem other_use (hl : l ∈ D.use v b ls) (hfor : l.isFor v = false) :
    ∃ m ∈ ls, m.isFor v = false ∧ l = D.aged (D.useAges v ls) m := by
  rcases mem_use hl with ⟨m, -, hm, rfl⟩ | h | ⟨-, rfl⟩
  · exact absurd hm (Bool.eq_false_iff.mp hfor)
  · exact h
  · exact absurd (isFor_iff.mpr ⟨rfl, rfl⟩) (Bool.eq_false_iff.mp hfor)

theorem exists_own_use : ∃ l ∈ D.use v b ls, l.isFor v = true := by
  unfold use
  simp only
  split
  · rename_i hany
    obtain ⟨m, hm, hfor⟩ := List.any_eq_true.mp hany
    exact ⟨D.touched m, List.mem_map.mpr ⟨m, hm, if_pos hfor⟩, hfor⟩
  · exact ⟨D.fresh v b, mem_insert.mpr (.inl rfl), isFor_iff.mpr ⟨rfl, rfl⟩⟩

section
variable (hmeet : ∀ l ∈ ls, l.isFor v = false →
  D.refs.mayMeet l.reference l.generation v 0 = false)
include hmeet

/-- A line used again, which no other one may be, is found at age zero. -/
theorem useAges_use : D.useAges v (D.use v b ls) = (0, 0) := by
  have hfilter : ((D.use v b ls).filter fun l =>
      !l.isFor v && D.refs.mayMeet l.reference l.generation v 0) = [] := by
    refine List.filter_eq_nil_iff.mpr fun l hl => ?_
    cases hfor : l.isFor v with
    | true => exact Bool.noConfusion
    | false =>
      obtain ⟨m, hm, hmfor, rfl⟩ := other_use hl hfor
      exact Bool.eq_false_iff.mp (hmeet m hm hmfor)
  cases hfind : (D.use v b ls).find? (·.isFor v) with
  | none =>
    obtain ⟨l, hl, hfor⟩ : ∃ l ∈ D.use v b ls, l.isFor v = true := exists_own_use
    exact absurd hfor (List.find?_eq_none.mp hfind l hl)
  | some l =>
    have hfor : l.isFor v = true := by simpa using List.find?_some hfind
    obtain ⟨hmust, hmay, -⟩ := own_use (List.mem_of_find?_eq_some hfind) hfor
    have hways : 0 < D.ways := D.cache.ways_pos
    rw [useAges_of_some hfind, hfilter, List.foldl_nil, hmust, hmay,
      if_pos (show Age.isAlive D.ways 0 = true from decide_eq_true hways)]

theorem use_use : D.use v b (D.use v b ls) = D.use v b ls := by
  have hany : (D.use v b ls).any (·.isFor v) = true := List.any_eq_true.mpr exists_own_use
  have hmoved : (D.use v b ls).map
      (fun l => if l.isFor v then D.touched l else D.aged (0, 0) l) = D.use v b ls := by
    refine (List.map_congr_left fun l hl => ?_).trans (List.map_id _)
    cases hfor : l.isFor v with
    | true => exact (own_use hl hfor).2.2
    | false =>
      obtain ⟨m, -, -, rfl⟩ := other_use hl hfor
      exact aged_zero_aged
  rw [use, useAges_use hmeet]
  simp only [hany, if_true]
  exact hmoved

end

/-- The same access again changes no line. -/
theorem update_update {s : SetState} {a : DataUse} (htop : a.reference ≠ .top)
    (hmeet : ∀ l ∈ s.lines, l.isFor (D.normalize a.reference) = false →
      D.refs.mayMeet l.reference l.generation (D.normalize a.reference) 0 = false) :
    D.update (D.update s a) a = D.update s a := by
  rcases update_cases D a with ⟨-, heq⟩ | ⟨-, href, -⟩ | ⟨-, -, -, heq⟩
  · exact heq _
  · exact absurd href htop
  · rw [heq, heq]
    exact congrArg SetState.known (use_use hmeet)

end SetDomain

namespace NodeArena

variable {A : NodeArena} {D : SetDomain} {h : Handle} {s : SetState} {line : Line} {a : DataUse}
  {head next : Option Nat} {v : Symbolic} {b limit n : Nat}

/-- A line with its old successor gets its old node. -/
theorem cons_old (hnode : A.nodes[n]? = some ⟨line, next⟩) :
    A.cons line (some n) next = (some n, A) := by
  simp [cons, Option.filter, hnode]

/-- From its end to its start, a list is rebuilt from its own nodes. -/
theorem foldr_follow (hA : A.Linked) (hhead : ∀ n ∈ head, n < A.size ∧ n < limit) :
    ((A.follow limit head).map (Piece.change id)).foldr
      (fun p acc => acc.2.cons p.line p.old acc.1) (none, A) = (head, A) := by
  induction limit generalizing head with
  | zero =>
    cases head with
    | none => rfl
    | some n => exact absurd (hhead n rfl).2 (Nat.not_lt_zero n)
  | succ limit ih =>
    cases head with
    | none => rfl
    | some n =>
      obtain ⟨hsize, hlimit⟩ := hhead n rfl
      have hnode := Array.getElem?_eq_getElem hsize
      have hrest : ((A.follow limit A.nodes[n].next).map (Piece.change id)).foldr _ _ = _ :=
        ih fun m hm => by
          have := hA n _ hnode m hm
          omega
      rw [follow_some hnode, List.map_cons, List.foldr_cons, hrest]
      exact cons_old hnode

/-- A list whose lines do not change is the same list, and no node is made for it. -/
theorem build_self (hA : A.Linked) (hh : A.Has (.list head)) :
    A.build ((A.entries (.list head)).map (Piece.change id)) = (.list head, A) := by
  have hfold := foldr_follow hA fun n hn => ⟨hh n hn, hh n hn⟩
  exact congrArg (fun r : Option Nat × NodeArena => (Handle.list r.1, r.2)) hfold

theorem lines_change {f : Line → Line} {es : List (Nat × Line)} :
    (es.map (Piece.change f)).map (·.line) = (es.map (·.2)).map f := by
  rw [List.map_map, List.map_map]
  rfl

/-- A change of lines that changes none. -/
theorem change_self {f : Line → Line} {es : List (Nat × Line)}
    (heq : (es.map (Piece.change f)).map (·.line) = es.map (·.2)) :
    es.map (Piece.change f) = es.map (Piece.change id) := by
  refine List.map_congr_left fun e he => ?_
  rw [List.map_map] at heq
  have hline : f e.2 = e.2 := List.map_inj_left.mp heq e he
  exact congrArg (Piece.mk · (some e.1)) hline

theorem state_lines (A : NodeArena) (h : Handle) : (A.state h).lines = (A.entries h).map (·.2) := by
  cases h <;> rfl

theorem lines_use : (A.use D h v b).map (·.line) = D.use v b (A.state h).lines := by
  rw [state_lines, use, SetDomain.use, List.any_map]
  simp only [Function.comp_def]
  split
  · exact lines_change
  · rw [Piece.lines_insert, lines_change]

theorem lines_useUnknown : (A.useUnknown D h).map (·.line) = D.useUnknown (A.state h).lines := by
  rw [state_lines, useUnknown, lines_change]
  rfl

/-- The list after an access stands for the state after it. -/
theorem yields_update (hA : A.Linked) (hh : A.Stands h s) :
    A.Yields (A.update D h a) (D.update s a) := by
  obtain ⟨hhas, rfl⟩ := hh
  unfold update SetDomain.update
  split
  · exact Stands.yields ⟨hhas, rfl⟩ hA
  · split
    · exact lines_useUnknown ▸ yields_build hA
    · exact lines_use ▸ yields_build hA

/-- A use that leaves the lines as they are is one of a line of the list. -/
theorem use_self (heq : D.use v b (A.state h).lines = (A.state h).lines) :
    A.use D h v b = (A.entries h).map (Piece.change id) := by
  have hlines := lines_use.trans (heq.trans (state_lines A h))
  have hany : (A.entries h).any (·.2.isFor v) = true := by
    obtain ⟨l, hl, hfor⟩ : ∃ l ∈ D.use v b (A.state h).lines, l.isFor v = true :=
      SetDomain.exists_own_use
    rw [heq, state_lines] at hl
    obtain ⟨e, he, rfl⟩ := List.mem_map.mp hl
    exact List.any_eq_true.mpr ⟨e, he, hfor⟩
  have hmoved : A.use D h v b = (A.entries h).map (Piece.change fun l =>
      if l.isFor v then D.touched l else D.aged (D.useAges v ((A.entries h).map (·.2))) l) :=
    if_pos hany
  rw [hmoved] at hlines ⊢
  exact change_self hlines

/-- An access that leaves the state as it is gives the very same list and makes no node. -/
theorem update_self (hA : A.Linked) (hh : A.Stands h s) (heq : D.update s a = s) :
    A.update D h a = (h, A) := by
  obtain ⟨hhas, rfl⟩ := hh
  unfold update
  unfold SetDomain.update at heq
  split
  · rfl
  · rename_i hignores
    rw [if_neg hignores] at heq
    cases h with
    | bottom =>
      -- an access to the set reaches it
      split at heq <;> cases heq
    | list head =>
      split
      · rename_i htop
        rw [if_pos htop] at heq
        have hlines := congrArg SetState.lines heq
        rw [useUnknown, change_self (lines_useUnknown.trans (hlines.trans (state_lines ..)))]
        exact build_self hA hhas
      · rename_i htop
        rw [if_neg htop] at heq
        rw [use_self (congrArg SetState.lines heq)]
        exact build_self hA hhas

/-- The same access again, to a known address and if no line but its own may be the one that is
used, gives the very same list and makes no node. -/
theorem update_twice (hA : A.Linked) (hh : A.Stands h s) (htop : a.reference ≠ .top)
    (hmeet : ∀ l ∈ s.lines, l.isFor (D.normalize a.reference) = false →
      D.refs.mayMeet l.reference l.generation (D.normalize a.reference) 0 = false) :
    let once := A.update D h a
    once.2.Stands once.1 (D.update s a) ∧ once.2.update D once.1 a = once := by
  have honce : A.Yields (A.update D h a) (D.update s a) := yields_update hA hh
  refine ⟨honce.toStands, ?_⟩
  exact update_self honce.linked honce.toStands (SetDomain.update_update htop hmeet)

/-- The first load of a block gives every line of the list a new node; the second one gives none. -/
theorem update_twice_fresh :
    let D := SetDomain.rowsDomain
    let a := SetDomain.fixedUse 1 0x3008
    let once := copiesArena.update D (.list (some 4)) a
    once.2.size = copiesArena.size + 4 ∧ once.2.update D once.1 a = once := by
  have htwice := update_twice (A := copiesArena) (D := SetDomain.rowsDomain) (h := .list (some 4))
    (a := SetDomain.fixedUse 1 0x3008) (by decide +kernel) ⟨by decide, rfl⟩ (by decide)
    (by decide +kernel)
  exact ⟨by decide +kernel, htwice.2⟩

end NodeArena

end MissBound
