import MissBound.Proofs.Lru.Repetition

/-!
Sequences of operations on one arena. Each operation names its arguments by the places at which they
were returned. The same sequence is run on plain states, where nothing is shared: what a handle
stands for is the plain state at its place, then and ever after, so that neither the reuse of nodes
nor a shortcut for identical lists can be observed.
-/

namespace MissBound

/-- An operation on states that are named by their places among those returned so far. -/
inductive Operation where
  | update (i : Nat) (a : DataUse)
  | join (i j : Nat)
  | enter (i : Nat)
  | leave (i header source : Nat)
  | back (i : Nat)

namespace Operation

variable (D : SetDomain)

/-- The operation on plain states. -/
def onStates (state : Nat → SetState) : Operation → SetState
  | update i a => D.update (state i) a
  | join i j => D.join (state i) (state j)
  | enter i => (state i).enter
  | leave i header source => D.leave (state i) header source
  | back i => D.back (state i)

/-- The operation on lists of an arena. -/
def onHandles (A : NodeArena) (handle : Nat → Handle) : Operation → Handle × NodeArena
  | update i a => A.update D (handle i) a
  | join i j => A.join D (handle i) (handle j)
  | enter i => A.enter (handle i)
  | leave i header source => A.leave D (handle i) header source
  | back i => A.back D (handle i)

end Operation

/-- The plain states returned by a sequence of operations, after the unreached and the empty one. -/
def SetDomain.replay (D : SetDomain) (ops : List Operation) : List SetState :=
  ops.foldl (fun ss o => ss ++ [o.onStates D fun i => ss.getD i .bottom]) [.bottom, .known []]

/-- An arena with the handles that its operations have returned. -/
structure Session where
  arena : NodeArena
  returned : List Handle

namespace Session

def start : Session := ⟨.empty, [.bottom, .list none]⟩

/-- The handle returned at a place. Where none has been, no path has led yet. -/
def handle (S : Session) (i : Nat) : Handle := S.returned.getD i .bottom

def step (D : SetDomain) (S : Session) (o : Operation) : Session :=
  let r := o.onHandles D S.arena S.handle
  ⟨r.2, S.returned ++ [r.1]⟩

def run (D : SetDomain) (ops : List Operation) : Session := ops.foldl (step D) start

end Session

namespace NodeArena

variable {A : NodeArena} {D : SetDomain} {h : Handle} {s : SetState} {header source : Nat}

theorem yields_enter (hA : A.Linked) (hh : A.Stands h s) : A.Yields (A.enter h) s.enter := by
  obtain ⟨-, rfl⟩ := hh
  rw [SetState.enter, state_lines, ← lines_change]
  exact yields_build hA

theorem lines_leave? {es : List (Nat × Line)} :
    (es.filterMap (Piece.leave? D header source)).map (·.line) =
      (es.map (·.2)).filterMap (D.leaveLine? header source) := by
  rw [List.map_filterMap, List.filterMap_map]
  refine List.filterMap_congr fun e _ => ?_
  simp [Piece.leave?, Function.comp_def]

theorem yields_leave (hA : A.Linked) (hh : A.Stands h s) :
    A.Yields (A.leave D h header source) (D.leave s header source) := by
  obtain ⟨hhas, rfl⟩ := hh
  cases h with
  | bottom => exact Stands.yields ⟨hhas, rfl⟩ hA
  | list head =>
    have hbuilt : A.Yields (A.leave D (.list head) header source) _ := yields_build hA
    rwa [Piece.lines_collate, lines_leave?] at hbuilt

theorem yields_back (hA : A.Linked) (hh : A.Stands h s) : A.Yields (A.back D h) (D.back s) := by
  obtain ⟨hhas, rfl⟩ := hh
  cases h with
  | bottom => exact Stands.yields ⟨hhas, rfl⟩ hA
  | list head =>
    have hback : D.back (A.state (.list head)) =
        .known (((A.entries (.list head)).filter fun e => e.2.generation < D.ways).map (·.2)) :=
      congrArg SetState.known List.filter_map
    unfold back
    rw [hback]
    split
    · rename_i hall
      rw [List.filter_eq_self.mpr fun e he => List.all_eq_true.mp hall e he]
      exact Stands.yields ⟨hhas, rfl⟩ hA
    · have hbuilt : A.Yields (A.build (((A.entries (.list head)).filter fun e =>
          e.2.generation < D.ways).map (Piece.change id))) _ := yields_build hA
      rwa [lines_change, List.map_id] at hbuilt

end NodeArena

namespace Operation

variable {D : SetDomain} {A : NodeArena} {o : Operation} {state : Nat → SetState}
  {handle : Nat → Handle}

theorem wellFormed_onStates (h : ∀ i, (state i).WellFormed D) :
    (o.onStates D state).WellFormed D := by
  cases o with
  | update i a => exact SetDomain.wellFormed_update (h i)
  | join i j => exact SetDomain.wellFormed_join (h i) (h j)
  | enter i => exact SetDomain.wellFormed_enter (h i)
  | leave i header source => exact SetDomain.wellFormed_leave (h i)
  | back i => exact SetDomain.wellFormed_back (h i)

/-- On lists that stand for well-formed states an operation stands for the one on the states. -/
theorem yields_onHandles (hA : A.Linked) (hstand : ∀ i, A.Stands (handle i) (state i))
    (h : ∀ i, (state i).WellFormed D) : A.Yields (o.onHandles D A handle) (o.onStates D state) := by
  cases o with
  | update i a => exact NodeArena.yields_update hA (hstand i)
  | join i j => exact NodeArena.yields_join hA (hstand i) (hstand j) (h i) (h j)
  | enter i => exact NodeArena.yields_enter hA (hstand i)
  | leave i header source => exact NodeArena.yields_leave hA (hstand i)
  | back i => exact NodeArena.yields_back hA (hstand i)

end Operation

namespace Session

variable {D : SetDomain} {S T U : Session} {ss : List SetState}

/-- The handles returned stand for the states `ss`. -/
structure Shows (D : SetDomain) (S : Session) (ss : List SetState) : Prop where
  linked : S.arena.Linked
  length : S.returned.length = ss.length
  stands : ∀ i, S.arena.Stands (S.handle i) (ss.getD i .bottom)
  wellFormed : ∀ i, (ss.getD i .bottom).WellFormed D

/-- What was returned in `S` has been returned in `T`, and its nodes are there. -/
structure Continues (T S : Session) : Prop where
  arena : T.arena.Extends S.arena
  returned : S.returned <+: T.returned

theorem Continues.refl : S.Continues S := ⟨.refl, List.prefix_rfl⟩

theorem Continues.trans (hU : U.Continues T) (hT : T.Continues S) : U.Continues S :=
  ⟨hU.arena.trans hT.arena, hT.returned.trans hU.returned⟩

theorem getD_concat {α : Type} {xs : List α} {x d : α} {i : Nat} :
    (xs ++ [x]).getD i d = if i = xs.length then x else xs.getD i d := by
  split
  · rename_i hi
    rw [hi, List.getD_append_right _ _ _ _ (Nat.le_refl _), Nat.sub_self]
    rfl
  · rename_i hi
    by_cases hlt : i < xs.length
    · rw [List.getD_append _ _ _ _ hlt]
    · have hle : (xs ++ [x]).length ≤ i := by
        rw [List.length_append, List.length_singleton]
        omega
      rw [List.getD_eq_default _ _ hle, List.getD_eq_default _ _ (by omega)]

theorem shows_start : start.Shows D [.bottom, .known []] where
  linked _ _ h := by cases h
  length := rfl
  stands i := by
    rcases i with _ | _ | i
    · exact ⟨trivial, rfl⟩
    · exact ⟨fun n hn => absurd hn (Option.not_mem_none n), rfl⟩
    · exact ⟨trivial, rfl⟩
  wellFormed i := by
    refine SetDomain.wellFormed_of_lines ?_
    rcases i with _ | _ | i <;> rfl

namespace Shows

/-- One operation: the handle that it returns stands for the state that it returns, and the earlier
handles stand for the same states as before. -/
theorem step (hS : S.Shows D ss) (o : Operation) :
    (S.step D o).Shows D (ss ++ [o.onStates D fun i => ss.getD i .bottom]) ∧
      (S.step D o).Continues S := by
  have hr := Operation.yields_onHandles (o := o) hS.linked hS.stands hS.wellFormed
  refine ⟨⟨hr.linked, ?_, fun i => ?_, fun i => ?_⟩, hr.kept, List.prefix_append ..⟩
  · rw [Session.step, List.length_append, List.length_append, hS.length]
    rfl
  · rw [handle, Session.step, getD_concat, getD_concat, hS.length]
    split
    · exact hr.toStands
    · exact (hS.stands i).extend hS.linked hr.kept
  · rw [getD_concat]
    split
    · exact Operation.wellFormed_onStates hS.wellFormed
    · exact hS.wellFormed i

theorem foldl (hS : S.Shows D ss) (ops : List Operation) :
    (ops.foldl (Session.step D) S).Shows D
      (ops.foldl (fun ss o => ss ++ [o.onStates D fun i => ss.getD i .bottom]) ss) ∧
      (ops.foldl (Session.step D) S).Continues S := by
  induction ops generalizing S ss with
  | nil => exact ⟨hS, .refl⟩
  | cons o ops ih =>
    obtain ⟨hstep, hcontinues⟩ := hS.step o
    obtain ⟨hrun, hcontinues'⟩ := ih hstep
    exact ⟨hrun, hcontinues'.trans hcontinues⟩

/-- What was returned earlier stands for the same state. -/
theorem state_handle (hS : S.Shows D ss) (hT : T.Continues S) (i : Nat) :
    T.arena.state (S.handle i) = S.arena.state (S.handle i) :=
  NodeArena.state_extend hS.linked hT.arena (hS.stands i).has

theorem map_state (hS : S.Shows D ss) : S.returned.map S.arena.state = ss := by
  refine List.ext_getElem (by rw [List.length_map, hS.length]) fun i hi hi' => ?_
  have hstate := (hS.stands i).state
  rw [List.length_map] at hi
  rw [handle, List.getD_eq_getElem _ _ hi, List.getD_eq_getElem _ _ hi'] at hstate
  rw [List.getElem_map, hstate]

/-- Handles returned are equal if both are the unreached state or both are lists with the same
lines. -/
theorem equal_handle (hS : S.Shows D ss) (i j : Nat) :
    S.arena.equal (S.handle i) (S.handle j) = true ↔
      (S.handle i = .bottom ∧ S.handle j = .bottom) ∨
        S.handle i ≠ .bottom ∧ S.handle j ≠ .bottom ∧
          (S.arena.entries (S.handle i)).map (·.2) = (S.arena.entries (S.handle j)).map (·.2) := by
  rw [NodeArena.equal_iff hS.linked (hS.stands i).has (hS.stands j).has]
  cases S.handle i <;> cases S.handle j <;> simp [NodeArena.state]

end Shows

/-- Sharing cannot be observed: every handle stands for the state that the same operations give on
plain states, goes on to do so whatever is done later, and is equal to another one if both are
unreached or both are lists with the same lines. -/
theorem sharing_unobservable (D : SetDomain) (ops more : List Operation) :
    (run D ops).returned.map (run D ops).arena.state = D.replay ops ∧
      ((run D ops).returned <+: (run D (ops ++ more)).returned ∧
        ∀ i, (run D (ops ++ more)).arena.state ((run D ops).handle i) =
          (run D ops).arena.state ((run D ops).handle i)) ∧
      ∀ i j, (run D ops).arena.equal ((run D ops).handle i) ((run D ops).handle j) = true ↔
        ((run D ops).handle i = .bottom ∧ (run D ops).handle j = .bottom) ∨
          (run D ops).handle i ≠ .bottom ∧ (run D ops).handle j ≠ .bottom ∧
            ((run D ops).arena.entries ((run D ops).handle i)).map (·.2) =
              ((run D ops).arena.entries ((run D ops).handle j)).map (·.2) := by
  have hrun : (run D ops).Shows D (D.replay ops) := (shows_start.foldl ops).1
  have hmore : (run D (ops ++ more)).Continues (run D ops) := by
    rw [run, List.foldl_append]
    exact (hrun.foldl more).2
  exact ⟨hrun.map_state, ⟨hmore.returned, hrun.state_handle hmore⟩, hrun.equal_handle⟩

/-- The first two accesses make three nodes. What follows changes nothing and returns the same
list. -/
example :
    let S := run SetDomain.rowsDomain [.update 1 (SetDomain.fixedUse 1 0x3008),
      .update 2 (SetDomain.fixedUse 1 0x1000), .update 3 (SetDomain.fixedUse 1 0x1000),
      .join 3 4, .back 5]
    S.returned.drop 3 = List.replicate 4 (.list (some 2)) ∧ S.arena.size = 3 := by
  decide +kernel

end Session

end MissBound
