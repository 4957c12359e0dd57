import MissBound.Machine.Resolution
import MissBound.Proofs.Fixpoint
import MissBound.Proofs.Machine.State

/-!
The fixed point of address resolution. It reaches every block that a walk from the entry reaches,
and the values at the start of a block are proper over the loops around it.
-/

namespace MissBound

namespace Resolution

variable {G : FlowGraph} {I : Interpreter} {entry : State} {L : LoopForest} {P Q : Nat → Prop}
  {a b : Option State} {f : Symbolic → Symbolic → Symbolic}

theorem joinStates_ne_none (h : a ≠ none ∨ b ≠ none) : joinStates L a b ≠ none := by
  cases a <;> cases b <;> simp_all [joinStates]

theorem combineStates_ne_none (h : a ≠ none ∨ b ≠ none) : combineStates f a b ≠ none := by
  cases a <;> cases b <;> simp_all [combineStates]

theorem joinAll_ne_none {arrivals : List (Arrival (Option State))} {a : Arrival (Option State)}
    (ha : a ∈ arrivals) (h : a.state ≠ none) :
    Analysis.joinAll none (joinStates L) arrivals ≠ none := by
  have hfold : ∀ (as : List (Arrival (Option State))) (s : Option State), (s ≠ none ∨ a ∈ as) →
      as.foldl (fun acc a => joinStates L acc a.state) s ≠ none := by
    intro as
    induction as with
    | nil => exact fun s h => h.resolve_right List.not_mem_nil
    | cons x as ih =>
      intro s hs
      refine ih _ ?_
      rcases hs with hs | hs
      · exact .inl (joinStates_ne_none (.inl hs))
      · rcases List.mem_cons.mp hs with rfl | hs
        · exact .inl (joinStates_ne_none (.inr h))
        · exact .inr hs
  exact hfold _ _ (.inr ha)

theorem input_ne_none {block : Nat} {previous : Option State}
    {arrivals : List (Arrival (Option State))} {a : Arrival (Option State)} (ha : a ∈ arrivals)
    (h : a.state ≠ none) : input G block previous arrivals ≠ none := by
  have hsides : Analysis.joinAll none (joinStates G.loops)
      (arrivals.filter fun a => !a.isBack) ≠ none ∨
      Analysis.joinAll none (joinStates G.loops) (arrivals.filter fun a => a.isBack) ≠ none := by
    cases hback : a.isBack with
    | false => exact .inl (joinAll_ne_none (List.mem_filter.mpr ⟨ha, by rw [hback]; rfl⟩) h)
    | true => exact .inr (joinAll_ne_none (List.mem_filter.mpr ⟨ha, hback⟩) h)
  unfold input
  simp only
  split
  · exact combineStates_ne_none (hsides.imp_right fun h => combineStates_ne_none (.inr h))
  · exact joinStates_ne_none hsides

theorem spreads : Progress.Spreads (analysis G I entry) (· ≠ none) where
  entry h := by cases h
  input _ _ _ := fun ⟨_, ha, h⟩ => input_ne_none ha h
  transfer b s h := by
    change transfer G I b s ≠ none
    unfold transfer
    split
    · rwa [ne_eq, Option.map_eq_none_iff]
    · exact h
  propagate e s h := by
    change propagate G e s ≠ none
    rwa [propagate, ne_eq, Option.map_eq_none_iff]
  equal _ _ h := (beq_iff_eq.mp h).symm ▸ id

/-- A state with a property, if there is one. -/
def Every (S : State → Prop) (s : Option State) : Prop := ∀ t ∈ s, S t

section Every

variable {S : State → Prop}

theorem every_none : Every S none := fun t ht => (by cases ht)

theorem every_some {s : State} (h : S s) : Every S (some s) := by
  rintro t ⟨⟩
  exact h

theorem every_joinStates (hS : ∀ s t, S s → S t → S (s.join L t)) (ha : Every S a)
    (hb : Every S b) : Every S (joinStates L a b) := by
  cases a with
  | none => exact hb
  | some s =>
    cases b with
    | none => exact ha
    | some t => exact every_some (hS s t (ha s rfl) (hb t rfl))

theorem every_combineStates (hS : ∀ s t, S s → S t → S (s.combine f t)) (ha : Every S a)
    (hb : Every S b) : Every S (combineStates f a b) := by
  cases a with
  | none => exact hb
  | some s =>
    cases b with
    | none => exact ha
    | some t => exact every_some (hS s t (ha s rfl) (hb t rfl))

theorem every_joinAll (hS : ∀ s t, S s → S t → S (s.join L t))
    {arrivals : List (Arrival (Option State))} (h : ∀ a ∈ arrivals, Every S a.state) :
    Every S (Analysis.joinAll none (joinStates L) arrivals) :=
  List.foldlRecOn (motive := Every S) _ _ every_none fun _ hs a ha =>
    every_joinStates hS hs (h a ha)

/-- What joining and widening keep, the input of a block keeps. -/
theorem every_input {block : Nat} {previous : Option State}
    {arrivals : List (Arrival (Option State))} (hjoin : ∀ s t, S s → S t → S (s.join G.loops t))
    (hheader : G.loops.isHeader block = true → ∀ s t, S s → S t →
      S (s.combine (Symbolic.join G.loops) t) ∧ S (s.combine (Symbolic.widen G.loops block) t))
    (hprev : Every S previous) (h : ∀ a ∈ arrivals, Every S a.state) :
    Every S (input G block previous arrivals) := by
  have hside : ∀ keep : Arrival (Option State) → Bool,
      Every S (Analysis.joinAll none (joinStates G.loops) (arrivals.filter keep)) :=
    fun _ => every_joinAll hjoin fun a ha => h a (List.mem_of_mem_filter ha)
  unfold input
  simp only
  split
  · rename_i hh
    apply every_combineStates (fun s t hs ht => (hheader hh s t hs ht).1) (hside _)
    exact every_combineStates (fun s t hs ht => (hheader hh s t hs ht).2) hprev (hside _)
  · exact every_joinStates hjoin (hside _) (hside _)

/-- The input of a header goes up from the last one, in any order in which widening goes up from its
first state and joining from its second. -/
theorem rises_input {R : State → State → Prop} {block : Nat} {s : State}
    {arrivals : List (Arrival (Option State))} (hh : G.loops.isHeader block = true)
    (hrefl : ∀ s, S s → R s s) (htrans : ∀ s t u, R s t → R t u → R s u)
    (hside : ∀ s t, S s → S t → S (s.join G.loops t))
    (hwiden : ∀ s t, S s → S t → S (s.combine (Symbolic.widen G.loops block) t) ∧
      R s (s.combine (Symbolic.widen G.loops block) t))
    (hjoin : ∀ s t, S s → S t → S (s.combine (Symbolic.join G.loops) t) ∧
      R t (s.combine (Symbolic.join G.loops) t))
    (hs : S s) (h : ∀ a ∈ arrivals, Every S a.state) :
    ∃ t, input G block (some s) arrivals = some t ∧ S t ∧ R s t := by
  have hsides : ∀ keep : Arrival (Option State) → Bool,
      Every S (Analysis.joinAll none (joinStates G.loops) (arrivals.filter keep)) :=
    fun _ => every_joinAll hside fun a ha => h a (List.mem_of_mem_filter ha)
  have hentering := hsides fun a => !a.isBack
  have hback := hsides fun a => a.isBack
  simp only [input, hh, if_true]
  generalize Analysis.joinAll none (joinStates G.loops) (arrivals.filter fun a => !a.isBack) =
    entering at hentering ⊢
  generalize Analysis.joinAll none (joinStates G.loops) (arrivals.filter fun a => a.isBack) =
    back at hback ⊢
  obtain ⟨u, hu, huS, hsu⟩ : ∃ u,
      combineStates (Symbolic.widen G.loops block) (some s) back = some u ∧ S u ∧ R s u := by
    cases back with
    | none => exact ⟨s, rfl, hs, hrefl s hs⟩
    | some b => exact ⟨_, rfl, hwiden s b hs (hback b rfl)⟩
  rw [hu]
  cases entering with
  | none => exact ⟨u, rfl, huS, hsu⟩
  | some e =>
    obtain ⟨hS, hR⟩ := hjoin e u (hentering e rfl) huS
    exact ⟨_, rfl, hS, htrans _ _ _ hsu hR⟩

theorem every_transfer {block : Nat}
    (hS : ∀ b, G.block? block = some b → ∀ s, S s → S (I.executeBlock s b).1) (h : Every S a) :
    Every S (transfer G I block a) := by
  unfold transfer
  split
  · rename_i b hb
    intro t ht
    obtain ⟨s, hs, rfl⟩ := Option.map_eq_some_iff.mp ht
    exact hS b hb s (h s hs)
  · exact h

theorem every_arrivals {onEdges : List (Option State)} {b : Nat} (hentry : b = G.entry → S entry)
    (hedges : ∀ (e : Edge Crossing) (i : Nat), G.graph.edges[i]? = some e → e.target = b →
      Every S (onEdges[i]?.getD none)) :
    ∀ a ∈ Progress.arrivals (analysis G I entry) G onEdges b, Every S a.state := by
  intro a ha
  rcases List.mem_append.mp ha with ha | ha
  · split at ha
    · rename_i hb
      cases List.mem_singleton.mp ha
      exact every_some (hentry hb)
    · cases ha
  · obtain ⟨⟨e, i⟩, hmem, rfl⟩ := List.mem_map.mp ha
    obtain ⟨hget, ht⟩ := Progress.mem_incoming.mp hmem
    exact hedges e i hget ht

end Every

/-- A state with proper values over the loops in `P`, if there is one. -/
abbrev Scoped (L : LoopForest) (P : Nat → Prop) (s : Option State) : Prop :=
  Every (State.Proper L P) s

theorem Scoped.mono (h : Scoped L P a) (hPQ : ∀ n, P n → Q n) : Scoped L Q a :=
  fun t ht => (h t ht).mono hPQ

theorem scoped_joinStates (ha : Scoped L P a) (hb : Scoped L P b) : Scoped L P (joinStates L a b) :=
  every_joinStates (fun _ _ hs ht => hs.join ht) ha hb

theorem scoped_combineStates
    (hf : ∀ v w : Symbolic, v.Proper L P → w.Proper L P → (f v w).Proper L P)
    (ha : Scoped L P a) (hb : Scoped L P b) :
    Scoped L P (combineStates f a b) :=
  every_combineStates (fun _ _ hs ht => hs.combine ht hf) ha hb

theorem scoped_joinAll {arrivals : List (Arrival (Option State))}
    (h : ∀ a ∈ arrivals, Scoped L P a.state) :
    Scoped L P (Analysis.joinAll none (joinStates L) arrivals) :=
  every_joinAll (fun _ _ hs ht => hs.join ht) h

theorem scoped_transfer {block : Nat} (hs : Scoped I.loops P a) :
    Scoped I.loops P (transfer G I block a) :=
  every_transfer (fun b _ _ h => (Interpreter.proper_executeBlock h b).1) hs

section
variable (B : G.Built)
include B

/-- Over an edge only the loops around both its ends are left in the values. -/
theorem scoped_propagate {e : Edge Crossing} (he : e ∈ G.graph.edges)
    (hr : G.graph.Reaches G.entry e.source) (hs : Scoped G.loops (G.loops.Inside · e.source) a) :
    Scoped G.loops (fun h => G.loops.Inside h e.source ∧ G.loops.Inside h e.target)
      (propagate G e a) := by
  rintro t ht
  obtain ⟨s, hmem, rfl⟩ := Option.map_eq_some_iff.mp ht
  have hfold : ∀ (hs : List Nat) (P : Nat → Prop) (s : State), s.Proper G.loops P →
      (hs.foldl (fun s h => s.map (Symbolic.afterLoop G.loops h)) s).Proper G.loops
        fun h => P h ∧ h ∉ hs := by
    intro hs
    induction hs with
    | nil => exact fun P s h => h.mono fun n hn => ⟨hn, List.not_mem_nil⟩
    | cons k hs ih =>
      intro P s h
      refine (ih _ _ (h.map fun _ => Symbolic.proper_afterLoop)).mono fun n hn => ⟨hn.1.1, ?_⟩
      rw [List.mem_cons, not_or]
      exact ⟨hn.1.2, hn.2⟩
  refine (hfold _ _ s (hs s hmem)).mono fun n hn => ⟨hn.1, ?_⟩
  by_contra hnot
  exact hn.2 ((B.mem_exited he hr).mpr ⟨hn.1, hnot⟩)

omit B in
theorem scoped_arrivals {onEdges : List (Option State)} {b : Nat}
    (hentry : entry.Proper G.loops (G.loops.Inside · G.entry))
    (hedges : ∀ (e : Edge Crossing) (i : Nat), G.graph.edges[i]? = some e →
      Scoped G.loops (fun h => G.loops.Inside h e.source ∧ G.loops.Inside h e.target)
        (onEdges[i]?.getD none)) :
    ∀ a ∈ Progress.arrivals (analysis G I entry) G onEdges b,
      Scoped G.loops (G.loops.Inside · b) a.state :=
  every_arrivals (fun hb => hb ▸ hentry) fun e i hget ht =>
    Scoped.mono (hedges e i hget) fun _ h => ht ▸ h.2

theorem keeps_scoped (hI : I.loops = G.loops)
    (hentry : entry.Proper G.loops (G.loops.Inside · G.entry)) :
    Progress.Keeps (analysis G I entry) G (fun b => Scoped G.loops (G.loops.Inside · b))
      (fun e => Scoped G.loops fun h => G.loops.Inside h e.source ∧ G.loops.Inside h e.target) where
  bottom_input _ := every_none
  bottom_edge _ _ := every_none
  input b _ prev onEdges hprev hedges := by
    refine every_input (fun _ _ hs ht => hs.join ht) (fun hh s t hs ht => ⟨?_, ?_⟩) hprev
      (scoped_arrivals hentry hedges)
    · exact hs.combine ht fun _ _ => Symbolic.proper_join
    · have hself := B.loops.inside_self B.closed B.entry_lt hh
      exact hs.combine ht fun _ _ => Symbolic.proper_widen hself
  edge e he hsource s hs := by
    refine scoped_propagate B he (B.mem_order.mp hsource) ?_
    rw [← hI] at hs ⊢
    exact scoped_transfer hs

end

theorem inputAt_eq {A : Analysis (Option State)} {p : Progress (Option State)} {b : Nat}
    (hA : A.bottom = none) : p.inputAt A b = p.inputs[b]?.join := by
  rw [Progress.inputAt, hA]
  cases p.inputs[b]? <;> rfl

/-- The analysis that resolves a program leaves a solution with proper values. -/
theorem consistent_resolve {boot : Boot} {limits : Limits}
    {p : Progress (Option State)} (B : G.Built) (hp : resolve G boot limits = .ok p) :
    Progress.Consistent (analysis G ⟨G.loops, boot, limits.cap⟩ (.ofBoot boot limits.stackBase)) G
    (fun b => Scoped G.loops (G.loops.Inside · b))
    (fun e => Scoped G.loops fun h => G.loops.Inside h e.source ∧ G.loops.Inside h e.target) p ∧
      p.queue = [] :=
  Progress.consistent_solve B (keeps_scoped B rfl State.proper_ofBoot) hp

/-- Every block that can be reached is. -/
theorem exists_input {budget b : Nat} {p : Progress (Option State)} (B : G.Built)
    (hp : (analysis G I entry).solve G budget = .ok p) (hr : G.graph.Reaches G.entry b) :
    ∃ s, p.inputs[b]?.join = some s := by
  obtain ⟨C, hq⟩ := Progress.consistent_solve B Progress.keeps_true hp
  obtain ⟨s, hs⟩ := Option.ne_none_iff_exists.mp (C.spreads hq B spreads hr)
  exact ⟨s, (inputAt_eq rfl).symm.trans hs.symm⟩

end Resolution

end MissBound
