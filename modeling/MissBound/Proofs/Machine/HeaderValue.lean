import MissBound.Proofs.Machine.Resolution

/-!
The values of registers at a loop header. An expression there has the terms of every value that
arrives. It describes the iterations of the loop as far as those values have all of its terms, and
as far as one more iteration moves them.
-/

namespace MissBound

namespace Affine

variable {L : LoopForest} {P Q : Nat → Prop} {R V : Affine} {c : Nat → Nat} {h : Nat}

/-- What one iteration of a loop adds to an expression. -/
def stride (e : Affine) (h : Nat) : Int := (e.coefficient? h).getD 0

theorem Proper.stride_eq (H : R.Proper L P) : R.stride h = Term.coefOf R.terms h := H.coefficient_eq

theorem eval_shift {terms : List Term} {k j : UInt32} :
    (⟨terms, k + j⟩ : Affine).eval c = (⟨terms, k⟩ : Affine).eval c + j := by
  rw [eval_eq, eval_eq, word_add, word_add, word_toNat, word_toNat, UInt32.add_assoc,
    UInt32.add_assoc, UInt32.add_comm j]

/-- An expression at the start of a loop is what enters, if that has all terms of other loops. -/
theorem eval_start_iff (hR : R.Proper L P) (hV : V.Proper L Q) (hpart : V.Part R)
    (hfree : ∀ t ∈ V.terms, t.header ≠ h) :
    (∀ c, R.eval (Function.update c h 0) = V.eval c) ↔
      ∀ t ∈ R.terms, t.header ≠ h → t ∈ V.terms := by
  have hstart : ∀ c, R.eval (Function.update c h 0) =
      (⟨R.terms.filter fun t => t.header != h, R.constant⟩ : Affine).eval c := by
    intro c
    rw [eval_update]
    exact (congrArg _ UInt32.mul_zero).trans (UInt32.add_zero _)
  constructor
  · intro heq t ht hne
    have hsame := hR.filter.eq_of_eval hV fun c => (hstart c).symm.trans (heq c)
    rw [← hsame]
    exact List.mem_filter.mpr ⟨ht, by simpa using hne⟩
  · intro hall c
    have hterms : R.terms.filter (fun t => t.header != h) = V.terms := by
      refine Term.Sorted.eq_of_mem_iff (List.Pairwise.filter _ hR.sorted) hV.sorted fun t => ?_
      rw [List.mem_filter, bne_iff_ne]
      exact ⟨fun ht => hall t ht.1 ht.2, fun ht => ⟨hpart.terms t ht, hfree t ht⟩⟩
    rw [hstart, hterms, ← hpart.constant]

/-- An expression one iteration later is what comes back, if that has all its terms and lies one
stride ahead. -/
theorem eval_next_iff (hR : R.Proper L P) (hV : V.Proper L Q)
    (hsub : ∀ t ∈ V.terms, t ∈ R.terms) :
    (∀ c i, R.eval (Function.update c h (i + 1)) = V.eval (Function.update c h i)) ↔
      (∀ t ∈ R.terms, t ∈ V.terms) ∧ V.constant = R.constant + word (R.stride h) := by
  have hone : word ((0 + 1 : Nat) : Int) = 1 := rfl
  rw [hR.stride_eq]
  constructor
  · intro heq
    -- the first iteration gives the other terms and the constant, the second one the stride
    have hrest :
        (⟨R.terms.filter fun t => t.header != h, R.constant + word (Term.coefOf R.terms h)⟩ :
        Affine) = ⟨V.terms.filter fun t => t.header != h, V.constant⟩ := by
      refine hR.filter.eq_of_eval hV.filter fun c => ?_
      have h0 := heq c 0
      rw [eval_update, eval_update, hone, UInt32.mul_one] at h0
      rw [eval_shift, h0]
      exact (congrArg _ UInt32.mul_zero).trans (UInt32.add_zero _)
    obtain ⟨hfilter, hconst⟩ := Affine.mk.inj hrest
    have hcoef : Term.coefOf R.terms h = Term.coefOf V.terms h := by
      refine eq_of_word_eq (coefOf_small hR) (coefOf_small hV) ?_
      have h1 := heq (fun _ => 0) 1
      have htwo : word ((1 + 1 : Nat) : Int) = 1 + 1 := rfl
      have hone' : word ((1 : Nat) : Int) = 1 := rfl
      rw [eval_update, eval_update, ← hfilter, ← hconst, eval_shift, htwo, hone', UInt32.mul_add,
        UInt32.mul_one, UInt32.mul_one, ← UInt32.add_assoc] at h1
      exact (UInt32.add_right_inj _).mp h1
    refine ⟨fun t ht => ?_, hconst.symm⟩
    by_cases hth : t.header = h
    · have hc : Term.coefOf V.terms h = t.coef := by
        rw [← hcoef, ← hth, Term.coefOf_of_mem hR.sorted ht]
      have hmem := Term.mem_of_coefOf hV.sorted (h := h) (hc ▸ (hR.terms t ht).nonzero)
      rwa [hc, ← hth] at hmem
    · have hmem : t ∈ R.terms.filter fun t => t.header != h :=
        List.mem_filter.mpr ⟨ht, by simpa using hth⟩
      rw [hfilter] at hmem
      exact List.mem_of_mem_filter hmem
  · rintro ⟨hall, hconst⟩ c i
    have hterms : V.terms = R.terms :=
      hV.sorted.eq_of_mem_iff hR.sorted fun t => ⟨hsub t, hall t⟩
    rw [eval_update, eval_update, hterms, hconst, eval_shift, Int.natCast_add,
      word_add, UInt32.mul_add]
    have hone' : word ((1 : Nat) : Int) = 1 := rfl
    rw [hone', UInt32.mul_one, UInt32.add_assoc, UInt32.add_comm (_ * _)]

end Affine

namespace Resolution

variable {G : FlowGraph} {L : LoopForest} {P : Nat → Prop} {a b : Option State} {r : Register}
  {x : Affine} {h : Nat}

/-- A register holds part of `x`, in a state if there is one. -/
def Holds (r : Register) (x : Affine) (s : Option State) : Prop :=
  ∀ t ∈ s, ∃ y, t.register r = .affine y ∧ y.Part x

/-- A register holds part of `x`, in a state if there is one, save that its constant may have moved
on by one iteration. -/
def Returns (h : Nat) (r : Register) (x : Affine) (s : Option State) : Prop :=
  ∀ t ∈ s, ∃ y, t.register r = .affine y ∧ (∀ u ∈ y.terms, u ∈ x.terms) ∧
    (y.constant = x.constant ∨ y.constant = x.constant + word (x.stride h))

theorem holds_none : Holds r x none := fun t ht => (by cases ht)

/-- A value that is the join of two is an expression only if they are parts of it. -/
theorem holds_of_join {s t u : State} (hs : s.Proper L P) (ht : t.Proper L P)
    (hu : u.register r = (s.register r).join L (t.register r)) (H : Holds r x (some u)) :
    Holds r x (some s) ∧ Holds r x (some t) := by
  obtain ⟨y, hy, hpart⟩ := H u rfl
  obtain ⟨v, w, hv, hw, hvy, hwy⟩ :=
    Symbolic.join_eq_affine hs.register ht.register (hu.symm.trans hy)
  constructor
  · rintro _ ⟨⟩
    exact ⟨v, hv, hvy.trans hpart⟩
  · rintro _ ⟨⟩
    exact ⟨w, hw, hwy.trans hpart⟩

theorem holds_of_joinStates (ha : Scoped L P a) (hb : Scoped L P b)
    (H : Holds r x (joinStates L a b)) : Holds r x a ∧ Holds r x b := by
  cases a with
  | none => exact ⟨holds_none, H⟩
  | some s =>
    cases b with
    | none => exact ⟨H, holds_none⟩
    | some t =>
      refine holds_of_join (ha s rfl) (hb t rfl) ?_ H
      exact Facts.get_join (ha s rfl).registers.sorted

theorem holds_of_combineStates (ha : Scoped L P a) (hb : Scoped L P b)
    (H : Holds r x (combineStates (Symbolic.join L) a b)) : Holds r x a ∧ Holds r x b := by
  cases a with
  | none => exact ⟨holds_none, H⟩
  | some s =>
    cases b with
    | none => exact ⟨H, holds_none⟩
    | some t =>
      refine holds_of_join (ha s rfl) (hb t rfl) ?_ H
      exact Facts.get_combine (fun _ => Symbolic.top_join) (ha s rfl).registers.sorted

theorem holds_of_joinAll {arrivals : List (Arrival (Option State))}
    (hscoped : ∀ a ∈ arrivals, Scoped L P a.state)
    (H : Holds r x (Analysis.joinAll none (joinStates L) arrivals)) :
    ∀ a ∈ arrivals, Holds r x a.state := by
  have hfold : ∀ (as : List (Arrival (Option State))) (s : Option State), Scoped L P s →
      (∀ a ∈ as, Scoped L P a.state) →
      Holds r x (as.foldl (fun acc a => joinStates L acc a.state) s) →
      Holds r x s ∧ ∀ a ∈ as, Holds r x a.state := by
    intro as
    induction as with
    | nil => exact fun s _ _ H => ⟨H, fun a ha => (by cases ha)⟩
    | cons a as ih =>
      intro s hs has H
      obtain ⟨ha, has⟩ := List.forall_mem_cons.mp has
      obtain ⟨hjoin, hrest⟩ := ih _ (scoped_joinStates hs ha) has H
      obtain ⟨h₁, h₂⟩ := holds_of_joinStates hs ha hjoin
      exact ⟨h₁, List.forall_mem_cons.mpr ⟨h₂, hrest⟩⟩
  exact (hfold _ _ every_none hscoped H).2

/-- What comes back has been widened against the value before. -/
theorem returns_of_widen (hx : x.Proper L P) (ha : Scoped L P a) (hb : Scoped L P b)
    (H : Holds r x (combineStates (Symbolic.widen L h) a b)) : Returns h r x b := by
  rintro t ⟨⟩
  cases a with
  | none =>
    obtain ⟨y, hy, hpart⟩ := H t rfl
    exact ⟨y, hy, hpart.terms, .inl hpart.constant⟩
  | some s =>
    obtain ⟨y, hy, hpart⟩ := H _ rfl
    have hw : Symbolic.widen L h (s.register r) (t.register r) = .affine y :=
      (Facts.get_combine (fun _ => Symbolic.top_widen) (ha s rfl).registers.sorted).symm.trans hy
    obtain ⟨-, n, -, hn, -, hsub, hconst⟩ :=
      Symbolic.widen_eq_affine (ha s rfl).register (hb t rfl).register hw
    refine ⟨n, hn, fun u hu => hpart.terms u (hsub u hu), ?_⟩
    rcases hconst with hconst | ⟨k, hk, hconst⟩
    · exact .inl (hconst.trans hpart.constant)
    · have hstride : x.stride h = k := by
        rw [hx.stride_eq]
        exact Term.coefOf_of_mem hx.sorted (hpart.terms _ hk)
      exact .inr (by rw [hconst, hpart.constant, hstride])

/-- The values that arrive at a header, from the value that is kept there. -/
theorem holds_of_input {previous : Option State} {arrivals : List (Arrival (Option State))}
    {s : State} (hh : G.loops.isHeader h = true) (hself : P h) (hx : x.Proper G.loops P)
    (hprev : Scoped G.loops P previous) (hscoped : ∀ a ∈ arrivals, Scoped G.loops P a.state)
    (hinput : input G h previous arrivals = some s) (hs : s.register r = .affine x) :
    ∀ a ∈ arrivals, if a.isBack then Returns h r x a.state else Holds r x a.state := by
  have hside : ∀ keep : Arrival (Option State) → Bool, ∀ a ∈ arrivals.filter keep,
      Scoped G.loops P a.state := fun _ a ha => hscoped a (List.mem_of_mem_filter ha)
  have hwhole : Holds r x (input G h previous arrivals) := by
    rw [hinput]
    rintro _ ⟨⟩
    exact ⟨x, hs, .refl⟩
  unfold input at hwhole
  simp only [hh, if_true] at hwhole
  generalize hback : Analysis.joinAll none (joinStates G.loops)
    (arrivals.filter fun a => a.isBack) = back at hwhole
  have hbscoped : Scoped G.loops P back := hback ▸ scoped_joinAll (hside _)
  obtain ⟨hentering, hwidened⟩ := holds_of_combineStates (scoped_joinAll (hside _))
    (scoped_combineStates (fun _ _ => Symbolic.proper_widen hself) hprev hbscoped) hwhole
  intro a ha
  split
  · rename_i hab
    have hmem : a ∈ arrivals.filter fun a => a.isBack := List.mem_filter.mpr ⟨ha, hab⟩
    intro t ht
    cases back with
    | none => exact absurd hback (joinAll_ne_none hmem (ht ▸ nofun))
    | some u =>
      obtain ⟨y, hy, hsub, hconst⟩ := returns_of_widen hx hprev hbscoped hwidened u rfl
      have hjoin : Holds r y (Analysis.joinAll none (joinStates G.loops)
          (arrivals.filter fun a => a.isBack)) := by
        rw [hback]
        rintro _ ⟨⟩
        exact ⟨y, hy, .refl⟩
      obtain ⟨z, hz, hpart⟩ := holds_of_joinAll (hside _) hjoin a hmem t ht
      exact ⟨z, hz, fun v hv => hsub v (hpart.terms v hv), hpart.constant ▸ hconst⟩
  · rename_i hab
    exact holds_of_joinAll (hside _) hentering a (List.mem_filter.mpr ⟨ha, by simpa using hab⟩)

/-- The states that arrive at a block, each over a back edge or not. -/
inductive Arrives (G : FlowGraph) (boot : Boot) (limits : Limits) (p : Progress (Option State))
    (b : Nat) : Bool → State → Prop
  | start : b = G.entry → Arrives G boot limits p b false (.ofBoot boot limits.stackBase)
  | edge {e : Edge Crossing} {t : State} : e ∈ G.graph.edges → e.target = b →
      G.graph.Reaches G.entry e.source →
      propagate G e (transfer G ⟨G.loops, boot, limits.cap⟩ e.source p.inputs[e.source]?.join) =
      some t → Arrives G boot limits p b e.label.back t

section
variable {boot : Boot} {limits : Limits} {p : Progress (Option State)} (B : G.Built)
  (hp : resolve G boot limits = .ok p)
include B hp

/-- What arrives at a block is among the states from which its input was computed. -/
theorem Arrives.mem_arrivals {b : Nat} {back : Bool} {t : State}
    (H : Arrives G boot limits p b back t) : ∃ a ∈ Progress.arrivals
      (analysis G ⟨G.loops, boot, limits.cap⟩ (.ofBoot boot limits.stackBase)) G p.onEdges b,
      a.isBack = back ∧ a.state = some t := by
  obtain ⟨C, hq⟩ := consistent_resolve B hp
  cases H with
  | start hb => exact ⟨_, hb ▸ Progress.mem_arrivals_entry, rfl, rfl⟩
  | @edge e _ he hb hr ht =>
    obtain ⟨i, hi⟩ := List.getElem?_of_mem he
    have S := C.solved e.source (B.mem_order.mpr hr) (hq ▸ List.not_mem_nil)
    refine ⟨_, hb ▸ Progress.mem_arrivals hi, rfl, ?_⟩
    refine (S.edgeAt_eq (fun _ _ => beq_iff_eq.mp) (Progress.mem_outgoing.mpr ⟨hi, rfl⟩)).trans ?_
    rw [inputAt_eq rfl]
    exact ht

/-- A value that enters a loop does not depend on the counter of the loop. -/
theorem Arrives.proper {b : Nat} {back : Bool} {t : State} (H : Arrives G boot limits p b back t) :
    t.Proper G.loops fun n => G.loops.Inside n b ∧ (back = false → n ≠ b) := by
  obtain ⟨C, -⟩ := consistent_resolve B hp
  cases H with
  | start => exact State.proper_ofBoot
  | @edge e _ he hb hr ht =>
    subst hb
    have hsource : Scoped G.loops (G.loops.Inside · e.source) p.inputs[e.source]?.join := by
      have := C.inputs e.source
      rwa [inputAt_eq rfl] at this
    have htransfer : Scoped G.loops (G.loops.Inside · e.source)
        (transfer G ⟨G.loops, boot, limits.cap⟩ e.source p.inputs[e.source]?.join) :=
      scoped_transfer hsource
    have hscoped := scoped_propagate B he hr htransfer t ht
    refine hscoped.mono fun n hn => ⟨hn.2, fun hback heq => ?_⟩
    have := (B.back_iff he hr).mpr (heq ▸ hn.1)
    rw [hback] at this
    cases this

end

/-- A loop header keeps an expression of which every arriving value has part. Its value in the first
iteration is the one that enters if that has all terms of other loops, and its value in the next
iteration is the one that comes back if that has all terms and lies one stride ahead. -/
theorem header_value_iff {blocks : List Block} {edges : List (Nat × Nat)}
    {bounds : List (Nat × LoopBound)} {entry : Nat} {G : FlowGraph} {boot : Boot} {limits : Limits}
    {p : Progress (Option State)} {h : Nat} {s : State} {r : Register} {R : Affine}
    (hG : FlowGraph.build blocks edges bounds entry = .ok G) (hp : resolve G boot limits = .ok p)
    (hr : G.graph.Reaches G.entry h) (hh : G.loops.isHeader h = true)
    (hs : p.inputs[h]? = some (some s)) (hR : s.register r = .affine R) :
    (∀ t, Arrives G boot limits p h false t → ∃ V, t.register r = .affine V ∧ V.Part R ∧
      ((∀ c, R.eval (Function.update c h 0) = V.eval c) ↔
        ∀ u ∈ R.terms, u.header ≠ h → u ∈ V.terms)) ∧
    ∀ t, Arrives G boot limits p h true t → ∃ V, t.register r = .affine V ∧
      (∀ u ∈ V.terms, u ∈ R.terms) ∧
      (V.constant = R.constant ∨ V.constant = R.constant + word (R.stride h)) ∧
      ((∀ c i, R.eval (Function.update c h (i + 1)) = V.eval (Function.update c h i)) ↔
        (∀ u ∈ R.terms, u ∈ V.terms) ∧ V.constant = R.constant + word (R.stride h)) := by
  have B := FlowGraph.built_of_build hG
  obtain ⟨C, hq⟩ := consistent_resolve B hp
  have hself := B.loops.inside_self B.closed B.entry_lt hh
  have hinput : p.inputAt
      (analysis G ⟨G.loops, boot, limits.cap⟩ (.ofBoot boot limits.stackBase)) h = some s := by
    rw [inputAt_eq rfl, hs]
    rfl
  have hproper : R.Proper G.loops (G.loops.Inside · h) := by
    have hs := (C.inputs h s hinput).register (r := r)
    rw [hR] at hs
    cases hs
    assumption
  obtain ⟨prev, hprev, heq⟩ := (C.solved h (B.mem_order.mpr hr) (hq ▸ List.not_mem_nil)).input
  have hheld := holds_of_input (P := (G.loops.Inside · h)) hh hself hproper hprev
    (scoped_arrivals State.proper_ofBoot C.edges) (heq.symm.trans hinput) hR
  constructor
  · intro t ht
    obtain ⟨a, ha, hback, hstate⟩ := ht.mem_arrivals B hp
    have hV := hheld a ha
    rw [hback] at hV
    obtain ⟨V, hV, hpart⟩ := hV t hstate
    have hp := (ht.proper B hp).register (r := r)
    rw [hV] at hp
    cases hp with
    | affine hp =>
      refine ⟨V, hV, hpart, Affine.eval_start_iff hproper hp hpart fun u hu => ?_⟩
      exact (hp.terms u hu).scope.2 rfl
  · intro t ht
    obtain ⟨a, ha, hback, hstate⟩ := ht.mem_arrivals B hp
    have hV := hheld a ha
    rw [hback] at hV
    obtain ⟨V, hV, hsub, hconst⟩ := hV t hstate
    have hp := (ht.proper B hp).register (r := r)
    rw [hV] at hp
    cases hp with
    | affine hp => exact ⟨V, hV, hsub, hconst, Affine.eval_next_iff hproper hp hsub⟩

/-- A register is set before a loop of eight iterations, whose body is `ops`. -/
def roundBlocks (first : UInt32) (ops : List MicroOp) : List Block :=
  [⟨0, [⟨0, [.literal (.machine 0) first], none⟩]⟩, ⟨4, [⟨4, ops, none⟩]⟩, ⟨8, []⟩]

def roundGraph (first : UInt32) (ops : List MicroOp) : FlowGraph where
  graph := ⟨roundBlocks first ops,
    [⟨0, 1, ⟨false, [], true⟩⟩, ⟨1, 1, ⟨true, [], false⟩⟩, ⟨1, 2, ⟨false, [1], false⟩⟩]⟩
  entry := 0
  dominators := ⟨0, [some 0, some 0, some 1], [0, 1, 2]⟩
  loops := ⟨[⟨⟨1, [1], [1]⟩, 0, none, [], ⟨some 8, some 8⟩⟩], [0, 1, 2]⟩

theorem reaches_round {first : UInt32} {ops : List MicroOp} :
    (roundGraph first ops).graph.Reaches 0 1 :=
  .step .refl ⟨_, List.mem_cons_self, rfl, rfl⟩

def bareBoot : Boot := ⟨.machine 13, [], [], []⟩

def holding (v : Affine) : State :=
  ⟨⟨[(.machine 0, .affine v), (.machine 13, .const 0x80000000)]⟩, .empty⟩

/-- The resolved states: what enters the loop, what its header keeps, what comes back and what is
left after the loop. -/
def roundProgress (enters header back last : Affine) (visited : List Nat) :
    Progress (Option State) where
  inputs := [some (.ofBoot bareBoot 0x80000000), some (holding header), some (holding last)]
  outputs := [some (holding enters), some (holding back), some (holding last)]
  onEdges := [some (holding enters), some (holding back), some (holding last)]
  queue := []
  visited

theorem arrives_round {first : UInt32} {ops : List MicroOp} {enters header back last : Affine}
    {visited : List Nat} (h : transfer (roundGraph first ops)
      ⟨(roundGraph first ops).loops, bareBoot, Limits.default.cap⟩ 1 (some (holding header)) =
        some (holding back)) :
    Arrives (roundGraph first ops) bareBoot .default
      (roundProgress enters header back last visited) 1 true (holding back) :=
  Arrives.edge (e := ⟨1, 1, ⟨true, [], false⟩⟩) (List.mem_cons_of_mem _ List.mem_cons_self) rfl
    reaches_round (congrArg (propagate _ _) h)

def pointerOps : List MicroOp :=
  [.literal (.temporary 0) 4, .binary .add (.machine 0) (.machine 0) (.temporary 0)]

def pointerProgress : Progress (Option State) :=
  roundProgress ⟨[], 0x1000⟩ ⟨[⟨4, 1⟩], 0x1000⟩ ⟨[⟨4, 1⟩], 0x1004⟩ ⟨[], 0x1020⟩ [2, 1, 1, 2, 1, 0]

/-- A pointer that the body moves by four bytes is described in every iteration. -/
theorem header_value_iff_pointer :
    resolve (roundGraph 0x1000 pointerOps) bareBoot .default = .ok pointerProgress ∧
    Arrives (roundGraph 0x1000 pointerOps) bareBoot .default pointerProgress 1 true
      (holding ⟨[⟨4, 1⟩], 0x1004⟩) ∧
    ∀ c i, (⟨[⟨4, 1⟩], 0x1000⟩ : Affine).eval (Function.update c 1 (i + 1)) =
      (⟨[⟨4, 1⟩], 0x1004⟩ : Affine).eval (Function.update c 1 i) := by
  have hG : FlowGraph.build (roundBlocks 0x1000 pointerOps) [(0, 1), (1, 1), (1, 2)]
    [(1, ⟨some 8, some 8⟩)] 0 = .ok (roundGraph 0x1000 pointerOps) := rfl
  have hp : resolve (roundGraph 0x1000 pointerOps) bareBoot .default = .ok pointerProgress := rfl
  have ht : Arrives (roundGraph 0x1000 pointerOps) bareBoot .default pointerProgress 1 true
    (holding ⟨[⟨4, 1⟩], 0x1004⟩) := arrives_round rfl
  obtain ⟨V, hV, -, -, hiff⟩ :=
    (header_value_iff (r := .machine 0) hG hp reaches_round rfl rfl rfl).2 _ ht
  cases hV
  exact ⟨hp, ht, hiff.mpr (by decide)⟩

/-- A loop that sets a register to four, which was zero before. -/
def resetProgress : Progress (Option State) :=
  roundProgress ⟨[], 0⟩ ⟨[⟨4, 1⟩], 0⟩ ⟨[], 4⟩ ⟨[], 4⟩ [1, 2, 1, 0]

/-- A register that a loop sets to a constant is taken for one that grows. -/
theorem header_value_grows_after_reset :
    FlowGraph.build (roundBlocks 0 [.literal (.machine 0) 4]) [(0, 1), (1, 1), (1, 2)]
      [(1, ⟨some 8, some 8⟩)] 0 = .ok (roundGraph 0 [.literal (.machine 0) 4]) ∧
    resolve (roundGraph 0 [.literal (.machine 0) 4]) bareBoot .default = .ok resetProgress ∧
    (roundGraph 0 [.literal (.machine 0) 4]).graph.Reaches 0 1 ∧
    (roundGraph 0 [.literal (.machine 0) 4]).loops.isHeader 1 = true ∧
    resetProgress.inputs[1]? = some (some (holding ⟨[⟨4, 1⟩], 0⟩)) ∧
    (holding ⟨[⟨4, 1⟩], 0⟩).register (.machine 0) = .affine ⟨[⟨4, 1⟩], 0⟩ ∧
    Arrives (roundGraph 0 [.literal (.machine 0) 4]) bareBoot .default resetProgress 1 true
      (holding ⟨[], 4⟩) ∧
    (holding ⟨[], 4⟩).register (.machine 0) = .affine ⟨[], 4⟩ ∧
    (⟨[⟨4, 1⟩], 0⟩ : Affine).eval (Function.update (fun _ => 0) 1 (1 + 1)) ≠
      (⟨[], 4⟩ : Affine).eval (Function.update (fun _ => 0) 1 1) :=
  ⟨rfl, rfl, reaches_round, rfl, rfl, rfl, arrives_round rfl, rfl, by decide⟩

end Resolution

end MissBound
