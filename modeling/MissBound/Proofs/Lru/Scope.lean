import MissBound.Proofs.Fixpoint
import MissBound.Proofs.Lru.SetState
import MissBound.Proofs.Symbolic.Extent

/-!
The lines of a state speak of the loops around their block only: a loop that is left takes its
counter out of all lines, and one that is entered does not yet occur in any.
-/

namespace MissBound

/-- The access is to an unknown address, or to one that depends on the counters of loops around its
block only. -/
def DataUse.Scoped (L : LoopForest) (b : Nat) (a : DataUse) : Prop :=
  a.reference = .top ∨ ∃ e, a.reference = .affine e ∧ e.Canonical L ∧
    ∀ t ∈ e.terms, L.Inside t.header b

def AccessTable.Scoped (L : LoopForest) (table : AccessTable) : Prop :=
  ∀ b, ∀ a ∈ table.block b, a.toDataUse.Scoped L b

/-- The access is to an unknown address, or to one that depends on the counters of loops around
its block and spans less than the address space. -/
def DataUse.Regular (L : LoopForest) (b : Nat) (a : DataUse) : Prop :=
  a.reference = .top ∨ ∃ e, a.reference = .affine e ∧ e.Canonical L ∧ e.Narrow L ∧
    ∀ t ∈ e.terms, L.Inside t.header b

def AccessTable.Regular (L : LoopForest) (table : AccessTable) : Prop :=
  ∀ b, ∀ a ∈ table.block b, a.toDataUse.Regular L b

theorem DataUse.regular_const {L : LoopForest} {a : DataUse} {b : Nat} {c : UInt32}
    (h : a.reference = .const c) : a.Regular L b :=
  .inr ⟨_, h, Affine.canonical_const, fun _ => Nat.two_pow_pos 32, fun t ht => (by cases ht)⟩

theorem AccessTable.Regular.scoped {L : LoopForest} {table : AccessTable} (h : table.Regular L) :
    table.Scoped L := by
  intro b a ha
  rcases h b a ha with htop | ⟨e, he, hcan, -, hin⟩
  · exact .inl htop
  · exact .inr ⟨e, he, hcan, hin⟩

instance (L : LoopForest) (b : Nat) (a : DataUse) : Decidable (a.Regular L b) :=
  decidable_of_iff (a.reference = .top ∨ ∃ e ∈ a.reference.affine?, e.Canonical L ∧ e.Narrow L ∧
      ∀ t ∈ e.terms, L.Inside t.header b) <| by
    refine or_congr_right (exists_congr fun e => and_congr_left fun _ => ?_)
    cases a.reference <;> simp [Symbolic.affine?]

/-- What holds of the accesses of all blocks holds of those that the table lists. -/
theorem AccessTable.forall_block {table : AccessTable} {P : Nat → Access → Prop} :
    (∀ x ∈ table.blocks.zipIdx, ∀ a ∈ x.1, P x.2 a) ↔ ∀ b, ∀ a ∈ table.block b, P b a := by
  refine ⟨fun H b a ha => ?_, fun H x hx a ha => H x.2 a ?_⟩
  · unfold AccessTable.block at ha
    cases hb : table.blocks[b]? with
    | none =>
      rw [hb] at ha
      cases ha
    | some as =>
      rw [hb] at ha
      exact H (as, b) (List.mem_zipIdx_iff_getElem?.mpr hb) a ha
  · rw [AccessTable.block, List.mem_zipIdx_iff_getElem?.mp hx]
    exact ha

instance (L : LoopForest) (table : AccessTable) : Decidable (table.Regular L) :=
  decidable_of_iff _ AccessTable.forall_block

/-- The line stands for an expression over the counters of loops in `P`. -/
def Line.Scoped (L : LoopForest) (P : Nat → Prop) (l : Line) : Prop :=
  ∃ e, l.reference = .affine e ∧ e.Canonical L ∧ ∀ t ∈ e.terms, P t.header

def SetState.Scoped (L : LoopForest) (P : Nat → Prop) (s : SetState) : Prop :=
  ∀ l ∈ s.lines, l.Scoped L P

theorem SetState.Scoped.mono {L : LoopForest} {P Q : Nat → Prop} {s : SetState}
    (h : s.Scoped L P) (hPQ : ∀ n, P n → Q n) : s.Scoped L Q := by
  intro l hl
  obtain ⟨e, he, hc, ht⟩ := h l hl
  exact ⟨e, he, hc, fun t hmem => hPQ _ (ht t hmem)⟩

theorem Line.Scoped.of_reference {L : LoopForest} {P : Nat → Prop} {l m : Line}
    (h : m.Scoped L P) (heq : l.reference = m.reference) : l.Scoped L P := by
  obtain ⟨e, he, h⟩ := h
  exact ⟨e, heq.trans he, h⟩

namespace SetDomain

variable {D : SetDomain} {G : FlowGraph} {table : AccessTable} {b : Nat} {s t : SetState}
  {P : Nat → Prop}

theorem scoped_update {a : DataUse} (ha : a.Scoped D.loops b)
    (hs : s.Scoped D.loops (D.loops.Inside · b)) :
    (D.update s a).Scoped D.loops (D.loops.Inside · b) := by
  unfold update
  split
  · exact hs
  · split
    · intro l hl
      obtain ⟨m, hm, rfl⟩ := List.mem_map.mp hl
      exact (hs m hm).of_reference rfl
    · rename_i htop
      intro l hl
      rcases mem_use hl with ⟨m, hm, -, rfl⟩ | ⟨m, hm, -, rfl⟩ | ⟨-, rfl⟩
      · exact (hs m hm).of_reference rfl
      · exact (hs m hm).of_reference rfl
      · rcases ha with ha | ⟨e, ha, hc, hin⟩
        · rw [ha] at htop
          exact absurd rfl htop
        · obtain ⟨e', he', hterms, hc', -⟩ := normalize_affine (D := D) hc
          refine ⟨e', ?_, hc', fun t ht => hin t (hterms ▸ ht)⟩
          change D.normalize a.reference = _
          rw [ha, he']

theorem scoped_foldl_update (ht : table.Scoped D.loops) (as : List Access)
    (has : ∀ a ∈ as, a ∈ table.block b) (hs : s.Scoped D.loops (D.loops.Inside · b)) :
    (as.foldl (fun s a => D.update s a.toDataUse) s).Scoped D.loops (D.loops.Inside · b) :=
  List.foldlRecOn (motive := (SetState.Scoped D.loops (D.loops.Inside · b) ·)) _ _ hs
    fun _ hs a ha => scoped_update (ht b a (has a ha)) hs

theorem scoped_transfer (ht : table.Scoped D.loops) (hs : s.Scoped D.loops (D.loops.Inside · b)) :
    (D.transfer table b s).Scoped D.loops (D.loops.Inside · b) := by
  unfold transfer
  split
  · exact hs
  · exact scoped_foldl_update ht _ (fun _ h => h) hs

theorem scoped_join (hs : s.Scoped D.loops P) (ht : t.Scoped D.loops P) :
    (D.join s t).Scoped D.loops P := by
  cases s with
  | bottom => exact ht
  | known xs =>
    cases t with
    | bottom => exact hs
    | known ys =>
      intro l hl
      rcases mem_joinLines hl with ⟨x, hx, y, -, -, rfl⟩ | ⟨x, hx, -, rfl⟩ | ⟨y, hy, -, rfl⟩
      · exact (hs x hx).of_reference rfl
      · exact (hs x hx).of_reference rfl
      · exact (ht y hy).of_reference rfl

theorem scoped_joinAll {arrivals : List (Arrival SetState)}
    (h : ∀ a ∈ arrivals, a.state.Scoped D.loops P) :
    (Analysis.joinAll .bottom D.join arrivals).Scoped D.loops P := by
  have hfold : ∀ (as : List (Arrival SetState)) (s : SetState), (∀ a ∈ as, a ∈ arrivals) →
      s.Scoped D.loops P → (as.foldl (fun acc a => D.join acc a.state) s).Scoped D.loops P := by
    intro as
    induction as with
    | nil => exact fun _ _ hs => hs
    | cons a as ih =>
      intro s hmem hs
      exact ih _ (fun x hx => hmem x (List.mem_cons_of_mem _ hx))
        (scoped_join hs (h a (hmem a List.mem_cons_self)))
  exact hfold _ _ (fun _ h => h) fun l hl => (by cases hl)

/-- Leaving a loop that comes first among those around takes its counter out of all lines. -/
theorem scoped_leave {header source : Nat} (hs : s.Scoped D.loops P)
    (hfirst : ∀ u, P u → u ≠ header → D.loops.compareHeaders header u = .lt) :
    (D.leave s header source).Scoped D.loops fun h => P h ∧ h ≠ header := by
  cases s with
  | bottom => exact fun l hl => (by cases hl)
  | known ls =>
    intro l hl
    obtain ⟨m, hm, m', hleave, hsharp⟩ := mem_leave hl
    obtain ⟨e, he, hc, ht⟩ := hs m hm
    obtain ⟨-, -, -, e', he', E⟩ := leaveLine?_spec he hc hleave
    refine ⟨e', hsharp.reference ▸ he', E.canonical, fun t hmem => ⟨ht t (E.subset t hmem), ?_⟩⟩
    intro heq
    -- a term of the loop would have to stand first
    have hmem := E.subset t hmem
    have hsorted := hc.sorted
    cases hterms : e.terms with
    | nil =>
      rw [hterms] at hmem
      cases hmem
    | cons u rest =>
      by_cases hu : u.header = header
      · exact E.left (by rw [hterms, List.head?_cons, Option.map_some, hu]) t ‹_› heq
      · have hlt := hfirst _ (ht u (hterms ▸ List.mem_cons_self)) hu
        rw [hterms] at hmem hsorted
        rcases List.mem_cons.mp hmem with rfl | hmem
        · exact hu heq
        · have hlt' := (List.pairwise_cons.mp hsorted).1 t hmem
          rw [heq] at hlt'
          exact D.loops.compareHeaders_asymm hlt' hlt

section
variable (B : G.Built) (hD : D.loops = G.loops)
include B hD

/-- Over an edge only the loops around both its ends are left in the lines. -/
theorem scoped_propagate {e : Edge Crossing} (he : e ∈ G.graph.edges)
    (hr : G.graph.Reaches G.entry e.source)
    (hs : s.Scoped D.loops (D.loops.Inside · e.source)) :
    (D.propagate e s).Scoped D.loops fun h =>
      D.loops.Inside h e.source ∧ D.loops.Inside h e.target := by
  have hfold : ∀ (rest done : List Nat) (s : SetState), e.label.exited = done ++ rest →
      (s.Scoped D.loops fun h => D.loops.Inside h e.source ∧ h ∉ done) →
      (rest.foldl (fun s h => D.leave s h e.source) s).Scoped D.loops fun h =>
        D.loops.Inside h e.source ∧ h ∉ e.label.exited := by
    intro rest
    induction rest with
    | nil =>
      intro done s hex hs
      rw [hex, List.append_nil]
      exact hs
    | cons h rest ih =>
      intro done s hex hs
      refine ih (done ++ [h]) _ (by simpa using hex) ?_
      refine (scoped_leave hs fun u hu hne => ?_).mono fun n hn => ⟨hn.1.1, ?_⟩
      · rw [hD] at hu ⊢
        exact B.exited_first he hr hex hu.1 hu.2 hne
      · rw [List.mem_append, List.mem_singleton, not_or]
        exact ⟨hn.1.2, hn.2⟩
  have hleft : (e.label.exited.foldl (fun s h => D.leave s h e.source) s).Scoped D.loops fun h =>
      D.loops.Inside h e.source ∧ D.loops.Inside h e.target := by
    refine (hfold _ [] s rfl (hs.mono fun n hn => ⟨hn, List.not_mem_nil⟩)).mono fun n hn => ?_
    refine ⟨hn.1, ?_⟩
    by_contra hnot
    refine hn.2 ((B.mem_exited he hr).mpr ?_)
    rw [← hD]
    exact ⟨hn.1, hnot⟩
  unfold propagate
  simp only
  generalize e.label.exited.foldl (fun s h => D.leave s h e.source) s = t at hleft
  split
  · cases t with
    | bottom => exact hleft
    | known ls => exact fun l hl => hleft l (List.mem_of_mem_filter hl)
  · split
    · intro l hl
      obtain ⟨m, hm, rfl⟩ := List.mem_map.mp hl
      exact (hleft m hm).of_reference rfl
    · exact hleft

/-- The scopes of lines are kept by the whole analysis. -/
theorem keeps_scoped (ht : table.Scoped D.loops) :
    Progress.Keeps (D.analysis table) G (fun b s => s.Scoped D.loops (D.loops.Inside · b))
      fun e s => s.Scoped D.loops fun h => D.loops.Inside h e.source ∧
      D.loops.Inside h e.target where
  bottom_input b l hl := by cases hl
  bottom_edge e _ l hl := by cases hl
  input b _ prev onEdges _ hedges := by
    refine scoped_joinAll fun a ha => ?_
    rcases List.mem_append.mp ha with ha | ha
    · split at ha
      · cases List.mem_singleton.mp ha
        exact fun l hl => (by cases hl)
      · cases ha
    · obtain ⟨⟨e, i⟩, hmem, rfl⟩ := List.mem_map.mp ha
      obtain ⟨hget, rfl⟩ := Progress.mem_incoming.mp hmem
      exact (hedges e i hget).mono fun _ h => h.2
  edge e he hsource s hs :=
    scoped_propagate B hD he (B.mem_order.mp hsource) (scoped_transfer ht hs)

end

end SetDomain

end MissBound
