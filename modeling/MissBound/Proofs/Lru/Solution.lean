import MissBound.Proofs.Lru.Must

/-!
The fixed point of a set. It solves the flow equations, reaches every block that a run can reach,
and a line of which it claims that it cannot have been evicted has arrived over every edge.
-/

namespace MissBound.SetDomain

variable {D : SetDomain} {G : FlowGraph} {table : AccessTable} {p : Progress SetState}
  {s t : SetState} {b i k : Nat} {l : Line}

/-- The state before the access at position `k` of a block. -/
def before (D : SetDomain) (table : AccessTable) (p : Progress SetState) (b k : Nat) : SetState :=
  ((table.block b).take k).foldl (fun s a => D.update s a.toDataUse)
    (p.inputAt (D.analysis table) b)

theorem before_zero : D.before table p b 0 = p.inputAt (D.analysis table) b := rfl

theorem before_succ {a : Access} (h : (table.block b)[k]? = some a) :
    D.before table p b (k + 1) = D.update (D.before table p b k) a.toDataUse := by
  unfold before
  rw [List.take_add_one, h, Option.toList_some, List.foldl_concat]

theorem scoped_before (ht : table.Scoped D.loops)
    (hs : (p.inputAt (D.analysis table) b).Scoped D.loops (D.loops.Inside · b)) :
    (D.before table p b k).Scoped D.loops (D.loops.Inside · b) :=
  scoped_foldl_update ht _ (fun _ ha => List.mem_of_mem_take ha) hs

theorem update_ne_bottom {a : DataUse} (h : s ≠ .bottom) : D.update s a ≠ .bottom := by
  unfold update
  split
  · exact h
  · split <;> exact fun h => (by cases h)

theorem before_ne_bottom (h : p.inputAt (D.analysis table) b ≠ .bottom) :
    D.before table p b k ≠ .bottom :=
  List.foldlRecOn (motive := (· ≠ SetState.bottom)) _ _ h fun _ h _ _ => update_ne_bottom h

theorem transfer_eq_before (h : p.inputAt (D.analysis table) b ≠ .bottom) :
    D.transfer table b (p.inputAt (D.analysis table) b) =
      D.before table p b (table.block b).length := by
  unfold before
  rw [List.take_length]
  unfold transfer
  split
  · rename_i heq
    exact absurd heq h
  · rename_i heq
    rw [heq]

theorem propagate_ne_bottom {e : Edge Crossing} (h : s ≠ .bottom) : D.propagate e s ≠ .bottom := by
  have hleft : e.label.exited.foldl (fun s h => D.leave s h e.source) s ≠ .bottom := by
    refine List.foldlRecOn (motive := (· ≠ SetState.bottom)) _ _ h fun s h k _ => ?_
    cases s with
    | bottom => exact absurd rfl h
    | known ls => exact fun h => (by cases h)
  unfold propagate
  simp only
  generalize e.label.exited.foldl (fun s h => D.leave s h e.source) s = t at hleft
  split
  · cases t with
    | bottom => exact absurd rfl hleft
    | known ls => exact fun h => (by cases h)
  · split
    · exact fun h => (by cases h)
    · exact hleft

theorem joinAll_ne_bottom {arrivals : List (Arrival SetState)} {a : Arrival SetState}
    (ha : a ∈ arrivals) (h : a.state ≠ .bottom) :
    Analysis.joinAll .bottom D.join arrivals ≠ .bottom := by
  have hfold : ∀ (as : List (Arrival SetState)) (s : SetState), (s ≠ .bottom ∨ a ∈ as) →
      as.foldl (fun acc a => D.join acc a.state) s ≠ .bottom := by
    intro as
    induction as with
    | nil => exact fun s h => h.resolve_right List.not_mem_nil
    | cons x as ih =>
      intro s hs
      refine ih _ ?_
      rcases hs with hs | hs
      · exact .inl (join_ne_bottom (.inl hs))
      · rcases List.mem_cons.mp hs with rfl | hs
        · exact .inl (join_ne_bottom (.inr h))
        · exact .inr hs
  exact hfold _ _ (.inr ha)

theorem transfer_ne_bottom (h : s ≠ .bottom) : D.transfer table b s ≠ .bottom := by
  cases s with
  | bottom => exact absurd rfl h
  | known ls =>
    exact List.foldlRecOn (motive := (· ≠ SetState.bottom)) _ _ h fun _ h _ _ => update_ne_bottom h

theorem spreads : Progress.Spreads (D.analysis table) (· ≠ .bottom) where
  entry h := by cases h
  input _ _ _ := fun ⟨_, ha, h⟩ => joinAll_ne_bottom ha h
  transfer _ _ := transfer_ne_bottom
  propagate _ _ := propagate_ne_bottom
  equal _ _ h := (beq_iff_eq.mp h).symm ▸ id

/-- The fixed point of a set, on a graph whose loops are those of the set's references. -/
structure Solution (D : SetDomain) (G : FlowGraph) (table : AccessTable) (p : Progress SetState) :
    Prop where
  built : G.Built
  loops : D.loops = G.loops
  regular : table.Regular D.loops
  solved : ∃ budget, (D.analysis table).solve G budget = .ok p

namespace Solution

variable (S : Solution D G table p)
include S

theorem consistent : Progress.Consistent (D.analysis table) G
      (fun b s => s.Scoped D.loops (D.loops.Inside · b))
      (fun e s => s.Scoped D.loops fun h => D.loops.Inside h e.source ∧
        D.loops.Inside h e.target) p ∧
    p.queue = [] := by
  obtain ⟨budget, h⟩ := S.solved
  exact Progress.consistent_solve S.built (keeps_scoped S.built S.loops S.regular.scoped) h

theorem solvedAt (hr : G.graph.Reaches G.entry b) : Progress.Solved (D.analysis table) G
    (·.Scoped D.loops (D.loops.Inside · b)) p b := by
  obtain ⟨C, hq⟩ := S.consistent
  exact C.solved b (S.built.mem_order.mpr hr) (hq ▸ List.not_mem_nil)

theorem input_eq (hr : G.graph.Reaches G.entry b) : p.inputAt (D.analysis table) b =
    Analysis.joinAll .bottom D.join (Progress.arrivals (D.analysis table) G p.onEdges b) := by
  obtain ⟨prev, -, h⟩ := (S.solvedAt hr).input
  exact h

theorem edge_eq {e : Edge Crossing} (he : G.graph.edges[i]? = some e)
    (hr : G.graph.Reaches G.entry e.source) : p.edgeAt (D.analysis table) i =
      D.propagate e (D.transfer table e.source (p.inputAt (D.analysis table) e.source)) :=
  (S.solvedAt hr).edgeAt_eq (fun _ _ => beq_iff_eq.mp) (Progress.mem_outgoing.mpr ⟨he, rfl⟩)

theorem scoped_before : (D.before table p b k).Scoped D.loops (D.loops.Inside · b) :=
  SetDomain.scoped_before S.regular.scoped (S.consistent.1.inputs b)

/-- Every block that can be reached is. -/
theorem input_ne_bottom (hr : G.graph.Reaches G.entry b) :
    p.inputAt (D.analysis table) b ≠ .bottom :=
  S.consistent.1.spreads S.consistent.2 S.built spreads hr

/-- A line that cannot have been evicted arrives over every edge. -/
theorem sharper_of_edge {e : Edge Crossing} (he : e ∈ G.graph.edges)
    (hr : G.graph.Reaches G.entry e.source) (hl : l ∈ (D.before table p e.target 0).lines)
    (hlt : l.must < D.ways) :
    ∃ m ∈ (D.propagate e (D.before table p e.source (table.block e.source).length)).lines,
      Sharper m l := by
  obtain ⟨i, hi⟩ := List.getElem?_of_mem he
  have hsource := S.input_ne_bottom hr
  have hedge := S.edge_eq hi hr
  rw [transfer_eq_before hsource] at hedge
  rw [before_zero, S.input_eq (hr.step ⟨e, he, rfl, rfl⟩)] at hl
  rw [← hedge]
  refine sharper_of_joinAll hl hlt (Progress.mem_arrivals hi) ?_
  change p.edgeAt (D.analysis table) i ≠ .bottom
  rw [hedge]
  exact propagate_ne_bottom (before_ne_bottom hsource)

/-- The program starts without any line. -/
theorem ways_le_of_entry (hl : l ∈ (D.before table p G.entry 0).lines) : D.ways ≤ l.must := by
  by_contra hlt
  rw [before_zero, S.input_eq .refl] at hl
  obtain ⟨m, hm, -⟩ :=
    sharper_of_joinAll hl (Nat.lt_of_not_le hlt) Progress.mem_arrivals_entry fun h => (by cases h)
  cases hm

/-- At the start of a block no line that cannot have been evicted depends on its own counter: a loop
is entered without it. -/
theorem header_free (hr : G.graph.Reaches G.entry b) (hl : l ∈ (D.before table p b 0).lines)
    (hlt : l.must < D.ways) {e : Affine} (he : l.reference = .affine e) :
    ∀ t ∈ e.terms, t.header ≠ b := by
  rintro t ht rfl
  obtain ⟨e', he', -, hin⟩ := S.scoped_before l hl
  cases he.symm.trans he'
  have hself : G.loops.Inside t.header t.header := S.loops ▸ hin t ht
  have hne : t.header ≠ G.entry := by
    intro heq
    rw [heq] at hl
    have := S.ways_le_of_entry hl
    omega
  obtain ⟨edge, hedge, htarget, hsource, hout⟩ := S.built.exists_entering hself hr hne
  rw [← htarget] at hl
  obtain ⟨m, hm, hsharp⟩ := S.sharper_of_edge hedge hsource hl hlt
  obtain ⟨x, hx, -, hscope⟩ := scoped_propagate S.built S.loops hedge hsource S.scoped_before m hm
  cases (hsharp.reference.symm.trans hx).symm.trans he
  exact hout (S.loops ▸ (hscope t ht).1)

end Solution

end MissBound.SetDomain
