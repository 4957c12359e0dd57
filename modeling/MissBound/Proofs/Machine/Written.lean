import MissBound.Proofs.Machine.Resolution
import MissBound.Proofs.Symbolic.Ascent

/-!
The written bytes of a memory. Their intervals are listed by first byte, each first byte once, and
start at bytes that the program names; merging two lists keeps the intervals of both or makes them
longer.
-/

namespace MissBound

namespace Memory

variable {n lo hi : Nat} {ws ws' us : List (Nat × Nat)} {w w' : Nat × Nat}

/-- Intervals by ascending first byte, which lies below `n`, up to an address. -/
structure Intervals (n : Nat) (ws : List (Nat × Nat)) : Prop where
  sorted : ws.Pairwise fun v w => v.1 < w.1
  first_lt : ∀ w ∈ ws, w.1 < n
  last_le : ∀ w ∈ ws, w.2 ≤ lastAddress

theorem intervals_nil : Intervals n [] := ⟨.nil, by simp, by simp⟩

/-- Every interval of `ws` lies in one of `ws'` with the same first byte. -/
def Covered (ws ws' : List (Nat × Nat)) : Prop :=
  ∀ w ∈ ws, ∃ w' ∈ ws', w'.1 = w.1 ∧ w.2 ≤ w'.2

theorem Covered.refl : Covered ws ws := fun w hw => ⟨w, hw, rfl, Nat.le_refl _⟩

theorem Covered.trans (h₁ : Covered us ws) (h₂ : Covered ws ws') : Covered us ws' := by
  intro u hu
  obtain ⟨w, hw, huw, hle⟩ := h₁ u hu
  obtain ⟨w', hw', hww', hle'⟩ := h₂ w hw
  exact ⟨w', hw', hww'.trans huw, hle.trans hle'⟩

theorem mem_insertWritten (h : w ∈ insertWritten lo hi ws) :
    w ∈ ws ∨ w.1 = lo ∧ (w.2 = hi ∨ ∃ w' ∈ ws, w.2 = max w'.2 hi) := by
  induction ws with
  | nil =>
    simp only [insertWritten, List.mem_singleton] at h
    simp [h]
  | cons v ws ih =>
    simp only [insertWritten] at h
    split at h
    · rcases List.mem_cons.mp h with rfl | h
      · simp
      · exact .inl h
    · split at h
      · rcases List.mem_cons.mp h with rfl | h
        · exact .inr ⟨rfl, .inr ⟨v, List.mem_cons_self, rfl⟩⟩
        · exact .inl (List.mem_cons_of_mem _ h)
      · rcases List.mem_cons.mp h with rfl | h
        · exact .inl List.mem_cons_self
        · rcases ih h with h | ⟨hlo, h | ⟨w', hw', h⟩⟩
          · exact .inl (List.mem_cons_of_mem _ h)
          · exact .inr ⟨hlo, .inl h⟩
          · exact .inr ⟨hlo, .inr ⟨w', List.mem_cons_of_mem _ hw', h⟩⟩

theorem sorted_insertWritten (h : ws.Pairwise fun v w => v.1 < w.1) :
    (insertWritten lo hi ws).Pairwise fun v w => v.1 < w.1 := by
  induction ws with
  | nil => simp [insertWritten]
  | cons v ws ih =>
    obtain ⟨hv, hs⟩ := List.pairwise_cons.mp h
    simp only [insertWritten]
    split
    · rename_i hlt
      apply List.pairwise_cons.mpr
      refine ⟨fun w hw => ?_, h⟩
      rcases List.mem_cons.mp hw with rfl | hw
      · exact hlt
      · exact hlt.trans (hv w hw)
    · split
      · rename_i heq
        subst heq
        exact List.pairwise_cons.mpr ⟨hv, hs⟩
      · apply List.pairwise_cons.mpr
        refine ⟨fun w hw => ?_, ih hs⟩
        rcases mem_insertWritten hw with hw | ⟨hlo, -⟩
        · exact hv w hw
        · omega

theorem Intervals.insert (h : Intervals n ws) (hlo : lo < n) (hhi : hi ≤ lastAddress) :
    Intervals n (insertWritten lo hi ws) where
  sorted := sorted_insertWritten h.sorted
  first_lt w hw := by
    rcases mem_insertWritten hw with hw | ⟨rfl, -⟩
    · exact h.first_lt w hw
    · exact hlo
  last_le w hw := by
    rcases mem_insertWritten hw with hw | ⟨-, heq | ⟨w', hw', heq⟩⟩
    · exact h.last_le w hw
    · exact heq ▸ hhi
    · exact heq ▸ Nat.max_le.mpr ⟨h.last_le w' hw', hhi⟩

/-- An added interval is there afterwards, as are those that were there. -/
theorem covered_insertWritten : Covered ((lo, hi) :: ws) (insertWritten lo hi ws) := by
  induction ws with
  | nil => exact .refl
  | cons v ws ih =>
    simp only [insertWritten]
    split
    · exact .refl
    · split
      · rename_i heq
        subst heq
        intro w hw
        rcases List.mem_cons.mp hw with rfl | hw
        · exact ⟨_, List.mem_cons_self, rfl, Nat.le_max_right ..⟩
        · rcases List.mem_cons.mp hw with rfl | hw
          · exact ⟨_, List.mem_cons_self, rfl, Nat.le_max_left ..⟩
          · exact ⟨w, List.mem_cons_of_mem _ hw, rfl, Nat.le_refl _⟩
      · intro w hw
        have hcases : w = v ∨ w ∈ (lo, hi) :: ws := by
          simp only [List.mem_cons] at hw ⊢
          tauto
        rcases hcases with rfl | hw
        · exact ⟨w, List.mem_cons_self, rfl, Nat.le_refl _⟩
        · obtain ⟨w', hw', h⟩ := ih w hw
          exact ⟨w', List.mem_cons_of_mem _ hw', h⟩

theorem covered_foldl (us : List (Nat × Nat)) : ∀ ws : List (Nat × Nat),
    Covered (us ++ ws) (us.foldl (fun acc u => insertWritten u.1 u.2 acc) ws) := by
  induction us with
  | nil => exact fun ws => .refl
  | cons u us ih =>
    intro ws w hw
    have hstep : Covered ((u :: us) ++ ws) (us ++ insertWritten u.1 u.2 ws) := by
      intro w hw
      have hcases : w ∈ us ∨ w ∈ u :: ws := by
        simp only [List.cons_append, List.mem_cons, List.mem_append] at hw ⊢
        tauto
      rcases hcases with hw | hw
      · exact ⟨w, List.mem_append_left _ hw, rfl, Nat.le_refl _⟩
      · obtain ⟨w', hw', h⟩ := covered_insertWritten w hw
        exact ⟨w', List.mem_append_right _ hw', h⟩
    exact hstep.trans (ih _) w hw

/-- How many bytes intervals have, counted from address zero. -/
def extent (ws : List (Nat × Nat)) : Nat := (ws.map fun w => w.2 + 1).sum

theorem extent_cons : extent (w :: ws) = w.2 + 1 + extent ws := by
  simp [extent]

theorem Intervals.extent_le (h : Intervals n ws) : extent ws ≤ n * 2 ^ 32 := by
  have hfirst : (ws.map (·.1)).Nodup := by
    apply List.pairwise_map.mpr
    exact h.sorted.imp Nat.ne_of_lt
  have hlength : ws.length ≤ n := by
    have hsub : ws.map (·.1) ⊆ List.range n := by
      intro k hk
      obtain ⟨w, hw, rfl⟩ := List.mem_map.mp hk
      exact List.mem_range.mpr (h.first_lt w hw)
    simpa using (List.subperm_of_subset hfirst hsub).length_le
  have hsum : extent ws ≤ (ws.map fun w => w.2 + 1).length • 2 ^ 32 := by
    apply List.sum_le_card_nsmul
    intro k hk
    obtain ⟨w, hw, rfl⟩ := List.mem_map.mp hk
    exact Nat.succ_le_succ (h.last_le w hw)
  rw [List.length_map, nsmul_eq_mul] at hsum
  exact hsum.trans (Nat.mul_le_mul_right _ hlength)

theorem Covered.tail {u : Nat × Nat} (h : Covered ws (u :: us)) (hlt : ∀ w ∈ ws, u.1 < w.1) :
    Covered ws us := by
  intro w hw
  obtain ⟨w', hw', heq, hle⟩ := h w hw
  rcases List.mem_cons.mp hw' with rfl | hw'
  · exact absurd heq (Nat.ne_of_lt (hlt w hw))
  · exact ⟨w', hw', heq, hle⟩

/-- Intervals that are kept or made longer are the same or have more bytes. -/
theorem Covered.eq_or_extent_lt (h : Covered ws us) (hw : ws.Pairwise fun v w => v.1 < w.1)
    (hu : us.Pairwise fun v w => v.1 < w.1) : us = ws ∨ extent ws < extent us := by
  induction us generalizing ws with
  | nil =>
    cases ws with
    | nil => exact .inl rfl
    | cons w ws =>
      obtain ⟨w', hw', -⟩ := h w List.mem_cons_self
      cases hw'
  | cons u us ih =>
    obtain ⟨hlt, hus⟩ := List.pairwise_cons.mp hu
    cases ws with
    | nil => exact .inr (by rw [extent_cons]; exact Nat.add_pos_left (Nat.succ_pos _) _)
    | cons w ws =>
      obtain ⟨hltw, hws⟩ := List.pairwise_cons.mp hw
      obtain ⟨w', hw', heq, hle⟩ := h w List.mem_cons_self
      rcases List.mem_cons.mp hw' with rfl | hmem
      · have htail := ih (Covered.tail (fun v hv => h v (List.mem_cons_of_mem _ hv))
          fun v hv => heq ▸ hltw v hv) hws hus
        rw [extent_cons, extent_cons]
        rcases htail with rfl | hlt'
        · rcases Nat.eq_or_lt_of_le hle with heq' | hlt'
          · exact .inl (by rw [Prod.ext heq heq'.symm])
          · exact .inr (by omega)
        · exact .inr (by omega)
      · have hall : ∀ v ∈ w :: ws, u.1 < v.1 := by
          intro v hv
          rcases List.mem_cons.mp hv with rfl | hv
          · exact heq ▸ hlt w' hmem
          · exact (heq ▸ hlt w' hmem).trans (hltw v hv)
        have hrest := ih (h.tail hall) hw hus
        rw [extent_cons (w := u)]
        rcases hrest with rfl | hlt'
        · exact .inr (by omega)
        · exact .inr (by omega)

section Operations

variable {m m' : Memory} {v : Symbolic} {L : LoopForest}

theorem Intervals.store {address : Nat} (h : Intervals n m.written) (ha : address < n) :
    Intervals n (m.store address v).written :=
  h.insert ha (Nat.min_le_right ..)

theorem Intervals.storeRange {base top step : Nat} (h : Intervals n m.written) (hb : base < n) :
    Intervals n (m.storeRange L base top step v).written := by
  simp only [Memory.storeRange]
  split
  · exact intervals_nil
  · exact h.insert hb (Nat.min_le_right ..)

theorem Intervals.merge (h : Intervals n m.written) (h' : Intervals n m'.written) :
    Intervals n (m.mergeWritten m') := by
  simp only [mergeWritten]
  split
  · exact intervals_nil
  · apply List.foldlRecOn (motive := Intervals n) _ _ h
    exact fun _ hacc w hw => hacc.insert (h'.first_lt w hw) (h'.last_le w hw)

theorem Intervals.join (h : Intervals n m.written) (h' : Intervals n m'.written) :
    Intervals n (m.join L m').written := by
  simp only [Memory.join]
  split
  · exact h
  · exact h.merge h'

/-- Unless all is lost, a merged list keeps the intervals of both sides. -/
theorem covered_mergeWritten (h : m.havoc = false) (h' : m'.havoc = false) :
    Covered m.written (m.mergeWritten m') ∧ Covered m'.written (m.mergeWritten m') := by
  have hmerge : m.mergeWritten m' =
      m'.written.foldl (fun acc w => insertWritten w.1 w.2 acc) m.written := by
    simp [mergeWritten, h, h']
  rw [hmerge]
  have hcovered := covered_foldl m'.written m.written
  exact ⟨fun w hw => hcovered w (List.mem_append_right _ hw),
    fun w hw => hcovered w (List.mem_append_left _ hw)⟩

end Operations

end Memory

/-- The written bytes of a state start below `n`. -/
def State.Ranged (n : Nat) (s : State) : Prop := Memory.Intervals n s.memory.written

theorem Affine.span?_base_lt {e : Affine} {L : LoopForest} {span : Span}
    (h : e.span? L = some span) : span.base < 2 ^ 32 := by
  obtain ⟨r, -, rfl⟩ := Option.map_eq_some_iff.mp h
  simp only
  omega

namespace Interpreter

variable {I : Interpreter} {i : Instruction} {n : Nat}

theorem ranged_store {m : Memory} {address value : Symbolic} (hn : 2 ^ 32 ≤ n)
    (hi : ∀ r ∈ i.range, r.lo < n) (h : Memory.Intervals n m.written) :
    Memory.Intervals n (I.store i.range m address value).written := by
  cases address with
  | bottom => exact h
  | top =>
    simp only [store]
    split
    · rename_i r hr
      exact h.storeRange (hi r hr)
    · exact Memory.intervals_nil
  | affine e =>
    simp only [store]
    split
    · exact Memory.intervals_nil
    · rename_i span hspan
      have hbase : span.base < n := (Affine.span?_base_lt hspan).trans_le hn
      split
      · exact h.store hbase
      · exact h.storeRange hbase

theorem keeps_ranged (hn : 2 ^ 32 ≤ n) (hi : ∀ r ∈ i.range, r.lo < n) :
    I.Keeps i (State.Ranged n) fun _ => True where
  step s op h := by
    refine ⟨?_, fun _ _ => trivial⟩
    cases op with
    | store => exact ranged_store hn hi h
    | _ => exact h
  join _ _ h h' := Memory.Intervals.join h h'
  clear _ h := h

end Interpreter

namespace Resolution

variable {G : FlowGraph} {I : Interpreter} {boot : Boot} {base : UInt32} {n : Nat}

/-- The bytes at which a program can start to write lie below `n`. -/
structure Limited (G : FlowGraph) (boot : Boot) (n : Nat) : Prop where
  addresses : 2 ^ 32 ≤ n
  words : ∀ w ∈ boot.words, w.1 < n
  ranges : ∀ b ∈ G.graph.nodes, ∀ i ∈ b.instructions, ∀ r ∈ i.range, r.lo < n

theorem exists_limited (G : FlowGraph) (boot : Boot) : ∃ n, Limited G boot n := by
  have hsum : ∀ (xs : List Nat), ∀ x ∈ xs, x < xs.sum + 2 ^ 32 := by
    intro xs x hx
    have hle := List.single_le_sum (fun _ _ => Nat.zero_le _) x hx
    omega
  refine ⟨(boot.words.map (·.1) ++ G.graph.nodes.flatMap fun b =>
    b.instructions.flatMap fun i => i.range.toList.map (·.lo)).sum + 2 ^ 32, Nat.le_add_left ..,
    fun w hw => hsum _ _ ?_, fun b hb i hi r hr => hsum _ _ ?_⟩
  · exact List.mem_append_left _ (List.mem_map_of_mem hw)
  · simp only [List.mem_append, List.mem_flatMap, List.mem_map, Option.mem_toList]
    exact .inr ⟨b, hb, i, hi, r, hr, rfl⟩

theorem ranged_ofBoot (hn : Limited G boot n) : (State.ofBoot boot base).Ranged n := by
  refine List.foldlRecOn (motive := State.Ranged n) _ _ ?_ fun s h w hw => h.store (hn.words w hw)
  exact List.foldlRecOn (motive := State.Ranged n) _ _ Memory.intervals_nil fun _ h _ _ => h

theorem ranged_map {hs : List Nat} {L : LoopForest} {s : State} (h : s.Ranged n) :
    (hs.foldl (fun s h => s.map (Symbolic.afterLoop L h)) s).Ranged n :=
  List.foldlRecOn (motive := State.Ranged n) _ _ h fun _ h _ _ => h

theorem keeps_ranged (hn : Limited G boot n) :
    Progress.Keeps (analysis G I (.ofBoot boot base)) G (fun _ => Every (State.Ranged n))
      fun _ => Every (State.Ranged n) where
  bottom_input _ := every_none
  bottom_edge _ _ := every_none
  input b _ prev onEdges hprev hedges := by
    refine every_input (fun _ _ hs ht => hs.join ht)
      (fun _ _ _ hs ht => ⟨hs.merge ht, hs.merge ht⟩) hprev ?_
    exact every_arrivals (fun _ => ranged_ofBoot hn) fun e i hget _ => hedges e i hget
  edge e he _ s hs := by
    intro t ht
    obtain ⟨u, hu, rfl⟩ := Option.map_eq_some_iff.mp ht
    apply ranged_map
    refine every_transfer (fun b hb s hs => ?_) hs u hu
    have hmem : b ∈ G.graph.nodes := List.mem_of_getElem? hb
    exact (Interpreter.Keeps.executeBlock (fun i hi =>
      Interpreter.keeps_ranged hn.addresses (hn.ranges b hmem i hi)) hs).1

end Resolution

end MissBound
