import MissBound.Lru.SetAnalysis
import MissBound.Report.Shares

/-!
The classification of all accesses of a program: addresses are resolved, each cache set is analysed
by itself, and the counts of all sets are added up for each access.
-/

namespace MissBound

structure ClassifiedAccess extends Access where
  tally : Tally
  /-- The misses per run of the loop `relativeTo`, or in the whole program. -/
  misses : MissCount
  relativeTo : Option Nat

namespace ClassifiedAccess

def category (a : ClassifiedAccess) : Category := a.tally.category

/-- The cycles that the misses of an access cost. The latency is that of the bank with its lowest
address, or the worst one if that address is not known. -/
def penalty? (L : LoopForest) (memory : MemoryMap) (a : ClassifiedAccess) : Option Nat :=
  a.misses.bound?.map fun n =>
    let bank := (a.reference.span? L).bind fun s => memory.bankAt? s.base
    let latency :=
      match a.kind, bank with
      | .load, some b => b.readLatency
      | .store, some b => b.writeLatency
      | .load, none => memory.worstReadLatency
      | .store, none => memory.worstWriteLatency
    min missLimit (n * latency)

end ClassifiedAccess

namespace Classification

variable (G : FlowGraph)

/-- The misses of an access to an unknown address: one for each iteration of the innermost loop. -/
def unknownMisses (block : Nat) : MissCount :=
  match G.loops.innermostHeader? block with
  | none => .bounded 1
  | some h =>
    match G.loops.maxIteration? h with
    | some n => .bounded n
    | none => .unbounded

/-- The counts of one access from its counts in each set. -/
def total (counts : List (Tally × MissCount)) : Tally × MissCount :=
  counts.foldl (fun acc c => (acc.1 + c.1, acc.2 + c.2)) (.zero, .zero)

/-- The counts of one access, `perSet` being those of the sets that classify it. -/
def countsOf (cap : Nat) (a : Access) (perSet : List (Tally × MissCount)) : Tally × MissCount :=
  if a.reference.isTop then (.unclassified, unknownMisses G a.block)
  else if (a.reference.enumerable? G.loops cap).isNone then (.unclassified, .unbounded)
  else total perSet

/-- Classifies the accesses of one block from the counts of its accesses in each set. -/
def classifyBlock (cap : Nat) (accesses : List Access)
    (perSet : List (List (Option (Tally × MissCount)))) : List ClassifiedAccess :=
  accesses.zipIdx.map fun (a, i) =>
    let (tally, misses) := countsOf G cap a (perSet.filterMap fun counts => counts[i]?.join)
    { a with tally, misses, relativeTo := a.reference.chargedTo? G.loops a.block }

/-- Classifies the accesses of a table from the counts in each set. -/
def classifyTable (cap : Nat) (table : AccessTable)
    (perSet : List (List (List (Option (Tally × MissCount))))) : List ClassifiedAccess :=
  (List.range G.blockCount).flatMap fun b =>
    classifyBlock G cap (table.block b) (perSet.map fun counts => counts[b]?.getD [])

end Classification

/-- The classification of every access of a program, block by block. -/
def classify (G : FlowGraph) (caches : Caches) (memory : MemoryMap) (boot : Boot)
    (limits : Limits) : Except Failure (List ClassifiedAccess) := do
  let cache ← caches.dataCache
  let p ← resolve G boot limits
  let table ← AccessTable.build G boot limits memory p.inputs
  let refs : References := ⟨G.loops, cache, limits.cap⟩
  let perSet ← (List.range cache.setCount).mapM fun set =>
    SetDomain.run ⟨refs, set⟩ G table limits.maxVisits
  return Classification.classifyTable G limits.cap table perSet

end MissBound
