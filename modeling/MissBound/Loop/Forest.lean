import MissBound.Loop.Natural

/-!
The nesting of natural loops, their iteration bounds, and the order of headers in which symbolic
addresses list their terms.
-/

namespace MissBound

/-- How often a header runs each time its loop is entered, as far as it is known. -/
structure LoopBound where
  min : Option Nat
  max : Option Nat
  deriving DecidableEq

namespace LoopBound

def unknown : LoopBound := ⟨none, none⟩

/-- The count if both ends are known and agree. -/
def exactCount? (b : LoopBound) : Option Nat :=
  match b.min, b.max with
  | some m, some n => if m = n then some n else none
  | _, _ => none

end LoopBound

structure Loop extends NaturalLoop where
  /-- The number of loops around this one. -/
  depth : Nat
  /-- The header of the loop directly around this one. -/
  parent : Option Nat
  /-- The headers of the loops directly inside this one. -/
  children : List Nat
  bound : LoopBound

structure LoopForest where
  /-- The loops by ascending header. -/
  loops : List Loop
  /-- The dominator depth of each node. -/
  dominatorDepths : List Nat

namespace LoopForest

/-- The header of the smallest other loop around `header`, the first one among equals. -/
def around? (loops : List NaturalLoop) (header : Nat) : Option Nat :=
  let best := loops.foldl
    (fun best l =>
      if l.header == header || !l.body.contains header then best
      else match best with
        | some b => if b.size ≤ l.size then best else some l
        | none => some l)
    (none : Option NaturalLoop)
  best.map (·.header)

/-- The headers met by climbing from `header`, the nearest first, at most `steps` of them. -/
def climb (parents : List (Nat × Option Nat)) : Nat → Option Nat → List Nat
  | 0, _ => []
  | _, none => []
  | steps + 1, some h => h :: climb parents steps (parents.lookup h).join

/-- The forest of `loops`, all bounds unknown. -/
def nest (loops : List NaturalLoop) (dominatorDepths : List Nat) : LoopForest :=
  let parents := loops.map fun l => (l.header, around? loops l.header)
  let link (l : NaturalLoop) : Loop :=
    let parent := (parents.lookup l.header).join
    { l with
      depth := (climb parents loops.length parent).length
      parent
      children := (parents.filter fun p => p.2 == some l.header).map (·.1)
      bound := .unknown }
  ⟨loops.map link, dominatorDepths⟩

variable {α β : Type}

/-- The loops of a graph. -/
def of (g : Digraph α β) (t : DominatorTree) : LoopForest :=
  nest (NaturalLoop.detect g t) ((List.range g.nodeCount).map t.depth)

variable (f : LoopForest)

def loopAt? (header : Nat) : Option Loop :=
  f.loops.find? fun l => l.header == header

def isHeader (block : Nat) : Bool :=
  (f.loopAt? block).isSome

/-- The deepest loop that contains `block`; a header belongs to its own loop. -/
def innermost? (block : Nat) : Option Loop :=
  f.loops.foldl
    (fun best l =>
      if !l.body.contains block then best
      else match best with
        | some b => if l.depth ≤ b.depth then best else some l
        | none => some l)
    none

def innermostHeader? (block : Nat) : Option Nat :=
  (f.innermost? block).map (·.header)

/-- The header of the closest loop around `block`, not counting the loop that `block` itself
heads. -/
def enclosingHeader? (block : Nat) : Option Nat :=
  (f.innermost? block).bind fun l => if l.header = block then l.parent else some l.header

/-- The number of loops that contain `block`. -/
def depthAt (block : Nat) : Nat :=
  match f.innermost? block with
  | some l => l.depth + 1
  | none => 0

/-- The headers of the loops that contain `block`, innermost first. -/
def headersOf (block : Nat) : List Nat :=
  climb (f.loops.map fun l => (l.header, l.parent)) f.loops.length (f.innermostHeader? block)

def boundOf (header : Nat) : LoopBound :=
  match f.loopAt? header with
  | some l => l.bound
  | none => .unknown

/-- The largest number of times `header` runs per entry into its loop. -/
def maxIteration? (header : Nat) : Option Nat :=
  (f.boundOf header).max

def minIteration? (header : Nat) : Option Nat :=
  (f.boundOf header).min

/-- Bounds the loop of `header`. -/
def setBound (header : Nat) (bound : LoopBound) : Except Failure LoopForest :=
  if f.isHeader header then
    .ok { f with loops := f.loops.map fun l => if l.header = header then { l with bound } else l }
  else
    .error (.boundWithoutLoop header)

def dominatorDepth (block : Nat) : Nat :=
  f.dominatorDepths[block]?.getD 0

/-- Orders headers so that a dominated one comes before the one that dominates it, and by position
at equal dominator depth. -/
def compareHeaders (a b : Nat) : Ordering :=
  (compare (f.dominatorDepth b) (f.dominatorDepth a)).then (compare a b)

end LoopForest

end MissBound
