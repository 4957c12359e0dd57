import MissBound.Lru.Age
import MissBound.Lru.Reference
import MissBound.Machine.Access

/-!
The abstract state of one cache set: lines that may be in the set, in ascending order of reference
and generation, each with bounds on its age. A line whose reference depends on loop counters stands
for the element at the current counters.
-/

namespace MissBound

structure Line where
  /-- The address, rounded to its block if it is constant. -/
  reference : Symbolic
  /-- The instance of the reference. -/
  generation : Nat
  /-- An upper bound on the age. -/
  must : Nat
  /-- A lower bound on the age. -/
  may : Nat
  /-- Upper bounds on the age within each loop, the innermost last. -/
  persistence : List Nat
  deriving DecidableEq

namespace Line

def sameKey (a b : Line) : Bool :=
  a.reference == b.reference && a.generation == b.generation

/-- The line is the current instance of `v`. -/
def isFor (v : Symbolic) (l : Line) : Bool :=
  l.reference == v && l.generation == 0

/-- The bounds that hold if those of one of two lines hold. -/
def join (a b : Line) : Line :=
  { a with
    must := Age.Must.join a.must b.must
    may := Age.May.join a.may b.may
    persistence := Age.Levels.join a.persistence b.persistence }

end Line

inductive SetState where
  /-- Not reached. -/
  | bottom
  | known (lines : List Line)
  deriving DecidableEq

namespace SetState

def empty : SetState := known []

def lines : SetState → List Line
  | bottom => []
  | known ls => ls

/-- Opens a level of persistence, for an edge that enters a loop. -/
def enter (s : SetState) : SetState :=
  known (s.lines.map fun l => { l with persistence := Age.Levels.enter l.persistence })

end SetState

/-- The set that is analysed, with what is needed to judge references. -/
structure SetDomain where
  refs : References
  set : Nat

namespace SetDomain

variable (D : SetDomain)

def loops : LoopForest := D.refs.loops

def cache : Geometry := D.refs.cache

def ways : Nat := D.cache.ways

def compareLines (a b : Line) : Ordering :=
  (Symbolic.compare D.loops a.reference b.reference).then (compare a.generation b.generation)

/-- Constant references are tracked by block. -/
def normalize (v : Symbolic) : Symbolic :=
  match v.constant? with
  | some c => .const (UInt32.ofNat (D.cache.round c.toNat))
  | none => v

/-- Puts a line before the first one that is greater. -/
def insert (l : Line) : List Line → List Line
  | [] => [l]
  | m :: rest =>
    if D.compareLines m l == .gt then l :: m :: rest else m :: insert l rest

/-- Puts a line at its place, or joins it with the line of the same key. -/
def insertJoining (l : Line) : List Line → List Line
  | [] => [l]
  | m :: rest =>
    match D.compareLines m l with
    | .gt => l :: m :: rest
    | .eq => m.join l :: rest
    | .lt => m :: insertJoining l rest

/-- The access leaves the set alone. -/
def ignores (a : DataUse) : Bool :=
  !a.cached || a.reference.isBottom || !D.refs.concerns a.reference D.set

/-- The largest and the smallest age that the line used by an access may have, from its own line and
from every other line that may meet it. -/
def useAges (v : Symbolic) (ls : List Line) : Nat × Nat :=
  let own : Nat × Nat :=
    match ls.find? (·.isFor v) with
    | some l => (if Age.isAlive D.ways l.must then l.must else D.ways, l.may)
    | none => (D.ways, D.ways)
  (ls.filter fun l => !l.isFor v && D.refs.mayMeet l.reference l.generation v 0).foldl
    (fun (u : Nat × Nat) l =>
      (if Age.isAlive D.ways l.must && u.1 < D.ways then max u.1 l.must else u.1, min u.2 l.may))
    own

/-- A line after the use of another one. -/
def aged (used : Nat × Nat) (l : Line) : Line :=
  { l with
    must := Age.step D.ways used.1 l.must
    may := Age.step D.ways used.2 l.may
    persistence := Age.Levels.step D.ways used.1 l.persistence }

/-- A line after its own use. -/
def touched (l : Line) : Line :=
  { l with must := 0, may := 0, persistence := Age.Levels.touch D.ways l.persistence }

/-- A line at its first use. -/
def fresh (v : Symbolic) (block : Nat) : Line :=
  ⟨v, 0, 0, 0, Age.Levels.fresh (D.loops.depthAt block)⟩

/-- The lines after a use of `v`. -/
def use (v : Symbolic) (block : Nat) (ls : List Line) : List Line :=
  let used := D.useAges v ls
  let moved := ls.map fun l => if l.isFor v then D.touched l else D.aged used l
  if ls.any (·.isFor v) then moved else D.insert (D.fresh v block) moved

/-- The lines after a use of some unknown address. -/
def useUnknown (ls : List Line) : List Line :=
  ls.map fun l =>
    { l with
      must := D.ways
      may := 0
      persistence := Age.Levels.step D.ways D.ways l.persistence }

/-- The state after an access. -/
def update (s : SetState) (a : DataUse) : SetState :=
  if D.ignores a then s
  else if a.reference.isTop then .known (D.useUnknown s.lines)
  else .known (D.use (D.normalize a.reference) a.block s.lines)

/-- A line that is known on one of two paths only. -/
def oneSided (l : Line) : Line := { l with must := D.ways }

/-- The lines of two paths. -/
def joinLines (xs ys : List Line) : List Line :=
  let own := xs.map fun x =>
    match ys.find? (·.sameKey x) with
    | some y => x.join y
    | none => D.oneSided x
  let others := ys.filter fun y => !xs.any (·.sameKey y)
  others.foldl (fun acc y => D.insert (D.oneSided y) acc) own

def join : SetState → SetState → SetState
  | .bottom, t => t
  | s, .bottom => s
  | .known xs, .known ys => .known (D.joinLines xs ys)

/-- The number of iterations after which the loop of `header` is left, if it is exact. -/
def lastCount? (header : Nat) : Option Nat :=
  (D.loops.boundOf header).exactCount?.filter fun n => 0 < n

/-- The edge from `source` leaves the loop of `header` in the middle of an iteration. -/
def leavesEarly (header source : Nat) : Bool :=
  source == header && (D.loops.loopAt? header).any fun l => 1 < l.size

/-- The element of a line in the last of `count` iterations. Leaving early skips the rest of the
body, so the line must then have been used in that iteration, or the last two iterations must
share a block. -/
def lastElement? (header source count : Nat) (l : Line) : Option Symbolic :=
  if D.leavesEarly header source && !Age.isAlive D.ways l.must && 1 < count &&
      !D.refs.sameBlocks l.reference header (count - 2) then none
  else some (l.reference.substitute header (count - 1))

def dependsOn (header : Nat) (l : Line) : Bool :=
  l.reference.firstHeader? == some header

/-- A line that stands for an element of the loop of `header`, once the loop is left. -/
def renamed? (header source : Nat) (l : Line) : Option Line :=
  (D.lastCount? header).bind fun count =>
    (D.lastElement? header source count l).bind fun element =>
      let reference := D.normalize element
      if reference.isTop || !D.refs.concerns reference D.set then none
      else some { l with reference, persistence := Age.Levels.leave l.persistence }

/-- A line once the loop of `header` is left. -/
def leaveLine? (header source : Nat) (l : Line) : Option Line :=
  if dependsOn header l then D.renamed? header source l
  else some { l with persistence := Age.Levels.leave l.persistence }

/-- Closes the level of the loop of `header`, for an edge that leaves it from `source`. -/
def leave (s : SetState) (header source : Nat) : SetState :=
  match s with
  | .bottom => .bottom
  | .known ls =>
    .known ((ls.filterMap (D.leaveLine? header source)).foldl
      (fun acc l => D.insertJoining l acc) [])

/-- Drops lines whose generation has reached the associativity, for a back edge. -/
def back : SetState → SetState
  | .bottom => .bottom
  | .known ls => .known (ls.filter fun l => l.generation < D.ways)

end SetDomain

end MissBound
