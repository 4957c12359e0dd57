import MissBound.Symbolic.Extent

/-!
Iteration spaces. The counters of some loops run through all their values like the wheels of an
odometer, the first one fastest.
-/

namespace MissBound

/-- The counter of a loop, below its bound. -/
structure Wheel where
  header : Nat
  bound : Nat
  counter : Nat
  deriving DecidableEq

/-- The counters of some loops. -/
structure Odometer where
  wheels : List Wheel
  deriving DecidableEq

namespace Odometer

/-- All counters at zero, if all bounds are known. -/
def start? (L : LoopForest) (headers : List Nat) : Option Odometer :=
  (headers.mapM fun h => (L.maxIteration? h).map fun bound => Wheel.mk h bound 0).map Odometer.mk

/-- The size of the iteration space. -/
def size (o : Odometer) : Nat :=
  o.wheels.foldl (fun n w => n * w.bound) 1

def counter? (o : Odometer) (header : Nat) : Option Nat :=
  (o.wheels.find? fun w => w.header == header).map (·.counter)

/-- Turns the first wheel; a wheel that reaches its bound starts again and turns the next one. -/
def turn : List Wheel → List Wheel
  | [] => []
  | w :: rest =>
    if w.counter + 1 < w.bound then { w with counter := w.counter + 1 } :: rest
    else { w with counter := 0 } :: turn rest

def next (o : Odometer) : Odometer := ⟨turn o.wheels⟩

/-- The value of an expression at the current counters. -/
def eval? (o : Odometer) (e : Affine) : Option Nat :=
  (e.eval? o.counter?).map (·.toNat)

/-- Folds over the next `n` positions. -/
def foldNext {α : Type} (f : α → Odometer → α) : Nat → Odometer → α → α
  | 0, _, acc => acc
  | n + 1, o, acc => foldNext f n o.next (f acc o)

/-- One of the next `n` positions satisfies `p`. -/
def anyNext (p : Odometer → Bool) : Nat → Odometer → Bool
  | 0, _ => false
  | n + 1, o => p o || anyNext p n o.next

end Odometer

/-- An odometer on its way through an iteration space. -/
structure Traversal where
  odometer : Odometer
  /-- The first position has been reached. -/
  started : Bool
  /-- No position is left. -/
  done : Bool

namespace Traversal

variable {α : Type}

/-- Before the first position. A loop that never runs leaves no position at all. -/
def start (o : Odometer) : Traversal := ⟨o, false, o.wheels.any fun w => w.bound == 0⟩

/-- Moves to the next position, if one is left. When all wheels start again, none is. -/
def advance (t : Traversal) : Bool × Traversal :=
  if t.done then (false, t)
  else if !t.started then (true, { t with started := true })
  else
    let moved := t.odometer.wheels.any fun w => w.counter + 1 < w.bound
    (moved, { t with odometer := t.odometer.next, done := !moved })

/-- Moves to the next position and reads there. -/
def next (read : Odometer → Option α) (t : Traversal) : Option α × Traversal :=
  let (moved, t) := t.advance
  (if moved then read t.odometer else none, t)

/-- The next positions with what is read there, at most `limit` of them. -/
def collect (read : Odometer → Option α) : Nat → Traversal → List (Odometer × α)
  | 0, _ => []
  | limit + 1, t =>
    match t.next read with
    | (some a, t) => (t.odometer, a) :: collect read limit t
    | (none, _) => []

end Traversal

namespace Affine

def headers (e : Affine) : List Nat := e.terms.map (·.header)

/-- The iteration space of a reference, if all its bounds are known. -/
def space? (L : LoopForest) (e : Affine) : Option Odometer :=
  Odometer.start? L e.headers

/-- The iteration space of two references, a loop that they share counted once. -/
def jointSpace? (L : LoopForest) (a b : Affine) : Option Odometer :=
  Odometer.start? L (a.headers ++ (b.headers.filter fun h => !a.headers.contains h))

/-- The reported size of the iteration space, and the first `limit` trials: positions with the
address there. -/
def trials? (L : LoopForest) (e : Affine) (limit : Nat) : Option (Nat × List (Odometer × Nat)) :=
  (e.space? L).map fun o =>
    (min Symbolic.countLimit o.size, (Traversal.start o).collect (·.eval? e) limit)

/-- The values of two references that share their counters. -/
def evalBoth? (a b : Affine) (o : Odometer) : Option (Nat × Nat) :=
  (o.eval? a).bind fun x => (o.eval? b).map (x, ·)

/-- The reported size of the joint iteration space of two references, and their first `limit` trials
there. -/
def jointTrials? (L : LoopForest) (a b : Affine) (limit : Nat) : Option (Nat × List (Nat × Nat)) :=
  (jointSpace? L a b).map fun o =>
    (min Symbolic.countLimit o.size,
      ((Traversal.start o).collect (evalBoth? a b) limit).map (·.2))

end Affine

/-- The iteration space of a reference, if its reported size is at most `cap`. -/
def Symbolic.enumerable? (L : LoopForest) (cap : Nat) (v : Symbolic) : Option Odometer :=
  (v.affine?.bind (Affine.space? L)).filter fun o => min countLimit o.size ≤ cap

end MissBound
