import MissBound.Lru.Trial
import MissBound.Platform.Geometry

/-!
What references have to do with cache sets and with each other, at the granularity of memory blocks.
Intervals are compared first; where they leave a question open the iteration space is enumerated,
up to a cap. Beyond it the answer is the cautious one.
-/

namespace MissBound

/-- The loops, the cache and the cap against which references are judged. -/
structure References where
  loops : LoopForest
  cache : Geometry
  /-- The largest iteration space that is enumerated. -/
  cap : Nat

namespace References

variable (R : References)

/-- The lowest and the highest address of a reference, unless a bound is unknown or the addresses
run past the end of the address space. -/
def range? (v : Symbolic) : Option (Nat × Nat) :=
  (v.span? R.loops).bind fun s => if s.base ≤ s.top then some (s.base, s.top) else none

def blockRange? (v : Symbolic) : Option (Nat × Nat) :=
  (R.range? v).map fun r => (R.cache.block r.1, R.cache.block r.2)

/-- Every loop of `inner` is a loop of `outer`. -/
def compatible (inner outer : Symbolic) : Bool :=
  inner.terms.all fun t => outer.terms.any fun u => u.header == t.header

/-- No counter but that of `header` moves the expression within a block. -/
def alignedApartFrom (e : Affine) (header : Nat) : Bool :=
  (e.terms.filter fun t => t.header != header).all fun t =>
    t.coef.natAbs % R.cache.blockSize == 0

/-- The iterations of `header` from `start` on keep the reference in one memory block. -/
def sameBlocks (v : Symbolic) (header start : Nat) : Bool :=
  match v with
  | .top => false
  | .bottom => true
  | .affine e =>
    match e.coefficient? header with
    | none => true
    | some c =>
      match R.loops.maxIteration? header with
      | none => false
      | some bound =>
        if bound ≤ start + 1 then true
        else if !R.alignedApartFrom e header then false
        else
          let place (i : Nat) : Nat := (e.constant + word c * UInt32.ofNat i).toNat
          let first := place start
          let last := place (bound - 1)
          let (lo, hi) := if c < 0 then (last, first) else (first, last)
          lo ≤ hi && R.cache.block lo == R.cache.block hi

/-- The iterations of `header` from `start` on keep the reference in one cache set. -/
def sameSets (v : Symbolic) (header start : Nat) : Bool :=
  ((v.coefficient? header).any fun c =>
    c.natAbs % (R.cache.blockSize * R.cache.setCount) == 0) ||
  R.sameBlocks v header start

/-- The set lies on the circle of sets between those of blocks `lo` and `hi`. -/
def inSetInterval (lo hi set : Nat) : Bool :=
  let first := lo % R.cache.setCount
  let last := hi % R.cache.setCount
  if first ≤ last then first ≤ set && set ≤ last else first ≤ set || set ≤ last

/-- The reference may access a block of `set`. -/
def concerns (v : Symbolic) (set : Nat) : Bool :=
  match v with
  | .top => true
  | .bottom => false
  | .affine e =>
    match R.blockRange? v with
    | none => true
    | some (lo, hi) =>
      if hi - lo + 1 < R.cache.setCount && !R.inSetInterval lo hi set then false
      else if e.terms.all fun t => R.sameSets v t.header 0 then lo % R.cache.setCount == set
      else match v.enumerable? R.loops R.cap with
        | none => true
        | some o =>
          Odometer.anyNext (fun o => (o.eval? e).any fun a => R.cache.set a == set) o.size o

/-- The expressions lie in the same block at the current counters. -/
def meetAt (x y : Affine) (o : Odometer) : Bool :=
  match o.eval? x, o.eval? y with
  | some p, some q => R.cache.block p == R.cache.block q
  | _, _ => false

/-- The references may access the same block at equal counters. The generations tell apart
instances of one reference. The joint iteration space is held against the cap as far as it is
counted. -/
def mayMeet (a : Symbolic) (genA : Nat) (b : Symbolic) (genB : Nat) : Bool :=
  if a = b ∧ genA = genB then true
  else if a.isBottom || b.isBottom then false
  else match R.blockRange? a, R.blockRange? b, a, b with
    | some (alo, ahi), some (blo, bhi), .affine x, .affine y =>
      if ahi < blo || bhi < alo then false
      else match (Affine.jointSpace? R.loops x y).filter fun o =>
          min Symbolic.countLimit o.size ≤ R.cap with
        | none => true
        | some o => Odometer.anyNext (R.meetAt x y) o.size o
    | _, _, _, _ => true

end References

end MissBound
