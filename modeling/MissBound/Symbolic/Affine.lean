import MissBound.Loop.Forest

/-!
Affine expressions over loop counters, `c₁·I(h₁) + c₂·I(h₂) + … + k`, where `I(h)` counts the
iterations of the loop of `h`. Coefficients are signed and checked; the constant is an address and
wraps at 32 bits. Terms stand in the order of `LoopForest.compareHeaders`, without zero
coefficients, so that equal expressions are identical.
-/

namespace MissBound

/-- `coef · I(header)`. -/
structure Term where
  coef : Int
  header : Nat
  deriving DecidableEq

structure Affine where
  terms : List Term
  constant : UInt32
  deriving DecidableEq

namespace Term

/-- Negates a coefficient, unless the result leaves 32 bits. -/
def negCoef? (c : Int) : Option Int :=
  if c = -0x80000000 then none else some (-c)

/-- Adds two coefficients. Two of one sign are refused as soon as one of them reaches `2^30`. -/
def addCoef? (a b : Int) : Option Int :=
  if decide (a < 0) == decide (b < 0) && 30 ≤ max a.natAbs.log2 b.natAbs.log2 then none
  else some (a + b)

/-- Multiplies a coefficient by `2^shift`, unless the result leaves 32 bits. -/
def shiftCoef? (c : Int) (shift : Nat) : Option Int :=
  let limit : Int := (1 <<< (31 - shift) : Nat)
  if -limit ≤ c ∧ c < limit then some (c <<< shift) else none

/-- Multiplies two coefficients whose highest bits together stay below bit 31; a product that still
leaves 32 bits wraps. -/
def mulCoef? (a b : Int) : Option Int :=
  if 31 ≤ a.natAbs.log2 + b.natAbs.log2 then none else some ((a * b).bmod 0x100000000)

/-- Puts `t` at its place among `terms`. A term of the same header is replaced by what `merge` makes
of the two coefficients, or removed where that is zero. -/
def insert (order : Nat → Nat → Ordering) (merge : Int → Int → Option Int) (t : Term) :
    List Term → Option (List Term)
  | [] => some [t]
  | u :: rest =>
    match order t.header u.header with
    | .lt => some (t :: u :: rest)
    | .eq => (merge u.coef t.coef).map fun c => if c = 0 then rest else ⟨c, u.header⟩ :: rest
    | .gt => (insert order merge t rest).map (u :: ·)

/-- Merges two ordered lists of terms. -/
def merge (order : Nat → Nat → Ordering) (both : Int → Int → Option Int) (xs ys : List Term) :
    Option (List Term) :=
  ys.foldlM (fun acc t => insert order both t acc) xs

end Term

namespace Affine

def isConstant (e : Affine) : Bool := e.terms.isEmpty

def coefficient? (e : Affine) (header : Nat) : Option Int :=
  (e.terms.find? fun t => t.header == header).map (·.coef)

/-- The value at the given counters, modulo `2^32`. -/
def eval (e : Affine) (counter : Nat → Nat) : UInt32 :=
  e.terms.foldr (fun t v => word t.coef * UInt32.ofNat (counter t.header) + v) e.constant

/-- The value where not every counter may be given. -/
def eval? (e : Affine) (counter : Nat → Option Nat) : Option UInt32 :=
  if e.terms.all fun t => (counter t.header).isSome then
    some (e.eval fun h => (counter h).getD 0)
  else none

/-- The largest common divisor of the coefficients, zero for a constant. -/
def step (e : Affine) : Nat :=
  e.terms.foldl (fun g t => Nat.gcd g t.coef.natAbs) 0

/-- Compares term by term, by header and coefficient, then by number of terms. -/
def compareTerms (order : Nat → Nat → Ordering) : List Term → List Term → Ordering
  | x :: xs, y :: ys =>
    ((order x.header y.header).then (compare x.coef y.coef)).then (compareTerms order xs ys)
  | xs, ys => compare xs.length ys.length

def render (e : Affine) : String :=
  String.join (e.terms.map fun t => s!"{t.coef}*I(n{t.header}) + ") ++ hex e.constant.toNat

end Affine

end MissBound
