import MissBound.Symbolic.Value

/-!
The addresses that a symbolic value takes while the counters of its loops run through their bounds.
-/

namespace MissBound

/-- The lowest and the highest address of a value, each modulo `2^32`, and the stride of its
innermost loop. -/
structure Span where
  base : Nat
  top : Nat
  stride : Int
  deriving DecidableEq

namespace Affine

variable (L : LoopForest)

/-- How far the terms reach below and above the constant, if all bounds are known. -/
def reach? : List Term → Option (Int × Int)
  | [] => some (0, 0)
  | t :: rest =>
    match L.maxIteration? t.header, reach? rest with
    | some n, some (lo, hi) =>
      let extent := t.coef * ((n - 1 : Nat) : Int)
      some (if t.coef < 0 then (lo + extent, hi) else (lo, hi + extent))
    | _, _ => none

def span? (e : Affine) : Option Span :=
  (reach? L e.terms).map fun r =>
    let place (offset : Int) : Nat := (((e.constant.toNat : Int) + offset) % 0x100000000).toNat
    ⟨place r.1, place r.2, (e.terms.head?.map (·.coef)).getD 0⟩

end Affine

namespace Symbolic

variable (L : LoopForest)

def span? (v : Symbolic) : Option Span :=
  v.affine?.bind (Affine.span? L)

/-- The distance of the grid on which all addresses of a value lie. -/
def step (v : Symbolic) : Nat :=
  match v with
  | affine e => e.step
  | _ => 0

/-- The bounds of all loops of the value are exact. -/
def hasExactBounds (v : Symbolic) : Bool :=
  v.affine?.any fun e => e.terms.all fun t => (L.boundOf t.header).exactCount?.isSome

/-- The largest count that is reported; larger ones stop there. -/
def countLimit : Nat := 0xFFFFFFFFFFFFFFFF

/-- The size of the iteration space, if all bounds are known. -/
def count? (v : Symbolic) : Option Nat :=
  v.affine?.bind fun e =>
    (e.terms.mapM fun t => L.maxIteration? t.header).map fun bounds =>
      min countLimit (bounds.foldl (· * ·) 1)

end Symbolic

end MissBound
