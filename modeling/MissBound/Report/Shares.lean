import MissBound.Report.Tally

/-!
Average shares of outcomes over many accesses, and their text with one decimal place.
-/

namespace MissBound

/-- Average shares over a number of accesses. -/
structure Shares where
  accesses : Nat
  notClassified : Float
  alwaysHit : Float
  persistent : Float
  mayMiss : Float
  alwaysMiss : Float

/-- `num / den` to the nearest integer, a half going to the even neighbour. -/
def roundDiv (num den : Nat) : Nat :=
  let q := num / den
  let r := num % den
  if 2 * r < den then q
  else if den < 2 * r then q + 1
  else q + q % 2

/-- A finite number that is not negative, as `mantissa · 2^exponent`. -/
def binaryParts (x : Float) : Nat × Int :=
  let bits := x.toBits.toNat
  let fraction : Nat := bits &&& 0xFFFFFFFFFFFFF
  let exponent : Nat := bits >>> 52 &&& 0x7FF
  if exponent = 0 then (fraction, -1074) else (0x10000000000000 + fraction, (exponent : Int) - 1075)

/-- The tenths nearest to a number that is not negative, a tie going to the even one. -/
def tenths (x : Float) : Nat :=
  match binaryParts x with
  | (m, .ofNat e) => (m <<< e) * 10
  | (m, .negSucc e) => roundDiv (m * 10) (1 <<< (e + 1))

/-- A number that is not negative with one decimal place. -/
def oneDecimal (x : Float) : String :=
  let t := tenths x
  s!"{t / 10}.{t % 10}"

/-- The number nearest to a count below `2^64`. -/
def ofCount (n : Nat) : Float := n.toUInt64.toFloat

namespace Shares

/-- The share of each outcome, in the order of `Category.all`. -/
def fractions (t : Tally) : List Float :=
  let n := ofCount t.trials
  if t.trials = 0 then [0, 0, 0, 0, 0]
  else
    [t.notClassified, t.alwaysHit, t.persistent, t.mayMiss, t.alwaysMiss].map
      fun c => ofCount c / n

/-- The average over some accesses: shares are summed in order and then divided. -/
def average (ts : List Tally) : Shares :=
  let sums := ts.foldl (fun acc t => List.zipWith (· + ·) acc (fractions t)) [0, 0, 0, 0, 0]
  let n := ofCount ts.length
  let mean (i : Nat) : Float :=
    let sum := sums[i]?.getD 0
    if ts.isEmpty then sum else sum / n
  ⟨ts.length, mean 0, mean 1, mean 2, mean 3, mean 4⟩

def percent (x : Float) : String := oneDecimal (x * 100) ++ "%"

def render (s : Shares) : String :=
  s!"{s.accesses} accesses: AH " ++ percent s.alwaysHit ++ " PE " ++ percent s.persistent ++
    " MM " ++ percent s.mayMiss ++ " AM " ++ percent s.alwaysMiss ++ " NC " ++
    percent s.notClassified

end Shares

/-- Shares over all accesses, and over those of more than one trial. -/
structure Statistics where
  all : Shares
  arrays : Shares

namespace Statistics

def collect (ts : List Tally) : Statistics :=
  ⟨.average ts, .average (ts.filter fun t => 1 < t.trials)⟩

def render (s : Statistics) : String :=
  "all " ++ s.all.render ++ "; arrays " ++ s.arrays.render

end Statistics

end MissBound
