/-!
Bounds on the age of a line in an LRU set: the number of other lines of the set used since its own
last use. A line is evicted once its age reaches the associativity `ways`.
-/

namespace MissBound.Age

/-- The age of a line after a use of another line whose own age was `used`: only lines that are not
older than the used one grow older, and none beyond `ways`. -/
def step (ways used age : Nat) : Nat :=
  if age ≤ used ∧ age < ways then age + 1 else age

/-- A line of this age may still be in the set. -/
def isAlive (ways age : Nat) : Bool := age < ways

/-! Upper bounds. -/

namespace Must

def join (a b : Nat) : Nat := max a b

end Must

/-! Lower bounds. -/

namespace May

def join (a b : Nat) : Nat := min a b

end May

/-! Upper bounds for each loop around a line, the innermost last. The first level covers the whole
program, each further one the current run of a loop. An eviction sticks until its level is left. -/

namespace Levels

def fresh (depth : Nat) : List Nat := List.replicate (depth + 1) 0

def unknown (ways depth : Nat) : List Nat := List.replicate (depth + 1) ways

/-- The larger bound at each level; levels of one side only are kept. -/
def join : List Nat → List Nat → List Nat
  | a :: as, b :: bs => max a b :: join as bs
  | [], bs => bs
  | as, [] => as

def step (ways used : Nat) (levels : List Nat) : List Nat :=
  levels.map (Age.step ways used)

/-- A use of the line itself, which revives no level that it was evicted from. -/
def touch (ways : Nat) (levels : List Nat) : List Nat :=
  levels.map fun a => if a < ways then 0 else a

/-- Opens a level for a loop that is entered. -/
def enter (levels : List Nat) : List Nat := levels ++ [0]

/-- Closes the innermost level into the one around it. -/
def leave : List Nat → List Nat
  | [] => []
  | [a] => [a]
  | [a, b] => [max a b]
  | a :: b :: c :: rest => a :: leave (b :: c :: rest)

def isAlive (ways : Nat) (levels : List Nat) : Bool :=
  levels.getLast?.any (Age.isAlive ways)

end Levels

end MissBound.Age
