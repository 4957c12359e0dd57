/-!
How the executions of an access turn out: counters of trials, miss counts, and the class of an
access. A trial is one address of the iteration space of the access.
-/

namespace MissBound

/-- The class of an access. -/
inductive Category where
  /-- Some trial could not be classified. -/
  | notClassified
  /-- Every trial hits. -/
  | alwaysHit
  /-- A line misses at most once per run of its loop. -/
  | persistent
  /-- Some trial may hit. -/
  | mayMiss
  /-- Every trial misses. -/
  | alwaysMiss
  deriving DecidableEq

namespace Category

def all : List Category := [notClassified, alwaysHit, persistent, mayMiss, alwaysMiss]

def name : Category → String
  | notClassified => "NC"
  | alwaysHit => "AH"
  | persistent => "PE"
  | mayMiss => "MM"
  | alwaysMiss => "AM"

/-- The place of a class in the order of `all`. -/
def rank (c : Category) : Nat := all.idxOf c

end Category

/-- The number of trials with each outcome. -/
structure Tally where
  alwaysHit : Nat
  alwaysMiss : Nat
  mayMiss : Nat
  persistent : Nat
  notClassified : Nat
  deriving DecidableEq

namespace Tally

def zero : Tally := ⟨0, 0, 0, 0, 0⟩

/-- One trial about which nothing is known. -/
def unclassified : Tally := { zero with notClassified := 1 }

def trials (t : Tally) : Nat :=
  t.alwaysHit + t.alwaysMiss + t.mayMiss + t.persistent + t.notClassified

def add (a b : Tally) : Tally :=
  ⟨a.alwaysHit + b.alwaysHit, a.alwaysMiss + b.alwaysMiss, a.mayMiss + b.mayMiss,
    a.persistent + b.persistent, a.notClassified + b.notClassified⟩

instance : Add Tally := ⟨add⟩

def category (t : Tally) : Category :=
  if 0 < t.notClassified then .notClassified
  else if t.alwaysHit = t.trials ∧ 0 < t.alwaysHit then .alwaysHit
  else if 0 < t.persistent then .persistent
  else if 0 < t.mayMiss then .mayMiss
  else .alwaysMiss

end Tally

/-- The largest miss count or penalty that is reported; larger ones stop there. -/
def missLimit : Nat := 0xFFFFFFFFFFFFFFFF

/-- How many misses an access contributes. -/
inductive MissCount where
  /-- At most this many. -/
  | bounded (n : Nat)
  | unbounded
  deriving DecidableEq

namespace MissCount

def zero : MissCount := bounded 0

def bound? : MissCount → Option Nat
  | bounded n => some n
  | unbounded => none

def add : MissCount → MissCount → MissCount
  | bounded a, bounded b => bounded (min missLimit (a + b))
  | _, _ => unbounded

instance : Add MissCount := ⟨add⟩

/-- Bounded counts by size, then the unbounded one. -/
def le : MissCount → MissCount → Bool
  | bounded a, bounded b => a ≤ b
  | bounded _, unbounded => true
  | unbounded, bounded _ => false
  | unbounded, unbounded => true

def render : MissCount → String
  | bounded n => toString n
  | unbounded => "unbounded"

end MissCount

end MissBound
