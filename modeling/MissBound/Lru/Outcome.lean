import MissBound.Lru.SetState
import MissBound.Report.Tally

/-!
What becomes of the trials of an access in one cache set, from the state before it.
-/

namespace MissBound.SetDomain

variable (D : SetDomain)

/-- The trials of an iteration space whose address lies in the set, folded in order. -/
def foldTrials {α : Type} (e : Affine) (space : Odometer) (f : α → Odometer → Nat → α) (init : α) :
    α :=
  Odometer.foldNext
    (fun acc o =>
      match o.eval? e with
      | some a => if D.cache.set a == D.set then f acc o (D.cache.block a) else acc
      | none => acc)
    space.size space init

def countTrials (e : Affine) (space : Odometer) : Nat :=
  D.foldTrials e space (fun n _ _ => n + 1) 0

/-- The trials of a persistent line. In a loop, the first one of a varying reference misses; each
change of block may miss. Outside of any loop there is nothing to repeat. -/
def countPersistent (e : Affine) (space : Odometer) (looped : Bool) : Tally × Nat :=
  let (tally, misses, _) := D.foldTrials e space
    (fun (acc : Tally × Nat × Option Nat) _ block =>
      let (t, misses, last) := acc
      let t : Tally :=
        if !looped then { t with mayMiss := t.mayMiss + 1 }
        else if last.isNone && !e.isConstant then { t with alwaysMiss := t.alwaysMiss + 1 }
        else { t with persistent := t.persistent + 1 }
      (t, if last == some block then misses else misses + 1, some block))
    (.zero, 0, none)
  (tally, misses)

/-- The references of lines that may be cached and may meet `v`. -/
def competitors (v : Symbolic) (ls : List Line) : List Affine :=
  (ls.filter fun l =>
    Age.isAlive D.ways l.may && References.compatible l.reference v &&
      D.refs.mayMeet l.reference l.generation v 0).filterMap (·.reference.affine?)

/-- The trials of a line that may not be cached: one of them may hit only if a competitor accesses
the same block at the same counters. -/
def countOthers (e : Affine) (space : Odometer) (others : List Affine) : Tally × Nat :=
  let tally := D.foldTrials e space
    (fun (t : Tally) o block =>
      if others.any fun c => (o.eval? c).any fun a => D.cache.block a == block then
        { t with mayMiss := t.mayMiss + 1 }
      else { t with alwaysMiss := t.alwaysMiss + 1 })
    .zero
  (tally, tally.trials)

/-- The outcome of the trials of an access that lie in the set, from the state before it. -/
def countMisses (s : SetState) (a : DataUse) : Tally × MissCount :=
  let v := D.normalize a.reference
  match v, v.enumerable? D.loops D.refs.cap with
  | .affine e, some space =>
    let line := s.lines.find? (·.isFor v)
    if !a.cached then
      let n := D.countTrials e space
      ({ Tally.zero with alwaysMiss := n }, .bounded n)
    else if line.any fun l => Age.isAlive D.ways l.must then
      ({ Tally.zero with alwaysHit := D.countTrials e space }, .zero)
    else if line.any fun l => Age.Levels.isAlive D.ways l.persistence then
      let (tally, misses) := D.countPersistent e space (0 < D.loops.depthAt a.block)
      (tally, .bounded misses)
    else
      let (tally, misses) := D.countOthers e space (D.competitors v s.lines)
      (tally, .bounded misses)
  | _, _ => (.unclassified, .unbounded)

end MissBound.SetDomain
