import MissBound.Lru.NodeArena
import MissBound.Lru.Outcome
import MissBound.Symbolic.Interner

/-!
Step-by-step use of the abstract domains: operations on values, memories and set states that also
number the expressions and the list nodes they make.
-/

namespace MissBound

/-- The expressions and the nodes made so far. -/
structure Workshop where
  interner : Interner
  arena : NodeArena

def Workshop.empty : Workshop := ⟨.empty, .empty⟩

/-- A computation at the workbench. -/
abbrev Workbench := StateM Workshop

namespace Workbench

/-- Numbers the expressions that an operation has built. -/
def note (vs : List Symbolic) : Workbench Unit :=
  modify fun w => { w with interner := w.interner.insertAll vs }

/-- A value whose only new expression is itself. -/
def value (v : Symbolic) : Workbench Symbolic := do
  note [v]
  return v

/-- A memory whose only new expressions are its values, by ascending address. -/
def memory (m : Memory) : Workbench Memory := do
  note m.values
  return m

/-- Runs an operation of the arena. -/
def handle (f : NodeArena → Handle × NodeArena) : Workbench Handle :=
  modifyGet fun w =>
    let (h, arena) := f w.arena
    (h, { w with arena })

variable (L : LoopForest)

/-- A constant plus some terms. -/
def sum (c : UInt32) (ts : List Term) : Workbench Symbolic := do
  let (steps, v) := Symbolic.sumSteps L c ts
  note steps
  return v

def widen (header : Nat) (prev next : Symbolic) : Workbench Symbolic := do
  note (prev.widenTrace L header next)
  return prev.widen L header next

def widenMemory (header : Nat) (a b : Memory) : Workbench Memory := do
  note (a.widenTrace L header b)
  return a.combine (Symbolic.widen L header) b

def loadRange (m : Memory) (base top step cap : Nat) : Workbench Symbolic := do
  note (m.loadTrace L base top step cap)
  return m.loadRange L base top step cap

variable (D : SetDomain)

def update (h : Handle) (a : DataUse) : Workbench Handle := do
  if !D.ignores a then note [D.normalize a.reference]
  handle fun A => A.update D h a

def join (h k : Handle) : Workbench Handle :=
  handle fun A => A.join D h k

def enter (h : Handle) : Workbench Handle :=
  handle fun A => A.enter h

def back (h : Handle) : Workbench Handle :=
  handle fun A => A.back D h

/-- The elements that lines of the loop left come to stand for, as they are and by block. -/
def leaveTrace (s : SetState) (header source : Nat) : List Symbolic :=
  (s.lines.filter (SetDomain.dependsOn header)).flatMap fun l =>
    match (D.lastCount? header).bind fun count => D.lastElement? header source count l with
    | some v => [v, D.normalize v]
    | none => []

def leave (h : Handle) (header source : Nat) : Workbench Handle := do
  note (leaveTrace D ((← get).arena.state h) header source)
  handle fun A => A.leave D h header source

def count (h : Handle) (a : DataUse) : Workbench (Tally × MissCount) := do
  note [D.normalize a.reference]
  return D.countMisses ((← get).arena.state h) a

end Workbench

end MissBound
