import MissBound.Machine.Memory

/-!
A table that numbers distinct expressions in the order in which operations first build them. Values
that an operation builds on its way to the result count too.
-/

namespace MissBound

structure Interner where
  entries : List Affine

namespace Interner

def empty : Interner := ⟨[]⟩

def size (t : Interner) : Nat := t.entries.length

/-- Numbers an expression unless it has a number already. -/
def insert (t : Interner) (v : Symbolic) : Interner :=
  match v with
  | .affine e => if t.entries.contains e then t else ⟨t.entries ++ [e]⟩
  | _ => t

def insertAll (t : Interner) (vs : List Symbolic) : Interner :=
  vs.foldl insert t

/-- The number of an expression. -/
def index? (t : Interner) (v : Symbolic) : Option Nat :=
  v.affine?.bind fun e => t.entries.findIdx? (· == e)

def render (t : Interner) : String :=
  s!"PolyArena \x7b len: {t.size} \x7d"

end Interner

namespace Symbolic

variable (L : LoopForest)

/-- The expressions that `widen` builds: the difference of its arguments, and then the new term and
the result if a term is added. -/
def widenTrace (header : Nat) : Symbolic → Symbolic → List Symbolic
  | affine prev, affine next =>
    if includes (affine next) (affine prev) then []
    else
      let difference := sub L (affine next) (affine prev)
      match difference.constant? with
      | none => [difference]
      | some k =>
        if next.coefficient? header = some (signed k) || (prev.coefficient? header).isSome then
          [difference]
        else [difference, term (signed k) header, widen L header (affine prev) (affine next)]
  | _, _ => []

/-- A constant plus terms `coef · I(header)` added one after another: the expressions built, the
last one being the sum. -/
def sumSteps (c : UInt32) (ts : List Term) : List Symbolic × Symbolic :=
  ts.foldl
    (fun acc t =>
      let slope := term t.coef t.header
      let sum := acc.2.add L slope
      (acc.1 ++ [slope, sum], sum))
    ([const c], const c)

end Symbolic

namespace Memory

variable (L : LoopForest)

def values (m : Memory) : List Symbolic := m.cells.entries.map (·.2)

/-- The expressions that widening two memories cell by cell builds. -/
def widenTrace (header : Nat) (a b : Memory) : List Symbolic :=
  a.cells.entries.flatMap fun e => e.2.widenTrace L header (b.cells.get e.1)

/-- The joins after each word of a load, up to the first that is unknown. -/
def loadWordsTrace (m : Memory) (step : Nat) : Nat → Nat → Symbolic → List Symbolic
  | 0, _, _ => []
  | count + 1, address, acc =>
    match m.get? address with
    | none => []
    | some v =>
      let joined := acc.join L v
      if joined.isTop then [] else joined :: loadWordsTrace m step count (address + step) joined

/-- The expressions that a range load builds. -/
def loadTrace (m : Memory) (base top step cap : Nat) : List Symbolic :=
  match loadCount? base top step cap with
  | none => []
  | some count => loadWordsTrace L m step count base .bottom

end Memory

end MissBound
