import MissBound.Symbolic.Value

/-!
What is known about registers or memory words: symbolic values by ascending key. A key without an
entry holds the unknown value, and the unknown value is never stored.
-/

namespace MissBound

structure Facts (κ : Type) where
  entries : List (κ × Symbolic)
  deriving DecidableEq

namespace Facts

variable {κ : Type} [Ord κ]

def empty : Facts κ := ⟨[]⟩

def find? (f : Facts κ) (k : κ) : Option Symbolic :=
  (f.entries.find? fun e => compare k e.1 == .eq).map (·.2)

def get (f : Facts κ) (k : κ) : Symbolic :=
  (f.find? k).getD .top

/-- Puts an entry at its place, replacing one with the same key. -/
def insertEntry (k : κ) (v : Symbolic) : List (κ × Symbolic) → List (κ × Symbolic)
  | [] => [(k, v)]
  | e :: rest =>
    match compare k e.1 with
    | .lt => (k, v) :: e :: rest
    | .eq => (k, v) :: rest
    | .gt => e :: insertEntry k v rest

/-- Learns the value of a key, or forgets it if the value is unknown. -/
def set (f : Facts κ) (k : κ) (v : Symbolic) : Facts κ :=
  if v.isTop then ⟨f.entries.filter fun e => compare k e.1 != .eq⟩ else ⟨insertEntry k v f.entries⟩

/-- An entry, unless its value is unknown. -/
def entry? (k : κ) (v : Symbolic) : Option (κ × Symbolic) :=
  if v.isTop then none else some (k, v)

/-- Applies `f` to every value. -/
def map (f : Symbolic → Symbolic) (facts : Facts κ) : Facts κ :=
  ⟨facts.entries.filterMap fun e => entry? e.1 (f e.2)⟩

/-- The keys known on both sides, with their values joined. -/
def join (L : LoopForest) (a b : Facts κ) : Facts κ :=
  ⟨a.entries.filterMap fun e => (b.find? e.1).bind fun w => entry? e.1 (e.2.join L w)⟩

/-- Combines values key by key with `f`, a missing one being unknown. -/
def combine (f : Symbolic → Symbolic → Symbolic) (a b : Facts κ) : Facts κ :=
  let own := a.entries.filterMap fun e => entry? e.1 (f e.2 (b.get e.1))
  let others := b.entries.filter fun e => (a.find? e.1).isNone
  others.foldl (fun acc e => acc.set e.1 (f .top e.2)) ⟨own⟩

end Facts

end MissBound
