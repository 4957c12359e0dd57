import MissBound.Lru.SetState

/-!
Set states as linked lists in an arena of nodes. An operation builds its list from the back and
reuses a node of its argument wherever line and successor are the same, so that an operation that
changes nothing returns its argument and makes no node.
-/

namespace MissBound

structure Node where
  line : Line
  next : Option Nat
  deriving DecidableEq

structure NodeArena where
  nodes : Array Node

/-- A set state in an arena: not reached, or a list named by its first node. -/
inductive Handle where
  | bottom
  | list (head : Option Nat)
  deriving DecidableEq

namespace NodeArena

def empty : NodeArena := ⟨#[]⟩

variable (A : NodeArena)

def size : Nat := A.nodes.size

/-- The nodes from `head` on with their lines, at most `limit` of them. -/
def follow : Nat → Option Nat → List (Nat × Line)
  | 0, _ => []
  | _, none => []
  | limit + 1, some n =>
    match A.nodes[n]? with
    | some node => (n, node.line) :: follow limit node.next
    | none => []

/-- The nodes of a list with their lines. -/
def entries : Handle → List (Nat × Line)
  | .bottom => []
  | .list head => A.follow A.size head

/-- The state that a handle stands for. -/
def state : Handle → SetState
  | .bottom => .bottom
  | h => .known ((A.entries h).map (·.2))

/-- Puts a line in front of a list, reusing `old` if it is that very node. -/
def cons (line : Line) (old : Option Nat) (next : Option Nat) : Option Nat × NodeArena :=
  match old.filter fun n => A.nodes[n]? == some ⟨line, next⟩ with
  | some n => (some n, A)
  | none => (some A.nodes.size, ⟨A.nodes.push ⟨line, next⟩⟩)

/-- A line to be put into a list, with the node that it comes from. -/
structure Piece where
  line : Line
  old : Option Nat

/-- Builds a list from its back to its front. -/
def build (pieces : List Piece) : Handle × NodeArena :=
  let (head, A) := pieces.foldr (fun p acc => acc.2.cons p.line p.old acc.1) (none, A)
  (.list head, A)

namespace Piece

/-- A line of a list, changed where it stands. -/
def change (f : Line → Line) (e : Nat × Line) : Piece := ⟨f e.2, some e.1⟩

variable (D : SetDomain)

/-- Puts a piece before the first one whose line is greater. -/
def insert (p : Piece) : List Piece → List Piece
  | [] => [p]
  | q :: rest => if D.compareLines q.line p.line == .gt then p :: q :: rest else q :: insert p rest

/-- Merges two lists in step, taking the smaller line each time. Two lines of one key are joined, in
the place of the first one. -/
def merge : List (Nat × Line) → List (Nat × Line) → List Piece
  | [], ys => ys.map (change D.oneSided)
  | x :: xs, [] => (x :: xs).map (change D.oneSided)
  | x :: xs, y :: ys =>
    match D.compareLines x.2 y.2 with
    | .lt => change D.oneSided x :: merge xs (y :: ys)
    | .gt => change D.oneSided y :: merge (x :: xs) ys
    | .eq => change (·.join y.2) x :: merge xs ys
termination_by xs ys => xs.length + ys.length

/-- Joins neighbours of one key, `p` being the first piece. A joined line comes from no node. -/
def fuse (p : Piece) : List Piece → List Piece
  | [] => [p]
  | q :: rest =>
    if D.compareLines p.line q.line == .eq then fuse ⟨p.line.join q.line, none⟩ rest
    else p :: fuse q rest

/-- Sorts pieces, lines of one key in the order in which they come, and joins the latter. -/
def collate (pieces : List Piece) : List Piece :=
  match pieces.mergeSort fun p q => (D.compareLines p.line q.line).isLE with
  | [] => []
  | p :: rest => fuse D p rest

/-- The piece for a line once the loop of `header` is left. A line that comes to stand for another
element comes from no node. -/
def leave? (header source : Nat) (e : Nat × Line) : Option Piece :=
  (D.leaveLine? header source e.2).map fun l =>
    ⟨l, if SetDomain.dependsOn header e.2 then none else some e.1⟩

end Piece

variable (D : SetDomain)

/-- The list after the use of `v` in a block. -/
def use (h : Handle) (v : Symbolic) (block : Nat) : List Piece :=
  let entries := A.entries h
  let used := D.useAges v (entries.map (·.2))
  let moved := entries.map (Piece.change fun l => if l.isFor v then D.touched l else D.aged used l)
  if entries.any (·.2.isFor v) then moved else Piece.insert D ⟨D.fresh v block, none⟩ moved

/-- The list after a use of some unknown address. -/
def useUnknown (h : Handle) : List Piece :=
  (A.entries h).map (Piece.change fun l =>
    { l with
      must := D.ways
      may := 0
      persistence := Age.Levels.step D.ways D.ways l.persistence })

def update (h : Handle) (a : DataUse) : Handle × NodeArena :=
  if D.ignores a then (h, A)
  else if a.reference.isTop then A.build (A.useUnknown D h)
  else A.build (A.use D h (D.normalize a.reference) a.block)

def join (h k : Handle) : Handle × NodeArena :=
  match h, k with
  | .bottom, k => (k, A)
  | h, .bottom => (h, A)
  | h, k => if h = k then (h, A) else A.build (Piece.merge D (A.entries h) (A.entries k))

def enter (h : Handle) : Handle × NodeArena :=
  A.build ((A.entries h).map
    (Piece.change fun l => { l with persistence := Age.Levels.enter l.persistence }))

def leave (h : Handle) (header source : Nat) : Handle × NodeArena :=
  match h with
  | .bottom => (.bottom, A)
  | h => A.build (Piece.collate D ((A.entries h).filterMap (Piece.leave? D header source)))

def back (h : Handle) : Handle × NodeArena :=
  if (A.entries h).all fun e => e.2.generation < D.ways then (h, A)
  else
    A.build (((A.entries h).filter fun e => e.2.generation < D.ways).map (Piece.change id))

/-- The lists from two nodes on have the same lines, at most `limit` of them being compared. From a
common node on they are the same list. -/
def equalFrom : Nat → Option Nat → Option Nat → Bool
  | limit + 1, some m, some n =>
    m == n ||
      match A.nodes[m]?, A.nodes[n]? with
      | some x, some y => x.line == y.line && equalFrom limit x.next y.next
      | _, _ => false
  | _, none, none => true
  | _, _, _ => false

/-- The handles stand for the same state. -/
def equal : Handle → Handle → Bool
  | .bottom, .bottom => true
  | .list m, .list n => A.equalFrom A.size m n
  | _, _ => false

end NodeArena

end MissBound
