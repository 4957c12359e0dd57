import MissBound.Symbolic.Affine

/-!
Symbolic values: an affine expression, or a value that is unknown or not reached. An operation
whose result is no affine expression, or whose coefficients might leave 32 bits, yields the
unknown value.
-/

namespace MissBound

inductive Symbolic where
  /-- Any value. -/
  | top
  /-- No value, as on a path not taken. -/
  | bottom
  | affine (e : Affine)
  deriving DecidableEq

/-- The most terms of an expression. -/
def maxTerms : Nat := 7

namespace Symbolic

def isTop : Symbolic → Bool
  | top => true
  | _ => false

def isBottom : Symbolic → Bool
  | bottom => true
  | _ => false

def affine? : Symbolic → Option Affine
  | affine e => some e
  | _ => none

def terms : Symbolic → List Term
  | affine e => e.terms
  | _ => []

/-- The value of an expression without terms. -/
def constant? : Symbolic → Option UInt32
  | affine e => if e.isConstant then some e.constant else none
  | _ => none

def isConstant (v : Symbolic) : Bool :=
  v.constant?.isSome

/-- The constant part of an expression. -/
def base? (v : Symbolic) : Option UInt32 :=
  v.affine?.map (·.constant)

def coefficient? (v : Symbolic) (header : Nat) : Option Int :=
  v.affine?.bind (·.coefficient? header)

/-- The header of the innermost loop on which the value depends. -/
def firstHeader? (v : Symbolic) : Option Nat :=
  v.terms.head?.map (·.header)

/-- An expression, unless it has too many terms. -/
def ofTerms (terms : List Term) (constant : UInt32) : Symbolic :=
  if maxTerms < terms.length then top else affine ⟨terms, constant⟩

def const (c : UInt32) : Symbolic :=
  affine ⟨[], c⟩

/-- `coef · I(header)`. -/
def term (coef : Int) (header : Nat) : Symbolic :=
  if coef = 0 then const 0 else affine ⟨[⟨coef, header⟩], 0⟩

def render : Symbolic → String
  | top => "T"
  | bottom => "_"
  | affine e => e.render

/-- Extends an operation on expressions; `bottom` is neutral and `top` absorbs all else. -/
def lift (f : Affine → Affine → Symbolic) : Symbolic → Symbolic → Symbolic
  | bottom, v => v
  | v, bottom => v
  | affine a, affine b => f a b
  | _, _ => top

/-- An expression from terms that may be missing, unknown if they are. -/
def ofTerms? (terms : Option (List Term)) (constant : UInt32) : Symbolic :=
  match terms with
  | some ts => ofTerms ts constant
  | none => top

/-- Left shift by a constant below 31. -/
def shl : Symbolic → Symbolic → Symbolic :=
  lift fun a b =>
    if b.isConstant && b.constant < 31 then
      ofTerms?
        (a.terms.mapM fun t => (Term.shiftCoef? t.coef b.constant.toNat).map (⟨·, t.header⟩))
        (a.constant <<< b.constant)
    else top

/-- Multiplies every coefficient and the constant of an expression by `k`. -/
def scale (e : Affine) (k : UInt32) : Symbolic :=
  ofTerms?
    ((e.terms.mapM fun t => (Term.mulCoef? t.coef (signed k)).map (Term.mk · t.header)).map
      fun ts => ts.filter fun t => t.coef != 0)
    (e.constant * k)

/-- The product of two expressions, at least one of them constant. -/
def mul : Symbolic → Symbolic → Symbolic :=
  lift fun a b =>
    if b.isConstant then scale a b.constant
    else if a.isConstant then scale b a.constant
    else top

/-- The bitwise disjunction of two constants. -/
def or : Symbolic → Symbolic → Symbolic :=
  lift fun a b => if a.isConstant && b.isConstant then const (a.constant ||| b.constant) else top

variable (L : LoopForest)

def add : Symbolic → Symbolic → Symbolic :=
  lift fun a b =>
    ofTerms? (Term.merge L.compareHeaders Term.addCoef? a.terms b.terms) (a.constant + b.constant)

def sub : Symbolic → Symbolic → Symbolic :=
  lift fun a b =>
    let negated := b.terms.mapM fun t => (Term.negCoef? t.coef).map (Term.mk · t.header)
    ofTerms? (negated.bind (Term.merge L.compareHeaders Term.addCoef? a.terms))
      (a.constant - b.constant)

/-- The join of two values. Terms of one header must agree and those of one side only are kept;
constants must be equal. -/
def join (a b : Symbolic) : Symbolic :=
  if a = b then a
  else
    lift
      (fun x y =>
        if x.constant = y.constant then
          ofTerms?
            (Term.merge L.compareHeaders (fun c d => if c = d then some c else none)
              x.terms y.terms)
            x.constant
        else top)
      a b

/-- `wide` equals `narrow`, or `narrow` with one more innermost term. -/
def includes (wide narrow : Symbolic) : Bool :=
  wide == narrow ||
    match wide, narrow with
    | top, _ => true
    | _, bottom => true
    | affine w, affine n => !w.terms.isEmpty && w.constant == n.constant && w.terms.tail == n.terms
    | _, _ => false

/-- Widening at a loop header: a constant difference `k` between the last value `prev` and the value
`next` one iteration later becomes a term `k · I(header)`, any other growth the unknown value. -/
def widen (header : Nat) : Symbolic → Symbolic → Symbolic :=
  lift fun prev next =>
    if includes (affine next) (affine prev) then affine next
    else match (sub L (affine next) (affine prev)).constant? with
      | none => top
      | some k =>
        if next.coefficient? header = some (signed k) then affine prev
        else if (prev.coefficient? header).isSome then top
        else add L (affine prev) (term (signed k) header)

/-- Replaces `I(header)` by a number of iterations. -/
def substitute (v : Symbolic) (header counter : Nat) : Symbolic :=
  match v with
  | affine e =>
    match e.coefficient? header with
    | none => v
    | some c =>
      if counter < 0x80000000 then
        match Term.mulCoef? c counter with
        | some offset =>
          ofTerms (e.terms.filter fun t => t.header != header) (e.constant + word offset)
        | none => top
      else top
  | _ => v

/-- The value once the loop of `header` is left: its counter takes the last value if the bound is
exact, and is lost otherwise. -/
def afterLoop (header : Nat) (v : Symbolic) : Symbolic :=
  if (v.coefficient? header).isNone then v
  else match (L.boundOf header).exactCount? with
    | some n => v.substitute header (n - 1)
    | none => top

/-- The loop to which an access of `v` in `block` is charged: the outermost loop of its terms, or
the innermost loop around the block. -/
def chargedTo? (block : Nat) (v : Symbolic) : Option Nat :=
  match v.terms.getLast? with
  | some t => some t.header
  | none => L.innermostHeader? block

/-- `bottom`, then expressions by terms and constant, then `top`. -/
def compare (a b : Symbolic) : Ordering :=
  if a = b then .eq
  else match a, b with
    | bottom, _ => .lt
    | _, top => .lt
    | _, bottom => .gt
    | top, _ => .gt
    | affine x, affine y =>
      (Affine.compareTerms L.compareHeaders x.terms y.terms).then
        (Ord.compare x.constant.toNat y.constant.toNat)

end Symbolic

end MissBound
