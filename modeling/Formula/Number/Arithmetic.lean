import Formula.Number.Basic

/-!
# `Formula.Number.Arithmetic`: the operations on doubles

Each operation forms the exact result and rounds it once. Infinities and
zeros follow the usual rules: an undefined form such as `∞ - ∞` or
`0 / 0` is not a number, a nonzero number over zero is infinite, and the
sign of a product, a quotient or a zero is kept.
-/

set_option autoImplicit false

namespace Formula.Number

/-- The number with the opposite sign. -/
def neg : Number → Number
  | .nan => .nan
  | .infinite negative => .infinite !negative
  | .finite negative m => .finite (!negative) m

/-- The sum. A zero sum is negative only when both terms are negative
zeros. -/
def add : Number → Number → Number
  | .nan, _ => .nan
  | _, .nan => .nan
  | .infinite s, .infinite t => if s = t then .infinite s else .nan
  | .infinite s, .finite _ _ => .infinite s
  | .finite _ _, .infinite t => .infinite t
  | .finite s a, .finite t b =>
    ofSignedRatio (signed s a.quanta + signed t b.quanta) 1 (s && t)

/-- The difference. -/
def sub (x y : Number) : Number := add x (neg y)

/-- The product. -/
def mul : Number → Number → Number
  | .nan, _ => .nan
  | _, .nan => .nan
  | .infinite s, .infinite t => .infinite (s ^^ t)
  | .infinite s, .finite t b => if b.quanta = 0 then .nan else .infinite (s ^^ t)
  | .finite s a, .infinite t => if a.quanta = 0 then .nan else .infinite (s ^^ t)
  | .finite s a, .finite t b => ofRatio (s ^^ t) (a.quanta * b.quanta) unitQuanta

/-- The quotient. -/
def div : Number → Number → Number
  | .nan, _ => .nan
  | _, .nan => .nan
  | .infinite _, .infinite _ => .nan
  | .infinite s, .finite t _ => .infinite (s ^^ t)
  | .finite s _, .infinite t => zeroOf (s ^^ t)
  | .finite s a, .finite t b =>
    if b.quanta = 0 then
      if a.quanta = 0 then .nan else .infinite (s ^^ t)
    else
      ofRatio (s ^^ t) (a.quanta * unitQuanta) b.quanta

/-- The remainder of the division that truncates toward zero; it has the
sign of the dividend. -/
def rem : Number → Number → Number
  | .nan, _ => .nan
  | _, .nan => .nan
  | .infinite _, _ => .nan
  | .finite s a, .infinite _ => .finite s a
  | .finite s a, .finite _ b =>
    if b.quanta = 0 then .nan else ofRatio s (a.quanta % b.quanta) 1

/-- The number moved toward zero to an integer, as an integer; zero when
it is not finite. -/
def truncate : Number → Int
  | .finite negative m => signed negative (m.quanta / unitQuanta)
  | _ => 0

/-- Whether the number is an integer. -/
def isIntegral : Number → Bool
  | .finite _ m => m.quanta % unitQuanta == 0
  | _ => false

end Formula.Number
