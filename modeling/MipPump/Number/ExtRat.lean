import MipPump.Number.Arith

/-!
# Exact arithmetic with infinities

The rationals extended by both infinities and a value that is no number.  Sums, products and
quotients of finite values are exact; the special values combine as in binary floating point:

* `∞ - ∞`, `0 · ∞`, `0 / 0` and `∞ / ∞` are no number;
* a nonzero number divided by zero is an infinity (zero has no sign here, so it counts as
  positive);
* every comparison with a value that is no number is false.
-/

namespace MipPump

/-- A rational number, an infinity, or no number. -/
inductive ExtRat where
  | nan
  | negInf
  | fin (value : Rat)
  | posInf
  deriving DecidableEq

namespace ExtRat

section Operations

/-- Sum; opposite infinities have none. -/
def add : ExtRat → ExtRat → ExtRat
  | fin a, fin b => fin (a + b)
  | nan, _ => nan
  | _, nan => nan
  | negInf, posInf => nan
  | posInf, negInf => nan
  | negInf, _ => negInf
  | _, negInf => negInf
  | posInf, _ => posInf
  | _, posInf => posInf

def neg : ExtRat → ExtRat
  | nan => nan
  | negInf => posInf
  | fin a => fin (-a)
  | posInf => negInf

def sub (x y : ExtRat) : ExtRat := add x (neg y)

/-- An infinity with the sign of a rational; zero gives no number. -/
def infinityWithSign (q : Rat) : ExtRat :=
  if 0 < q then posInf else if q < 0 then negInf else nan

/-- Product; zero times an infinity is no number. -/
def mul : ExtRat → ExtRat → ExtRat
  | fin a, fin b => fin (a * b)
  | nan, _ => nan
  | _, nan => nan
  | posInf, fin b => infinityWithSign b
  | fin a, posInf => infinityWithSign a
  | negInf, fin b => infinityWithSign (-b)
  | fin a, negInf => infinityWithSign (-a)
  | posInf, posInf => posInf
  | negInf, negInf => posInf
  | posInf, negInf => negInf
  | negInf, posInf => negInf

/-- Quotient; a finite number divided by an infinity is zero. -/
def div : ExtRat → ExtRat → ExtRat
  | nan, _ => nan
  | _, nan => nan
  | fin a, fin b => if b = 0 then infinityWithSign a else fin (a / b)
  | fin _, _ => fin 0
  | posInf, fin b => if b < 0 then negInf else posInf
  | negInf, fin b => if b < 0 then posInf else negInf
  | _, _ => nan

/-- Strict order; no number is below or above nothing. -/
def lt : ExtRat → ExtRat → Bool
  | fin a, fin b => decide (a < b)
  | negInf, fin _ => true
  | negInf, posInf => true
  | fin _, posInf => true
  | _, _ => false

/-- Weak order; it fails whenever a side is no number. -/
def le : ExtRat → ExtRat → Bool
  | fin a, fin b => decide (a ≤ b)
  | nan, _ => false
  | _, nan => false
  | negInf, _ => true
  | _, posInf => true
  | _, _ => false

/-- Equality; no number is unequal to itself. -/
def beq : ExtRat → ExtRat → Bool
  | fin a, fin b => decide (a = b)
  | negInf, negInf => true
  | posInf, posInf => true
  | _, _ => false

def abs : ExtRat → ExtRat
  | fin a => fin (if a < 0 then -a else a)
  | negInf => posInf
  | x => x

/-- Applies a function to a finite value. -/
def mapFin (f : Rat → Rat) : ExtRat → ExtRat
  | fin a => fin (f a)
  | x => x

/-- The nearest integer to a rational, a half going to the even neighbour. -/
def rintRat (q : Rat) : Rat :=
  let whole := q.floor
  let part := q - whole
  if part < 1 / 2 then whole
  else if 1 / 2 < part then whole + 1
  else if whole % 2 = 0 then whole else whole + 1

/-- The largest multiple of `1 / q.den` whose square is at most `q`. -/
def sqrtRat (q : Rat) : Rat := mkRat (Nat.sqrt (q.num.toNat * q.den)) q.den

/-- Square root, exact on the squares of rationals. -/
def sqrt : ExtRat → ExtRat
  | fin a => if a < 0 then nan else fin (sqrtRat a)
  | posInf => posInf
  | _ => nan

/-- The exact value of a finite number. -/
def toRat? : ExtRat → Option Rat
  | fin a => some a
  | _ => none

end Operations

/-- Exact arithmetic. -/
instance instArith : Arith ExtRat where
  add := add
  sub := sub
  mul := mul
  div := div
  neg := neg
  lt x y := lt x y = true
  le x y := le x y = true
  beq := beq
  ofInt n := fin n
  infinity := posInf
  abs := abs
  floor := mapFin fun q => (q.floor : Rat)
  ceil := mapFin fun q => (q.ceil : Rat)
  rint := mapFin rintRat
  sqrt := sqrt
  isInf x := decide (x = negInf) || decide (x = posInf)
  isNaN x := decide (x = nan)
  same x y := decide (x = y)
  toRat? := toRat?
  ofRat := fin
  decLt x y := inferInstanceAs (Decidable (lt x y = true))
  decLe x y := inferInstanceAs (Decidable (le x y = true))

end ExtRat

end MipPump
