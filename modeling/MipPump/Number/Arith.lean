import MipPump.Number.Power

/-!
# The arithmetic a pump is run with

Every algorithm of the library is written over a number type `R` with an instance of `Arith R`.
Two instances are provided:

* binary floating point, with which the program runs;
* the rationals extended by both infinities and a not-a-number value, in which the same
  algorithms are exact.

A comparison with a not-a-number value is false, so `x ≤ y` is not the negation of `y < x`.
The order of the operands of `larger` and `smaller` is therefore part of their meaning.  There are
two clamps, which differ in the operand that survives a tie; only the sign of a zero can tell.
-/

namespace MipPump

/-- Numbers with infinities: the operations the algorithms use. -/
class Arith (R : Type) extends Add R, Sub R, Mul R, Div R, Neg R, LT R, LE R, BEq R where
  /-- The number nearest to an integer. -/
  ofInt : Int → R
  /-- Positive infinity. -/
  infinity : R
  abs : R → R
  /-- The largest integer not above the number; special values stay as they are. -/
  floor : R → R
  /-- The smallest integer not below the number; special values stay as they are. -/
  ceil : R → R
  /-- The nearest integer, a half going to the even neighbour. -/
  rint : R → R
  sqrt : R → R
  isInf : R → Bool
  isNaN : R → Bool
  /-- Indistinguishable values: finer than `==` on zeros, and a not-a-number equals itself. -/
  same : R → R → Bool
  /-- The exact value of a finite number. -/
  toRat? : R → Option Rat
  /-- The number nearest to a rational. -/
  ofRat : Rat → R
  decLt : (x y : R) → Decidable (x < y)
  decLe : (x y : R) → Decidable (x ≤ y)

namespace Arith

section Operations

variable {R : Type} [Arith R]

instance (priority := low) instOfNat (n : Nat) : OfNat R n := ⟨ofInt (n : Int)⟩

instance instDecidableLT (x y : R) : Decidable (x < y) := decLt x y

instance instDecidableLE (x y : R) : Decidable (x ≤ y) := decLe x y

/-- The quotient of two naturals; decimal constants are written this way. -/
def ratio (a b : Nat) : R := ofInt (a : Int) / ofInt (b : Int)

/-- `1 / 10 ^ k`. -/
def tenth (k : Nat) : R := ratio 1 (Power.ten k)

/-- Negative infinity. -/
def negInfinity : R := -infinity

/-- Greater of two numbers, the first unless the second is strictly greater. -/
def larger (a b : R) : R := if a < b then b else a

/-- Smaller of two numbers, the first unless the second is strictly smaller. -/
def smaller (a b : R) : R := if b < a then b else a

/-- Inequality by `==`: a not-a-number differs from zero. -/
def nonzero (x : R) : Bool := !(x == 0)

/-- A coefficient without dust: one of size below `10⁻¹³`, or that is no number, counts as zero. -/
def withoutDust (x : R) : R := if tenth 13 ≤ abs x then x else 0

/-- Sign as a number: zero for either zero, not-a-number for itself. -/
def sign (x : R) : R := if 0 < x then 1 else if x < 0 then -1 else if x == 0 then 0 else x

/-- Clamping that keeps `x` when it equals a bound. -/
def clampKeep (lo hi x : R) : R :=
  if isNaN lo then lo else if isNaN hi then hi else
  let y := if x < lo then lo else x
  if hi < y then hi else y

/-- Clamping that answers with the bound when `x` equals it. -/
def clampBound (lo hi x : R) : R :=
  let y := if isNaN x then x else if lo < x then x else lo
  if isNaN y then y else if y < hi then y else hi

/-- Nearest multiple of `10⁻¹²`. -/
def roundTwelve (x : R) : R := rint (x * ofInt (Power.ten 12 : Nat)) / ofInt (Power.ten 12 : Nat)

/-- The integer a number rounds up to; `none` for the special values. -/
def ceilInt? (x : R) : Option Int := (toRat? x).map Rat.ceil

/-- Whether the time `now` has reached the instant `deadline`. -/
def reached (now deadline : R) : Bool := decide (deadline ≤ now)

end Operations

end Arith

end MipPump
