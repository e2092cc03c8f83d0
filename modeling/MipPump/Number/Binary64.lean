import MipPump.Number.Arith

/-!
# Binary floating point

A finite 64-bit number is `± m · 2 ^ e` with naturals `m < 2 ^ 53` and `-1074 ≤ e ≤ 971`.  This
module takes numbers apart into that form and puts them together again; rounding to an integer
and the exact rational value are computed on the parts.

* `decode` and `assemble` convert between a number and its parts;
* `nearest` rounds an arbitrary rational to the nearest number, a half going to the even one.
-/

namespace MipPump

/-- The parts of a binary floating-point number. -/
inductive Binary64 where
  /-- The value that is no number. -/
  | nan
  /-- An infinity with its sign. -/
  | inf (negative : Bool)
  /-- The value `± mantissa · 2 ^ exponent`. -/
  | finite (negative : Bool) (mantissa : Nat) (exponent : Int)
  deriving Repr, DecidableEq

namespace Binary64

/-- Takes a number apart. -/
def decode (x : Float) : Binary64 :=
  let bits := x.toBits.toNat
  let negative : Bool := Power.two 63 ≤ bits
  let exponent : Nat := bits / Power.two 52 % Power.two 11
  let fraction : Nat := bits % Power.two 52
  if exponent = 2047 then
    if fraction = 0 then inf negative else nan
  else if exponent = 0 then finite negative fraction (-1074)
  else finite negative (Power.two 52 + fraction) ((exponent : Int) - 1075)

/-- The number with the given sign and `magnitude = m · 2 ^ e`, where `m < 2 ^ 53` and either
`2 ^ 52 ≤ m` or `e = -1074`; an exponent that is too large gives an infinity. -/
def assemble (negative : Bool) (m : Nat) (e : Int) : Float :=
  let sign := if negative then Power.two 63 else 0
  let magnitude :=
    if m < Power.two 52 then m
    else if 971 < e then 2047 * Power.two 52
    else (e + 1075).toNat * Power.two 52 + (m - Power.two 52)
  Float.ofBits (UInt64.ofNat (sign + magnitude))

/-- Quotient of naturals rounded to the nearest natural, a half going to the even one. -/
def divRound (a b : Nat) : Nat :=
  let q := a / b
  let r := a % b
  if 2 * r < b then q
  else if b < 2 * r then q + 1
  else if q % 2 = 0 then q else q + 1

/-- The magnitude `a / b` as `m · 2 ^ e` with `m` rounded to 53 bits at most. -/
def significand (a b : Nat) : Nat × Int :=
  let estimate : Int := (Nat.log2 a : Int) - (Nat.log2 b : Int) - 52
  -- the quotient lies between `2 ^ (estimate + 51)` and `2 ^ (estimate + 53)`
  let fits (e : Int) : Bool :=
    if 0 ≤ e then decide (Power.two 52 * (b * Power.two e.toNat) ≤ a)
    else decide (Power.two 52 * b ≤ a * Power.two (-e).toNat)
  let e := if fits estimate then estimate else estimate - 1
  let e := max e (-1074)
  let m :=
    if 0 ≤ e then divRound a (b * Power.two e.toNat) else divRound (a * Power.two (-e).toNat) b
  if m = Power.two 53 then (Power.two 52, e + 1) else (m, e)

/-- The number nearest to a rational. -/
def nearest (q : Rat) : Float :=
  if q.num = 0 then Float.ofBits 0
  else
    let (m, e) := significand q.num.natAbs q.den
    assemble (q.num < 0) m e

/-- Exact value of a number that is finite. -/
def toRat? (x : Float) : Option Rat :=
  match decode x with
  | finite negative m e =>
      let magnitude : Rat :=
        if 0 ≤ e then mkRat (m * Power.two e.toNat) 1 else mkRat m (Power.two (-e).toNat)
      some (if negative then -magnitude else magnitude)
  | _ => none

/-- Rounds to an integer by a rule on magnitudes: the rule gets the sign, the integer part and
the remaining numerator and denominator of the fraction.  The sign of a zero is kept. -/
def integral (rule : Bool → Nat → Nat → Nat → Nat) (x : Float) : Float :=
  match decode x with
  | finite negative m e =>
      if 0 ≤ e then x
      else
        let scale := Power.two (-e).toNat
        let magnitude := Float.ofNat (rule negative (m / scale) (m % scale) scale)
        if negative then -magnitude else magnitude
  | _ => x

/-- Rounding towards negative infinity. -/
def floor (x : Float) : Float :=
  integral (fun negative whole part _ => if negative && part != 0 then whole + 1 else whole) x

/-- Rounding towards positive infinity. -/
def ceil (x : Float) : Float :=
  integral (fun negative whole part _ => if !negative && part != 0 then whole + 1 else whole) x

/-- Rounding to the nearest integer, a half going to the even neighbour. -/
def rint (x : Float) : Float :=
  integral (fun _ whole part scale =>
    if 2 * part < scale then whole
    else if scale < 2 * part then whole + 1
    else if whole % 2 = 0 then whole else whole + 1) x

/-- The arithmetic the program runs with. -/
instance instArithFloat : Arith Float where
  ofInt := Float.ofInt
  infinity := Float.ofBits 0x7ff0000000000000
  abs := Float.abs
  floor := floor
  ceil := ceil
  rint := rint
  sqrt := Float.sqrt
  isInf := Float.isInf
  isNaN := Float.isNaN
  same x y := x.toBits == y.toBits
  toRat? := toRat?
  ofRat := nearest
  decLt := Float.decLt
  decLe := Float.decLe

end Binary64

end MipPump
