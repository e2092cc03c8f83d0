import MipPump.Vec
import MipPump.Random.Seed

/-!
# The random generator

A permuted congruential generator: 128 bits of state go through an affine map, and each output is
a rotation of the folded state.  A 32-bit draw takes the lower half of a 64-bit output and keeps
the upper half for the next 32-bit draw.

* `unit` draws a number in `[0, 1)` with 53 random bits;
* `uniform` draws from an interval;
* `integer` draws from a range of integers without bias, by rejection.
-/

namespace MipPump
namespace Random

/-- State of the generator. -/
structure Generator where
  state : BitVec 128
  increment : BitVec 128
  /-- Upper half of an output, kept for the next 32-bit draw. -/
  half : Option UInt32
  deriving DecidableEq

namespace Generator

section Words

/-- Multiplier of the affine map. -/
def multiplier : BitVec 128 := 0x2360ed051fc65da44385df649fccf645#128

/-- Applies the affine map once. -/
def advance (g : Generator) : Generator :=
  { g with state := g.state * multiplier + g.increment }

/-- The 128-bit word with the given halves. -/
def wide (high low : UInt64) : BitVec 128 :=
  (high.toBitVec.zeroExtend 128 <<< 64) ||| low.toBitVec.zeroExtend 128

/-- The generator of a seed. -/
def ofSeed (seed : Nat) : Generator :=
  let w := startWords seed
  let start := wide (w.getD 0 0) (w.getD 1 0)
  let sequence := wide (w.getD 2 0) (w.getD 3 0)
  let g : Generator := { state := 0, increment := (sequence <<< 1) ||| 1, half := none }
  let g := g.advance
  ({ g with state := g.state + start }).advance

/-- Output of a state: the two halves folded together and rotated by the top six bits. -/
def output (s : BitVec 128) : UInt64 :=
  let folded : BitVec 64 := (s >>> 64).truncate 64 ^^^ s.truncate 64
  UInt64.ofBitVec (folded.rotateRight (s >>> 122).toNat)

/-- Draws 64 bits. -/
def next64 (g : Generator) : UInt64 × Generator :=
  let g := g.advance
  (output g.state, g)

/-- Draws 32 bits. -/
def next32 (g : Generator) : UInt32 × Generator :=
  match g.half with
  | some h => (h, { g with half := none })
  | none =>
      let (x, g) := g.next64
      (x.toUInt32, { g with half := some (x >>> 32).toUInt32 })

end Words

section Numbers

variable {R : Type} [Arith R]

/-- Draws a number in `[0, 1)`. -/
def unit (g : Generator) : R × Generator :=
  let (x, g) := g.next64
  (Arith.ofInt (x >>> 11).toNat / Arith.ofInt (Power.two 53 : Nat), g)

/-- Draws a number between `low` and `high`. -/
def uniform (low high : R) (g : Generator) : R × Generator :=
  let (u, g) := unit g
  (low + (high - low) * u, g)

/-- Repeats a draw. -/
def many {α : Type} (draw : Generator → α × Generator) : Nat → Generator → List α × Generator
  | 0, g => ([], g)
  | n + 1, g =>
      let (x, g) := draw g
      let (xs, g) := many draw n g
      (x :: xs, g)

end Numbers

section Integers

/-- Draws below `n` from words of `bits` bits: the upper part of the product of a word with `n`,
unless the lower part is below `least`, where the draw is repeated. -/
def below (draw : Generator → Nat × Generator) (bits n least : Nat) :
    (fuel : Nat) → Generator → Nat × Generator
  | 0, g => (0, g)
  | fuel + 1, g =>
      let (x, g) := draw g
      let product := x * n
      if product % Power.two bits < least then below draw bits n least fuel g
      else (product / Power.two bits, g)

/-- Attempts after which a rejected draw is given up; each attempt fails with a probability below
one half. -/
def attempts : Nat := 4096

/-- Draws a natural below `n`, which is at most `2 ^ 64`. -/
def natBelow (n : Nat) (g : Generator) : Nat × Generator :=
  if n ≤ 1 then (0, g)
  else if n ≤ Power.two 32 then
    below (fun g => let (x, g) := g.next32; (x.toNat, g)) 32 n ((Power.two 32 - n) % n) attempts g
  else
    below (fun g => let (x, g) := g.next64; (x.toNat, g)) 64 n ((Power.two 64 - n) % n) attempts g

/-- Draws an integer with `low ≤ x < high`. -/
def integer {R : Type} (low high : Int) (g : Generator) : Except (Fault R) (Int × Generator) :=
  let limit : Int := (Power.two 63 : Nat)
  if high ≤ low || low < -limit || limit < high then .error .emptyRange
  else
    let (x, g) := natBelow (high - low).toNat g
    .ok (low + x, g)

end Integers

end Generator
end Random
end MipPump
