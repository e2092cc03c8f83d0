import MipPump.Ranking

/-!
# Perturbations

When a run repeats itself some integer variables of the candidate are moved by a step.

* `moveAway` moves values away from their rounding, towards the relaxation point;
* `Perturber.perturb` moves the variables that rank highest;
* `Perturber.restart` moves all variables whose displacement, with some random noise, exceeds one
  half, or twice the usual number of the highest ranked ones.
-/

namespace MipPump

section Moves

variable {R : Type} [Arith R]

/-- Direction in which a value moves: towards `x`, or if `x` agrees with it towards the bound with
more room, and down if there is equal room. -/
def moveDirection (x current lb ub : R) : R :=
  let toward := Arith.sign (x - current)
  if toward == 0 then (if current - lb < ub - current then 1 else -1) else toward

/-- Moves one value by a step; a move that the bounds undo goes the other way. -/
def moveValue (step x current lb ub : R) : R :=
  let direction := moveDirection x current lb ub
  let target := Arith.clampBound lb ub (current + direction * step)
  if target == current then Arith.clampBound lb ub (current - direction * step) else target

/-- Moves a vector by a step. -/
def moveAway (step : R) (values current lb ub : List R) : Except (Fault R) (List R) := do
  let points ← Vec.map2 Prod.mk values current
  let bounds ← Vec.map2 Prod.mk lb ub
  Vec.map2 (fun (p b : R × R) => moveValue step p.1 p.2 b.1 b.2) points bounds

end Moves

/-- A perturbed candidate and the positions that were moved. -/
structure Perturbed (R : Type) where
  candidate : List R
  positions : List Int

namespace Perturber

variable {R : Type} [Arith R]

section Selection

/-- Number of variables that a perturbation moves. -/
def flipCount (s : Settings R) (t : Table R) : Act R (Progress R) Int := do
  let count ← Act.ofExcept (s.flipCount t.numIntegers)
  let count ← if s.randomFlipCount
    then Progress.drawInteger (max 1 (count / 2)) (3 * count / 2 + 1)
    else pure count
  pure (min count t.numIntegers)

/-- Moves the variables of the given indices. -/
def flip (s : Settings R) (t : Table R) (point candidate : List R) (indices : List Int) :
    Act R (Progress R) (Perturbed R) := do
  let positions ← Act.ofExcept (Vec.pick t.position indices)
  let values ← Act.ofExcept (Vec.pick point indices)
  let current ← Act.ofExcept (Vec.pick candidate positions)
  let lb ← Act.ofExcept (Vec.pick t.intLb positions)
  let ub ← Act.ofExcept (Vec.pick t.intUb positions)
  let step ← Act.ofExcept (nearestNumber s.perturbationStep)
  let moved ← Act.ofExcept (moveAway step values current lb ub)
  let perturbed ← Act.ofExcept (Vec.placeAll candidate (positions.zip moved))
  Progress.recordFlips positions
  pure { candidate := perturbed, positions }

end Selection

section Perturbations

/-- Moves the variables that rank highest. -/
def perturb (s : Settings R) (t : Table R) (ranker : Ranker R) (point candidate : List R) :
    Act R (Progress R) (Perturbed R) := do
  let count ← flipCount s t
  let order ← ranker.rank t point (some candidate)
  flip s t point candidate (order.take count.toNat)

/-- Noise that a restart adds to a displacement; only a positive amount counts. -/
def noiseBounds : R × R := (-(Arith.ratio 3 10), Arith.ratio 7 10)

/-- The greater of a draw and zero. -/
def positivePart (x : R) : R := if Arith.isNaN x then x else if 0 < x then x else 0

/-- Variables whose displacement with noise exceeds one half. -/
def displaced (t : Table R) (point candidate : List R) : Act R (Progress R) (List Int) := do
  let values ← Act.ofExcept (t.integerValues point)
  let gaps ← Act.ofExcept (Vec.map2 (fun x c => Arith.abs (x - c)) values candidate)
  let draws ← Progress.drawUniform noiseBounds.1 noiseBounds.2 gaps.length
  let exceeds (gap x : R) : Bool := decide (Arith.ratio 1 2 < gap + positivePart x)
  let chosen := List.zipWith exceeds gaps draws
  Act.ofExcept (Vec.select chosen t.integers)

/-- Moves twice the usual number of variables that rank highest. -/
def restartTop (s : Settings R) (t : Table R) (ranker : Ranker R) (point candidate : List R) :
    Act R (Progress R) (Perturbed R) := do
  let count ← Act.ofExcept (s.flipCount t.numIntegers)
  let order ← ranker.rank t point (some candidate)
  flip s t point candidate (order.take (min (2 * count) t.numIntegers).toNat)

/-- The stronger perturbation of a restart. -/
def restart (s : Settings R) (t : Table R) (ranker : Ranker R) (point candidate : List R) :
    Act R (Progress R) (Perturbed R) := do
  if s.randomRestarts then
    let chosen ← displaced t point candidate
    if chosen.isEmpty then restartTop s t ranker point candidate
    else flip s t point candidate chosen
  else restartTop s t ranker point candidate

end Perturbations

end Perturber

end MipPump
