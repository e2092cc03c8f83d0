import MipPump.Progress
import MipPump.Rounding.Nearest

/-!
# Randomized rounding

A value is moved into its bounds and rounded up with a probability equal to its fraction.  One
number is drawn for every integer variable, whatever the point is, so the generator moves on in the
same way for all points.  A fraction within `eps` of an integer is not left to chance.
-/

namespace MipPump
namespace Rounding

variable {R : Type} [Arith R]

/-- Rounds one value by a draw from `[0, 1)`. -/
def randomizedValue (eps lo hi x draw : R) : R :=
  let y := Arith.clampBound lo hi x
  let whole := Arith.floor y
  let part := y - whole
  let up :=
    if 1 - eps ≤ part then true
    else if part ≤ eps then false
    else decide (draw < part)
  Arith.clampBound lo hi (if up then whole + 1 else whole)

/-- Rounds the integer variables of a point by draws of the run's generator. -/
def randomizedPoint (eps : R) (t : Table R) (point : List R) : Act R (Progress R) (List R) := do
  let values ← Act.ofExcept (t.integerValues point)
  let draws ← Progress.drawUnits values.length
  let bounds := t.intLb.zip t.intUb
  let rule (b : R × R) (x : R × R) : R := randomizedValue eps b.1 b.2 x.1 x.2
  pure (List.zipWith rule bounds (values.zip draws))

end Rounding
end MipPump
