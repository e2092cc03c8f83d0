import MipPump.Table

/-!
# Distance to a candidate

The distance between a relaxation point and a candidate is the sum of the displacements of the
integer variables, displacements of at most `eps` counting as none.  The signs of the differences
are the linear objective that leads towards the candidate.
-/

namespace MipPump

/-- A measured distance. -/
structure Distance (R : Type) where
  value : R
  /-- One coefficient for every variable, zero for the continuous ones. -/
  weights : List R
  /-- Displacement of every integer variable. -/
  gaps : List R

namespace Distance

variable {R : Type} [Arith R]

/-- A difference, or zero if it is at most `eps`. -/
def difference (eps x candidate : R) : R :=
  let d := x - candidate
  if Arith.abs d ≤ eps then 0 else d

/-- Measures the distance between a point and a candidate. -/
def measure (t : Table R) (eps : R) (point candidate : List R) : Except (Fault R) (Distance R) := do
  let values ← t.integerValues point
  let differences ← Vec.map2 (difference eps) values candidate
  let gaps := differences.map Arith.abs
  let weights ← Vec.place (Vec.zeros t.numVars) t.integers (differences.map Arith.sign)
  pure { value := Vec.pairedSum gaps, weights, gaps }

/-- Whether the point agrees with the candidate. -/
def isZero (d : Distance R) : Bool := d.value == 0

end Distance

end MipPump
