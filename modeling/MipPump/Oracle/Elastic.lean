import MipPump.Oracle.Simplex

/-!
# Programs with room for rounding

The numbers of a program are rounded, so a program without a point may be one that has a point but
for a rounding error.  Such a program is given room: every row may miss its range by a small
amount, and the rows are widened by the amounts that are least in total.

* `RationalProgram.elastic` measures the amounts;
* `RationalProgram.widened` is the program with widened rows;
* `Simplex.solveWithRoom` solves a program, and the widened one if it has no point.
-/

namespace MipPump

/-- Amount by which a point may miss a range. -/
def roomForRounding : Rat := mkRat 1 (Power.ten 6)

section Ranges

/-- A range whose ends cross by a rounding error shrinks to its lower end. -/
def Range.mended (r : Range) : Range :=
  match r.lower, r.upper with
  | some l, some u => if u < l && l ≤ u + roomForRounding then { r with upper := some l } else r
  | _, _ => r

/-- A range moved outwards at both ends. -/
def Range.widen (r : Range) (down up : Rat) : Range :=
  { lower := r.lower.map (· - down), upper := r.upper.map (· + up) }

end Ranges

namespace RationalProgram

/-- The program that asks for the least room: two columns for each row lift and lower its
activity. -/
def elastic (p : RationalProgram) : RationalProgram :=
  let n := p.ranges.length
  let room : Range := { lower := some 0, upper := some roomForRounding }
  { ranges := p.ranges.map Range.mended ++ p.rows.flatMap fun _ => [room, room]
    cost := p.cost.map (fun _ => 0) ++ p.rows.flatMap fun _ => [1, 1]
    rows := p.rows.zipIdx.map fun ((terms, range), i) =>
      ((n + 2 * i, 1) :: (n + 2 * i + 1, -1) :: terms, range) }

/-- The program with its rows widened by the room that an elastic point takes. -/
def widened (p : RationalProgram) (point : List Rat) : RationalProgram :=
  let n := p.ranges.length
  { p with
    ranges := p.ranges.map Range.mended
    rows := p.rows.zipIdx.map fun ((terms, range), i) =>
      (terms, range.widen (point.getD (n + 2 * i) 0) (point.getD (n + 2 * i + 1) 0)) }

end RationalProgram

namespace Simplex

/-- Solves a program; one without a point is solved with room for rounding. -/
def solveWithRoom (p : RationalProgram) : Verdict :=
  match solve p with
  | .infeasible =>
      match solve p.elastic with
      | .optimal point => solve (p.widened point)
      | _ => .infeasible
  | verdict => verdict

end Simplex
end MipPump
