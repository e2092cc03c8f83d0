import MipPump.Table

/-!
# The objective of a projection

A projection looks for a point of the relaxation near a candidate, and also at the cost of the
problem.

* `blend` joins the cost, scaled to the norm of a distance objective, with weights of the
  variables: `alpha · scale · cost + (1 - alpha) · weights`;
* `projection` puts the distance to a candidate into such an objective.  A variable at its lower
  bound contributes `x - lb` and one at its upper bound `ub - x`, both linear; a variable strictly
  between its bounds contributes `|x - value|` as a target.
-/

namespace MipPump

/-- What a relaxation is solved for: a linear objective and targets. -/
structure Goal (R : Type) where
  objective : List R
  targets : List (Target R)

namespace Goal

variable {R : Type} [Arith R]

/-- Factor that brings the cost to the norm of a distance objective. -/
def costScale (t : Table R) : R :=
  let norm := Vec.norm t.cost
  if 0 < norm then Arith.sqrt (Arith.ofInt t.numIntegers) / norm else 0

/-- Joins the cost with weights of the variables. -/
def blend (t : Table R) (alpha : R) (weights : List R) : Except (Fault R) (List R) :=
  if alpha ≤ 0 then .ok weights
  else Vec.map2 (fun c w => alpha * costScale t * c + (1 - alpha) * w) t.cost weights

/-- Weight of the distance in a projection. -/
def distanceWeight (alpha : R) : R := if alpha ≤ 0 then 1 else 1 - alpha

/-- The goal that leads to a candidate. -/
def projection (t : Table R) (alpha : R) (candidate : List R) : Except (Fault R) (Goal R) := do
  let atLower ← Vec.map2 (fun x lb => decide (x ≤ lb)) candidate t.intLb
  let atUpper ← Vec.map2 (fun x ub => decide (ub ≤ x)) candidate t.intUb
  let upper ← Vec.select atUpper t.integers
  let lower ← Vec.select atLower t.integers
  let pulls : List (Int × R) := upper.map (·, -1) ++ lower.map (·, 1)
  let linear ← Vec.placeAll (Vec.zeros t.numVars) pulls
  let interior := List.zipWith (fun l u => !(l || u)) atLower atUpper
  let indices ← Vec.select interior t.integers
  let values ← Vec.select interior candidate
  let weight := distanceWeight alpha
  let targets := List.zipWith (fun index value => { index, value, weight }) indices values
  pure { objective := ← blend t alpha linear, targets }

/-- The goal that the cost of the problem sets. -/
def ofCost (t : Table R) : Goal R := { objective := t.cost, targets := [] }

end Goal

end MipPump
