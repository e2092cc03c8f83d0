import MipPump.Domain
import MipPump.Problem

/-!
# Propagation of one row

A row `a · x ≤ b` bounds every variable in it: what the least activity of the other terms leaves
of the right-hand side limits the term of the variable.

* The least activity takes the lower bound of a variable with a positive coefficient and the upper
  bound otherwise; infinite contributions are counted and left out of the sum.
* With two infinite contributions the row says nothing; with one it bounds that variable only.
* The bound of an integer variable is rounded inwards; another bound counts only if it improves by
  more than `epsilon`.
* A new bound that crosses the opposite one by more than the tolerance empties the domain; one that
  crosses it by less is moved onto it.
-/

namespace MipPump
namespace Propagation

/-- A row `terms · x ≤ rhs` with its nonzero coefficients. -/
structure UpperRow (R : Type) where
  terms : List (Nat × R)
  rhs : R

/-- What the propagation of a row needs besides the bounds. -/
structure Limits (R : Type) where
  /-- Which variables take integers only. -/
  integral : List Bool
  /-- Violations up to `tol` are accepted. -/
  tol : R
  /-- Improvement of a bound of a variable that is not integral. -/
  epsilon : R

/-- The least activity of a row, term by term. -/
structure Activity (R : Type) where
  /-- Least contribution of each term. -/
  contributions : List R
  /-- Number of infinite contributions. -/
  infinite : Nat
  /-- Sum of the finite contributions. -/
  finite : R

variable {R : Type} [Arith R]

/-- Least value of a term inside the bounds of its variable. -/
def contribution (coef lb ub : R) : R := if 0 < coef then coef * lb else coef * ub

/-- Sums up contributions. -/
def Activity.of (contributions : List R) : Activity R :=
  { contributions
    infinite := (contributions.filter Arith.isInf).length
    finite := Vec.pairedSum (contributions.filter fun x => !Arith.isInf x) }

/-- The least activity of a row in a box. -/
def UpperRow.activity (row : UpperRow R) (box : Box R) : Except (Fault R) (Activity R) := do
  let contributions ← row.terms.mapM fun (k, coef) => do
    let (lb, ub) ← box.bounds k
    pure (contribution coef lb ub)
  pure (Activity.of contributions)

/-- Stops with a fault if even the least activity violates the row. -/
def UpperRow.checkActivity (row : UpperRow R) (limits : Limits R) (box : Box R) (a : Activity R) :
    Except (Fault R) Unit := do
  if a.infinite = 0 && decide (row.rhs + rowTolerance limits.tol row.rhs < a.finite) then
    match row.terms with
    | (k, _) :: _ =>
        let (lb, ub) ← box.bounds k
        .error (.emptiedDomain k lb ub)
    | [] => pure ()
  else pure ()

/-- Whether a term can be bounded at all. -/
def Activity.bounds (a : Activity R) (contribution : R) : Bool :=
  a.infinite != 1 || Arith.isInf contribution

/-- The bound that a row puts on the variable of a term. -/
def UpperRow.impliedBound (row : UpperRow R) (a : Activity R) (coef contribution : R) : R :=
  let residual := if Arith.isInf contribution then a.finite else a.finite - contribution
  (row.rhs - residual) / coef

/-- Improvement that a new bound has to exceed. -/
def Limits.margin (limits : Limits R) (isIntegral : Bool) : R :=
  Arith.larger limits.tol (if isIntegral then 0 else limits.epsilon)

/-- Lowers the upper bound of a variable to `bound` if that improves it enough; answers whether it
did. -/
def lowerUpper (limits : Limits R) (k : Nat) (isIntegral : Bool) (bound : R) :
    Act R (Box R) Bool := fun box =>
  match box.bounds k with
  | .error e => .error e box
  | .ok (lb, ub) =>
      let bound := if isIntegral then Arith.floor (bound + limits.tol) else bound
      if bound < ub - limits.margin isIntegral then
        if bound < lb - limits.tol then .error (.emptiedDomain k lb bound) box
        else .ok true { box with ub := box.ub.set k (Arith.larger bound lb) }
      else .ok false box

/-- Raises the lower bound of a variable to `bound` if that improves it enough; answers whether it
did. -/
def raiseLower (limits : Limits R) (k : Nat) (isIntegral : Bool) (bound : R) :
    Act R (Box R) Bool := fun box =>
  match box.bounds k with
  | .error e => .error e box
  | .ok (lb, ub) =>
      let bound := if isIntegral then Arith.ceil (bound - limits.tol) else bound
      if lb + limits.margin isIntegral < bound then
        if ub + limits.tol < bound then .error (.emptiedDomain k bound ub) box
        else .ok true { box with lb := box.lb.set k (Arith.smaller bound ub) }
      else .ok false box

/-- Bounds the variable of one term. -/
def UpperRow.tightenTerm (row : UpperRow R) (limits : Limits R) (a : Activity R) (k : Nat)
    (coef contribution : R) : Act R (Box R) Bool := do
  if a.bounds contribution then
    let isIntegral ← Act.ofExcept (Vec.get limits.integral k)
    let bound := row.impliedBound a coef contribution
    if 0 < coef then lowerUpper limits k isIntegral bound
    else raiseLower limits k isIntegral bound
  else pure false

/-- Bounds the variables of the given terms in order; answers with those that were tightened. -/
def UpperRow.tightenTerms (row : UpperRow R) (limits : Limits R) (a : Activity R) :
    List ((Nat × R) × R) → Act R (Box R) (List Nat)
  | [] => pure []
  | ((k, coef), contribution) :: rest => do
      let tightened ← row.tightenTerm limits a k coef contribution
      let others ← row.tightenTerms limits a rest
      pure (if tightened then k :: others else others)

/-- Propagates a row; answers with the variables it tightened, in the order of the terms. -/
def UpperRow.propagate (row : UpperRow R) (limits : Limits R) : Act R (Box R) (List Nat) := do
  let box ← get
  let a ← Act.ofExcept (row.activity box)
  Act.ofExcept (row.checkActivity limits box a)
  if 1 < a.infinite then pure []
  else row.tightenTerms limits a (row.terms.zip a.contributions)

end Propagation
end MipPump
