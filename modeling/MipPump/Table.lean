import MipPump.Nested
import MipPump.Problem

/-!
# The table of variables

A table is taken from a list of variables once for a run.  It separates the integer variables from
the others and holds their integral bounds.  A candidate is a vector of values of the integer
variables, in the order of `integers`.

* `Table.ofVariables` builds the table;
* `Table.check` admits the candidates that are integral and inside the integral bounds;
* `Table.fullPoint` joins continuous values with a candidate.
-/

namespace MipPump

/-- Columns of the variables and the view of the integer ones. -/
structure Table (R : Type) where
  lb : List R
  ub : List R
  cost : List R
  kinds : List Kind
  /-- Indices of the integer variables. -/
  integers : List Int
  /-- Indices of the other variables. -/
  others : List Int
  /-- Integral lower bounds of the integer variables. -/
  intLb : List R
  /-- Integral upper bounds of the integer variables. -/
  intUb : List R
  /-- For every variable its place among the integer ones, or `-1`. -/
  position : List Int

namespace Table

variable {R : Type} [Arith R]

/-- Integral lower bound that a lower bound stands for. -/
def integralLower (lb : R) : R := Arith.ceil (lb - Arith.tenth 9)

/-- Integral upper bound that an upper bound stands for. -/
def integralUpper (ub : R) : R := Arith.floor (ub + Arith.tenth 9)

/-- The table of a list of variables, whose indices must fit a machine word. -/
def ofVariables (vars : List (Variable R)) : Except (Fault R) (Table R) := do
  let lb := vars.map (·.lb)
  let ub := vars.map (·.ub)
  let integers := (vars.filter (·.kind.isIntegral)).map (·.index)
  let others := (vars.filter (!·.kind.isIntegral)).map (·.index)
  (integers ++ others).forM requireWord
  let intLb ← Vec.pick lb integers
  let intUb ← Vec.pick ub integers
  let blank : List Int := List.replicate vars.length (-1)
  let position ← Vec.placeAll blank (integers.zipIdx.map fun (j, p) => (j, (p : Int)))
  pure
    { lb, ub
      cost := vars.map (·.cost)
      kinds := vars.map (·.kind)
      integers, others
      intLb := intLb.map integralLower
      intUb := intUb.map integralUpper
      position }

/-- Number of variables. -/
def numVars (t : Table R) : Nat := t.lb.length

/-- Number of integer variables. -/
def numIntegers (t : Table R) : Nat := t.integers.length

/-- What is wrong with a candidate, if anything. -/
def defect? (t : Table R) (candidate : List R) : Option CandidateDefect :=
  if candidate.length ≠ t.numIntegers then some .wrongLength
  else if !candidate.all fun x => x == Arith.rint x then some .notIntegral
  else if (List.zipWith (fun x lb => decide (lb ≤ x)) candidate t.intLb).all id
      && (List.zipWith (fun x ub => decide (x ≤ ub)) candidate t.intUb).all id then none
  else some .outsideBounds

/-- Admits a candidate that is integral and inside the integral bounds. -/
def check (t : Table R) (candidate : List R) : Except (Fault R) Unit :=
  match t.defect? candidate with
  | none => .ok ()
  | some d => .error (.badCandidate d)

/-- Admits an array that is a candidate. -/
def checkArray (t : Table R) (x : Nested R) : Except (Fault R) Unit := do
  let (shape, entries) ← x.array
  if shape = [t.numIntegers] then t.check entries else .error (.badCandidate .wrongLength)

/-- Values of the integer variables at a point. -/
def integerValues (t : Table R) (point : List R) : Except (Fault R) (List R) :=
  Vec.pick point t.integers

/-- A point with the values of the integer variables replaced by a candidate. -/
def fullPoint (t : Table R) (point candidate : List R) : Except (Fault R) (List R) :=
  Vec.place point t.integers candidate

/-- Number of integer variables whose value is farther than `tol` from an integer. -/
def countFractional (t : Table R) (point : List R) (tol : R) : Except (Fault R) Nat :=
  (t.integerValues point).map fun values =>
    (values.filter fun x => decide (tol < Arith.abs (x - Arith.rint x))).length

end Table

end MipPump
