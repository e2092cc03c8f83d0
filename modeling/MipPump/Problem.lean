import MipPump.Vec

/-!
# Mixed-integer problems

A problem lists variables with bounds, kinds and costs, and constraint rows; a smaller cost is
better.  The main notions are:

* `Problem.isFeasible` checks bounds, integrality and rows of a full point, each within a
  tolerance that grows with the right-hand side of the row;
* `Problem.objective` is the cost of a point.
-/

namespace MipPump

section Kinds

/-- What values a variable may take. -/
inductive Kind where
  | binary
  | integer
  | continuous
  /-- A code without a meaning here; such a variable is not held to integers. -/
  | other (code : String)
  deriving DecidableEq, Repr

def Kind.ofCode : String → Kind
  | "B" => binary
  | "I" => integer
  | "C" => continuous
  | code => other code

def Kind.code : Kind → String
  | binary => "B"
  | integer => "I"
  | continuous => "C"
  | other code => code

/-- Whether a variable takes integers only. -/
def Kind.isIntegral : Kind → Bool
  | binary => true
  | integer => true
  | _ => false

/-- How the activity of a row compares with its right-hand side. -/
inductive Sense where
  | atMost
  | atLeast
  | equal
  /-- A code without a meaning here. -/
  | other (code : String)
  deriving DecidableEq, Repr

def Sense.ofCode : String → Sense
  | "L" => atMost
  | "G" => atLeast
  | "E" => equal
  | code => other code

def Sense.code : Sense → String
  | atMost => "L"
  | atLeast => "G"
  | equal => "E"
  | other code => code

end Kinds

section Data

/-- A variable.  Its index says where a point holds its value. -/
structure Variable (R : Type) where
  index : Int
  lb : R
  ub : R
  kind : Kind
  cost : R
  name : String := ""

/-- Constraint rows: coefficients, senses and right-hand sides. -/
structure Rows (R : Type) where
  coefficients : List (List R)
  senses : List Sense
  rhs : List R

/-- A mixed-integer problem. -/
structure Problem (R : Type) where
  vars : List (Variable R)
  rows : Rows R
  /-- Constant part of the objective. -/
  offset : R

/-- A variable whose value is pulled towards `value`: moving away from it by one costs `weight`. -/
structure Target (R : Type) where
  index : Int
  value : R
  weight : R

end Data

section Feasibility

variable {R : Type} [Arith R]

/-- Distance of a number to the nearest integer; the special values have none. -/
def integralityGap (x : R) : Except (Fault R) R :=
  if Arith.isNaN x then .error .notANumber
  else if Arith.isInf x then .error .infiniteInteger
  else .ok (Arith.abs (x - Arith.rint x))

/-- Whether a value is inside the bounds of a variable, and integral if it has to be, up to
`tol`. -/
def Variable.admits (v : Variable R) (tol value : R) : Except (Fault R) Bool :=
  if value < v.lb - tol || v.ub + tol < value then .ok false
  else if v.kind.isIntegral then (integralityGap value).map fun gap => !decide (tol < gap)
  else .ok true

/-- Whether a point is inside the bounds of all variables and integral where it has to be. -/
def allAdmit (tol : R) (point : List R) : List (Variable R) → Except (Fault R) Bool
  | [] => .ok true
  | v :: rest => do
      let value ← Vec.get point v.index
      if ← v.admits tol value then allAdmit tol point rest else pure false

/-- Tolerance of a row: `tol`, scaled with the right-hand side. -/
def rowTolerance (tol rhs : R) : R := tol * Arith.larger 1 (Arith.abs rhs)

/-- Whether an activity keeps to a right-hand side; a sense without a meaning asks for nothing. -/
def Sense.holds (s : Sense) (tol activity rhs : R) : Bool :=
  match s with
  | atMost => !decide (rhs + rowTolerance tol rhs < activity)
  | atLeast => !decide (activity < rhs - rowTolerance tol rhs)
  | equal => !decide (rowTolerance tol rhs < Arith.abs (activity - rhs))
  | other _ => true

/-- Whether all activities keep to their rows. -/
def allHold (tol : R) : (activities rhs : List R) → List Sense → Except (Fault R) Bool
  | [], _, _ => .ok true
  | a :: activities, b :: rhs, s :: senses =>
      if s.holds tol a b then allHold tol activities rhs senses else .ok false
  | _ :: _, _, _ => .error .noSuchEntry

/-- Activities of the rows at a point. -/
def Rows.activities (rows : Rows R) (point : List R) : Except (Fault R) (List R) :=
  rows.coefficients.mapM fun row => Vec.dot row point

/-- Whether a full point keeps to bounds, integrality and rows within `tol`. -/
def Problem.isFeasible (p : Problem R) (tol : R) (point : List R) : Except (Fault R) Bool := do
  if ← allAdmit tol point p.vars then
    if p.rows.coefficients.isEmpty then pure true
    else
      let activities ← p.rows.activities point
      allHold tol activities p.rows.rhs p.rows.senses
  else pure false

/-- Cost of a point. -/
def Problem.objective (p : Problem R) (point : List R) : Except (Fault R) R :=
  (Vec.dot (p.vars.map (·.cost)) point).map (· + p.offset)

end Feasibility

end MipPump
