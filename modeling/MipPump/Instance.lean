import MipPump.Nested
import MipPump.Problem

/-!
# Instances

An instance is a mixed-integer problem in columns: costs, bounds, kinds and names of the variables
and coefficients, senses and right-hand sides of the rows.  It is always a minimisation; for a
maximisation the costs are negated when it is taken in, and `direction` remembers that.

* `Instance.ofColumns` checks that the columns agree in number;
* `Instance.takeIn` turns a maximisation into a minimisation;
* `Instance.summary` is a short description;
* `Instance.isIntegral` checks the integer variables of a solution;
* `Instance.problem` is the instance as a problem.
-/

namespace MipPump

/-- Which way the objective of a file goes. -/
inductive Direction where
  | minimize
  | maximize
  deriving DecidableEq, Repr

/-- The factor between the objective of a file and the one that is minimised. -/
def Direction.factor : Direction → Int
  | minimize => 1
  | maximize => -1

/-- A mixed-integer problem in columns. -/
structure Instance (R : Type) where
  name : String
  cost : List R
  /-- Constant part of the objective. -/
  constant : R
  direction : Direction
  coefficients : List (List R)
  rhs : List R
  senses : List Sense
  lb : List R
  ub : List R
  kinds : List Kind
  names : List String
  rowNames : List String

/-- Greatest length in bytes of a name that a solver keeps. -/
def longestName : Nat := 255

namespace Instance

section Building

variable {R : Type}

/-- The columns an instance is made of. -/
structure Columns (R : Type) where
  cost : List R
  /-- Coefficients, row by row or as one list. -/
  coefficients : Nested R
  senses : List Sense
  rhs : List R
  lb : List R
  ub : List R
  kinds : List Kind
  constant : R
  names : Option (List String)
  name : String

/-- Names made of a letter and a number. -/
def numbered (letter : String) (n : Nat) : List String :=
  (List.range n).map fun j => letter ++ toString j

/-- The instance of columns that agree in number. -/
def ofColumns (c : Columns R) : Except (Fault R) (Instance R) := do
  let n := c.cost.length
  let rows ← c.coefficients.rowsOf n
  if c.lb.length ≠ c.ub.length || c.ub.length ≠ c.kinds.length || c.kinds.length ≠ n then
    .error .columnCountsDiffer
  if c.rhs.length ≠ c.senses.length || c.senses.length ≠ rows.length then .error .rowCountsDiffer
  pure
    { name := c.name
      cost := c.cost
      constant := c.constant
      direction := .minimize
      coefficients := rows
      rhs := c.rhs
      senses := c.senses
      lb := c.lb
      ub := c.ub
      kinds := c.kinds
      names := c.names.getD (numbered "x" n)
      rowNames := numbered "c" rows.length }

/-- Takes an instance in whose costs follow the given direction: the costs of a maximisation are
negated. -/
def takeIn [Neg R] (direction : Direction) (m : Instance R) : Instance R :=
  match direction with
  | .minimize => { m with direction }
  | .maximize => { m with direction, cost := m.cost.map (-·), constant := -m.constant }

end Building

section Views

variable {R : Type}

/-- Number of variables: the number of names. -/
def numVars (m : Instance R) : Nat := m.names.length

/-- Number of rows. -/
def numRows (m : Instance R) : Nat := m.rowNames.length

/-- Number of variables of a kind. -/
def countKind (m : Instance R) (k : Kind) : Nat := m.kinds.count k

/-- A short description. -/
def summary (m : Instance R) : String :=
  "This model has " ++ toString m.numVars ++ " variables and " ++ toString m.numRows
    ++ " constraints\n\n=== Variables ===\n"
    ++ "Total binary variables: " ++ toString (m.countKind .binary) ++ "\n"
    ++ "Total integer variables: " ++ toString (m.countKind .integer) ++ "\n"
    ++ "Total continuous variables: " ++ toString (m.countKind .continuous) ++ "\n"

/-- The rows. -/
def rows (m : Instance R) : Rows R :=
  { coefficients := m.coefficients, senses := m.senses, rhs := m.rhs }

/-- The variable of a number. -/
def variableAt (m : Instance R) (j : Nat) : Except (Fault R) (Variable R) := do
  pure
    { index := j
      lb := ← Vec.get m.lb j
      ub := ← Vec.get m.ub j
      kind := ← Vec.get m.kinds j
      cost := ← Vec.get m.cost j
      name := ← Vec.get m.names j }

/-- The instance as a problem with one variable for every name. -/
def problem (m : Instance R) : Except (Fault R) (Problem R) := do
  let vars ← (List.range m.numVars).mapM m.variableAt
  pure { vars, rows := m.rows, offset := m.constant }

variable [Arith R]

/-- Whether the integer variables from number `i` on are integral up to `tol`. -/
def integralFrom (tol : R) (solution : List R) : (i : Nat) → List Kind → Except (Fault R) Bool
  | _, [] => .ok true
  | i, k :: rest =>
      if k.isIntegral then do
        let gap ← integralityGap (← Vec.get solution i)
        if tol < gap then pure false else integralFrom tol solution (i + 1) rest
      else integralFrom tol solution (i + 1) rest

/-- Whether the integer variables of a solution are integral up to `tol`. -/
def isIntegral (m : Instance R) (solution : List R) (tol : R) : Except (Fault R) Bool :=
  integralFrom tol solution 0 m.kinds

end Views

end Instance

end MipPump
