import MipPump.Instance
import MipPump.Oracle.Basic
import MipPump.Oracle.Elastic

/-!
# The relaxation of an instance

The linear relaxation is built once and changed in place: costs and bounds are replaced between
solves.  A target `|x - value|` needs an auxiliary column `d` with the rows `d - x ≥ -value` and
`d + x ≥ value`.  It is made when a variable first has a target and stays for ever, at no cost while
it is unused.

* `RelaxationState` holds the costs and the auxiliary columns;
* `RelaxationState.aim` puts a goal into them;
* `Relaxation.program` is the linear program they stand for in given bounds;
* `Relaxation.oracle` solves it.
-/

namespace MipPump

/-- The auxiliary column of a variable. -/
structure Auxiliary (R : Type) where
  /-- The index as it was given. -/
  index : Int
  /-- Number of the column it stands beside. -/
  column : Nat
  /-- The value that the rows measure the distance to. -/
  value : R
  cost : R

/-- What changes between solves, apart from the bounds. -/
structure RelaxationState (R : Type) where
  /-- Costs of the variables. -/
  cost : List R
  /-- Auxiliary columns in the order in which they were made. -/
  auxiliaries : List (Auxiliary R) := []
  /-- Number of solves so far, failed ones included. -/
  solves : Nat := 0

/-- What makes the oracle of an instance, together with its first state. -/
abbrev Solver (R σ : Type) := Instance R → Except (Fault R) (Oracle R σ × σ)

/-- What stays fixed. -/
structure Relaxation (R : Type) where
  numVars : Nat
  rows : List (LinearRow R)
  /-- Seconds after which a solve stops. -/
  timeLimit : Option R := none

section States

variable {R : Type} [Arith R]

/-- Takes all costs off the auxiliary columns. -/
def RelaxationState.relax (s : RelaxationState R) : RelaxationState R :=
  { s with auxiliaries := s.auxiliaries.map fun a => { a with cost := 0 } }

/-- Makes the auxiliary column of a variable at no cost. -/
def RelaxationState.addAuxiliary (numVars : Nat) (index : Int) (value : R) :
    Act R (RelaxationState R) Unit := do
  match Vec.position? numVars index with
  | none => throw .noSuchEntry
  | some column =>
      if Arith.isNaN value then throw .solverRefused
      let made : Auxiliary R := { index, column, value, cost := 0 }
      modify fun s => { s with auxiliaries := s.auxiliaries ++ [made] }

/-- Changes the auxiliary column of an index. -/
def RelaxationState.onAuxiliary (index : Int) (f : Auxiliary R → Auxiliary R)
    (s : RelaxationState R) : RelaxationState R :=
  { s with auxiliaries := s.auxiliaries.map fun a => if a.index == index then f a else a }

/-- Refuses a value that is no number. -/
def requireValue (x : R) : Except (Fault R) Unit :=
  if Arith.isNaN x then .error .valueRefused else .ok ()

/-- Aims one auxiliary column, which is made if there is none: first its cost, then its value. -/
def RelaxationState.pull (numVars : Nat) (t : Target R) : Act R (RelaxationState R) Unit := do
  if !(← get).auxiliaries.any (·.index == t.index) then
    RelaxationState.addAuxiliary numVars t.index t.value
  Act.ofExcept (requireValue t.weight)
  modify (RelaxationState.onAuxiliary t.index fun a => { a with cost := t.weight })
  Act.ofExcept (requireValue t.value)
  modify (RelaxationState.onAuxiliary t.index fun a => { a with value := t.value })

/-- Puts a goal into the costs and the auxiliary columns. -/
def RelaxationState.aim (numVars : Nat) (goal : Goal R) : Act R (RelaxationState R) Unit := do
  if goal.objective.length ≠ numVars then throw .solverRefused
  goal.objective.forM fun c => Act.ofExcept (requireValue c)
  modify fun s => ({ s with cost := goal.objective }).relax
  goal.targets.forM (RelaxationState.pull numVars)

end States

namespace Relaxation

variable {R : Type} [Arith R]

section Building

/-- The terms of a row; an entry other than zero needs a variable. -/
def rowTerms (numVars : Nat) (row : List R) : Except (Fault R) (List (Nat × R)) :=
  let entries := row.zipIdx.filter fun (x, _) => Arith.nonzero x
  if entries.any fun (_, j) => numVars ≤ j then .error .noSuchEntry
  else .ok (entries.map fun (x, j) => (j, x))

/-- Whether the solver takes a row: its coefficients are finite and its right-hand side is a
number. -/
def takesRow (row : LinearRow R) : Bool :=
  row.terms.all (fun (_, a) => !Arith.isInf a) && !Arith.isNaN row.rhs

/-- The row of a number; a row whose sense has no meaning is left out. -/
def rowAt (m : Instance R) (i : Nat) : Except (Fault R) (Option (LinearRow R)) := do
  let terms ← rowTerms m.numVars (← Vec.get m.coefficients i)
  let row : LinearRow R := { terms, sense := ← Vec.get m.senses i, rhs := ← Vec.get m.rhs i }
  match row.sense with
  | .other _ => pure none
  | _ => if takesRow row then pure (some row) else throw .solverRefused

/-- Whether the solver takes a column: its name is not too long and its bounds are numbers. -/
def takesColumn (v : Variable R) : Bool :=
  decide (v.name.utf8ByteSize ≤ longestName) && !Arith.isNaN v.lb && !Arith.isNaN v.ub

/-- The relaxation of an instance. -/
def ofInstance (m : Instance R) (timeLimit : Option R) : Except (Fault R) (Relaxation R) := do
  let vars := (← m.problem).vars
  if timeLimit.any fun limit => decide (limit < 0) then throw .solverRefused
  if !vars.all takesColumn then throw .solverRefused
  let rows ← (List.range m.numRows).mapM (rowAt m)
  pure { numVars := m.numVars, rows := rows.filterMap id, timeLimit }

/-- The state before the first solve. -/
def start (r : Relaxation R) : RelaxationState R := { cost := Vec.zeros r.numVars }

/-- The bounds of the columns before any change. -/
def columns (r : Relaxation R) (m : Instance R) : Box R :=
  { lb := m.lb.take r.numVars, ub := m.ub.take r.numVars }

/-- Sets the bounds of a column, the lower one first. -/
def setColumn (i : Int) (lb ub : R) : Act R (Box R) Unit := do
  let lower ← Act.ofExcept (Vec.set (← get).lb i lb)
  Act.ofExcept (requireValue lb)
  modify ({ · with lb := lower })
  Act.ofExcept (requireValue ub)
  let upper ← Act.ofExcept (Vec.set (← get).ub i ub)
  modify ({ · with ub := upper })

/-- Sets the bounds of a variable: those that are kept for it, and then those of its column.  There
may be variables without a column. -/
def tighten (i : Int) (lb ub : R) : Act R (Domain R × Box R) Unit := do
  Act.first (Domain.tighten i lb ub)
  Act.second (setColumn i lb ub)

end Building

section Solving

/-- The two rows of the auxiliary column with the number `d`. -/
def auxiliaryRows (a : Auxiliary R) (d : Nat) : List (LinearRow R) :=
  [ { terms := [(d, 1), (a.column, -1)], sense := .atLeast, rhs := -a.value }
  , { terms := [(d, 1), (a.column, 1)], sense := .atLeast, rhs := a.value } ]

/-- The columns of the variables. -/
def variableColumns (box : Box R) (cost : List R) : List (Column R) :=
  List.zipWith (fun (b : R × R) c => { lb := b.1, ub := b.2, cost := c }) (box.lb.zip box.ub) cost

/-- The linear program that a state stands for in given bounds. -/
def program (r : Relaxation R) (s : RelaxationState R) (box : Box R) : LinearProgram R :=
  { columns := variableColumns box s.cost
      ++ s.auxiliaries.map fun a => { lb := 0, ub := Arith.infinity, cost := a.cost }
    rows := r.rows ++ s.auxiliaries.zipIdx.flatMap fun (a, k) => auxiliaryRows a (r.numVars + k) }

/-- Code of the verdict that a program has no point. -/
def statusInfeasible : Nat := 3

/-- Code of the verdict that a program improves without limit. -/
def statusUnbounded : Nat := 5

/-- Code of a solve that ran out of time. -/
def statusTimeLimit : Nat := 9

/-- Code of a solve that gave up for numerical reasons. -/
def statusNumeric : Nat := 12

/-- Values of the variables at the optimum of a program. -/
def solveProgram (numVars : Nat) (p : LinearProgram R) : Except (Fault R) (List R) :=
  match Simplex.solveWithRoom p.exact with
  | .optimal values => .ok ((values.take numVars).map Arith.ofRat)
  | .infeasible => .error (.relaxationInfeasible (some statusInfeasible))
  | .unbounded => .error (.relaxationUnbounded (some statusUnbounded))
  | .undecided => .error (.solverStopped statusNumeric)

/-- The answer in a state that has been aimed. -/
def answer (r : Relaxation R) (s : RelaxationState R) (box : Box R) : Except (Fault R) (List R) :=
  if r.timeLimit.any fun limit => decide (limit ≤ 0) then .error (.solverStopped statusTimeLimit)
  else solveProgram r.numVars (r.program s box)

/-- The oracle that solves the relaxation. -/
def oracle (r : Relaxation R) : Oracle R (RelaxationState R) := fun s box goal =>
  match RelaxationState.aim r.numVars goal s with
  | .ok _ s => { answer := r.answer s box, next := { s with solves := s.solves + 1 } }
  | .error e s => { answer := .error e, next := s }

end Solving

/-- Solves the linear relaxation without a limit of time. -/
def solver : Solver R (RelaxationState R) := fun m => do
  let relaxation ← ofInstance m none
  pure (relaxation.oracle, relaxation.start)

end Relaxation

end MipPump
