import MipPump.Oracle.LinearProgram

/-!
# The simplex method with bounds

The columns of a rational program and the activities of its rows are quantities with ranges.  A
tableau expresses some quantities, its rows, through the others, its columns.

* First the quantities of the rows are brought into their ranges: a row that violates its range is
  exchanged with a column that can move the right way.  If there is no such column the program is
  infeasible.
* Then columns that improve the cost are moved until a range stops them.  If none does the program
  is unbounded.

Both phases always take the first quantity that qualifies, by number, so they cannot cycle.  All
arithmetic is exact.
-/

namespace MipPump
namespace Simplex

/-- A quantity with its number, range and current value. -/
structure Quantity where
  number : Nat
  range : Range
  value : Rat

/-- A quantity expressed through the columns. -/
structure Row where
  head : Quantity
  entries : List Rat

structure Tableau where
  columns : List Quantity
  rows : List Row
  /-- The cost expressed through the columns. -/
  cost : List Rat

/-- What a solve finds. -/
inductive Verdict where
  | optimal (values : List Rat)
  | infeasible
  | unbounded
  /-- The steps did not suffice. -/
  | undecided

section Quantities

/-- Whether a value may still grow. -/
def Quantity.canGrow (q : Quantity) : Bool :=
  match q.range.upper with
  | some u => decide (q.value < u)
  | none => true

/-- Whether a value may still shrink. -/
def Quantity.canShrink (q : Quantity) : Bool :=
  match q.range.lower with
  | some l => decide (l < q.value)
  | none => true

/-- Whether a quantity can move in the direction of the sign of `slope`. -/
def Quantity.canMove (q : Quantity) (slope : Rat) : Bool :=
  if 0 < slope then q.canGrow else if slope < 0 then q.canShrink else false

/-- The bound that a value violates, if there is one. -/
def Quantity.violated? (q : Quantity) : Option Rat :=
  match q.range.lower, q.range.upper with
  | some l, some u =>
      if q.value < l then some l else if u < q.value then some u else none
  | some l, none => if q.value < l then some l else none
  | none, some u => if u < q.value then some u else none
  | none, none => none

/-- A value inside a range, zero if the range has no end. -/
def Range.start (r : Range) : Rat :=
  match r.lower, r.upper with
  | some l, _ => l
  | none, some u => u
  | none, none => 0

end Quantities

section Moves

/-- Sum of products of two lists. -/
def combine : List Rat → List Rat → Rat
  | a :: as, b :: bs => (if a = 0 then 0 else a * b) + combine as bs
  | _, _ => 0

/-- Moves the column `j` by `delta`, and the rows with it. -/
def Tableau.move (t : Tableau) (j : Nat) (delta : Rat) : Tableau :=
  { t with
    columns := t.columns.modify j fun q => { q with value := q.value + delta }
    rows := t.rows.map fun row =>
      let a := row.entries.getD j 0
      if a = 0 then row
      else { row with head := { row.head with value := row.head.value + a * delta } } }

/-- Entries of a row solved for the column `j`. -/
def solvedFor (entries : List Rat) (j : Nat) : List Rat :=
  let pivot := entries.getD j 0
  (entries.map fun a => if a = 0 then 0 else -a / pivot).set j (1 / pivot)

/-- Entries after the column `j` is replaced by an expression. -/
def substitute (entries expression : List Rat) (j : Nat) : List Rat :=
  let a := entries.getD j 0
  if a = 0 then entries
  else List.zipWith (fun x e => if e = 0 then x else x + a * e) (entries.set j 0) expression

/-- Exchanges the row `i` with the column `j`. -/
def Tableau.exchange (t : Tableau) (i j : Nat) : Tableau :=
  match t.rows[i]?, t.columns[j]? with
  | some row, some column =>
      let expression := solvedFor row.entries j
      let others := t.rows.map fun r => { r with entries := substitute r.entries expression j }
      { columns := t.columns.set j row.head
        rows := others.set i { head := column, entries := expression }
        cost := substitute t.cost expression j }
  | _, _ => t

/-- The least number of some candidates with its payload. -/
def leastNumber {α : Type} (candidates : List (Nat × α)) : Option α :=
  (candidates.foldl (fun (best : Option (Nat × α)) c =>
    match best with
    | none => some c
    | some b => if c.1 < b.1 then some c else some b) none).map (·.2)

end Moves

section Feasibility

/-- The first row, by number, that violates its range, with the violated bound. -/
def Tableau.violatedRow? (t : Tableau) : Option (Nat × Row × Rat) :=
  leastNumber (t.rows.zipIdx.filterMap fun (row, i) =>
    row.head.violated?.map fun bound => (row.head.number, i, row, bound))

/-- The first column, by number, that can move a row in the direction `sign`. -/
def Tableau.helpfulColumn? (t : Tableau) (row : Row) (sign : Rat) : Option Nat :=
  let candidates := (t.columns.zip row.entries).zipIdx
  leastNumber ((candidates.filter fun ((q, a), _) => q.canMove (sign * a)).map
    fun ((q, _), j) => (q.number, j))

/-- Brings all rows into their ranges; the answer says whether that is possible, and there is none
if the steps do not suffice. -/
def Tableau.repair : (fuel : Nat) → Tableau → Option (Bool × Tableau)
  | 0, _ => none
  | fuel + 1, t =>
      match t.violatedRow? with
      | none => some (true, t)
      | some (i, row, bound) =>
          let needed := bound - row.head.value
          match t.helpfulColumn? row needed with
          | none => some (false, t)
          | some j =>
              let moved := t.move j (needed / row.entries.getD j 0)
              Tableau.repair fuel (moved.exchange i j)

end Feasibility

section Optimality

/-- The first column, by number, that improves the cost when it moves, with the direction. -/
def Tableau.improvingColumn? (t : Tableau) : Option (Nat × Rat) :=
  let candidates := (t.columns.zip t.cost).zipIdx
  leastNumber ((candidates.filter fun ((q, c), _) => q.canMove (-c)).map
    fun ((q, c), j) => (q.number, j, if 0 < c then -1 else 1))

/-- How far a quantity may move at a rate, if something stops it. -/
def Quantity.room? (q : Quantity) (rate : Rat) : Option Rat :=
  let limit := if 0 < rate then q.range.upper else if rate < 0 then q.range.lower else none
  limit.map fun l => let d := (l - q.value) / rate; if d < 0 then 0 else d

/-- What stops a move: the column itself or a row. -/
structure Stop where
  distance : Rat
  number : Nat
  row : Option Nat

/-- The nearer of two stops, of equal ones the one with the smaller number. -/
def Stop.nearer (a b : Stop) : Stop :=
  if b.distance < a.distance then b
  else if a.distance < b.distance then a
  else if b.number < a.number then b else a

/-- The first stop of the column `j` when it moves in a direction. -/
def Tableau.stop? (t : Tableau) (j : Nat) (direction : Rat) : Option Stop :=
  let own := t.columns[j]?.bind fun q =>
    (q.room? direction).map fun d => ({ distance := d, number := q.number, row := none } : Stop)
  let rows := t.rows.zipIdx.filterMap fun (row, i) =>
    (row.head.room? (direction * row.entries.getD j 0)).map fun d =>
      ({ distance := d, number := row.head.number, row := some i } : Stop)
  (own.toList ++ rows).foldl
    (fun best s => some (match best with | none => s | some b => b.nearer s)) none

/-- Values of the first `n` quantities. -/
def Tableau.values (t : Tableau) (n : Nat) : List Rat :=
  let quantities := t.columns ++ t.rows.map (·.head)
  (List.range n).map fun k => ((quantities.find? (·.number == k)).map (·.value)).getD 0

/-- Improves the cost until nothing is left to improve. -/
def Tableau.improve (n : Nat) : (fuel : Nat) → Tableau → Verdict
  | 0, _ => .undecided
  | fuel + 1, t =>
      match t.improvingColumn? with
      | none => .optimal (t.values n)
      | some (j, direction) =>
          match t.stop? j direction with
          | none => .unbounded
          | some s =>
              let moved := t.move j (direction * s.distance)
              match s.row with
              | none => Tableau.improve n fuel moved
              | some i => Tableau.improve n fuel (moved.exchange i j)

end Optimality

section Solving

/-- A sparse row as a list of `n` entries; entries of one column add up. -/
def dense (n : Nat) (terms : List (Nat × Rat)) : List Rat :=
  terms.foldl (fun entries (j, a) => entries.modify j (· + a)) (List.replicate n 0)

/-- The tableau of a program: the rows expressed through the columns. -/
def Tableau.of (p : RationalProgram) : Tableau :=
  let n := p.ranges.length
  let columns : List Quantity := p.ranges.zipIdx.map fun (range, j) =>
    { number := j, range, value := Range.start range }
  let start := columns.map (·.value)
  { columns
    rows := p.rows.zipIdx.map fun ((terms, range), i) =>
      let entries := dense n terms
      { head := { number := n + i, range, value := combine entries start }, entries }
    cost := p.cost }

/-- Solves a program with at most `fuel` steps in each phase. -/
def solveWithin (fuel : Nat) (p : RationalProgram) : Verdict :=
  if p.ranges.any Range.isEmpty || p.rows.any (·.2.isEmpty) then .infeasible
  else
    match (Tableau.of p).repair fuel with
    | none => .undecided
    | some (false, _) => .infeasible
    | some (true, t) => t.improve p.ranges.length fuel

/-- Solves a program; the number of steps is bounded by the number of ways to choose and place the
quantities. -/
def solve (p : RationalProgram) : Verdict :=
  solveWithin (Nat.pow 6 (p.ranges.length + p.rows.length) + 1) p

end Solving

end Simplex
end MipPump
