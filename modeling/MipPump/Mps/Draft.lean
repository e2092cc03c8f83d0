import MipPump.Instance
import MipPump.Number.Binary64

/-!
# A problem under construction

The sections of a file add rows, columns, right-hand sides, ranges and bounds to a draft, and
`Draft.asGiven` reads the instance off it.

* What is set first stays: a second coefficient of a column in a row, a second right-hand side, a
  second range and a second setting of a bound change nothing.
* What names no row or no column is passed over.
* A column without a line of bounds lies between zero and infinity, or between zero and one if it
  stands between integer markers.  A negative upper bound opens the lower bound if none is given.
* A row with a range becomes an equation with a further column that takes up the slack.
-/

namespace MipPump
namespace Mps

/-- What a line of bounds sets. -/
inductive BoundCode where
  | upper
  | lower
  | fixed
  | free
  | minusInfinity
  | plusInfinity
  | binary
  | integerLower
  | integerUpper
  | semiContinuous
  deriving DecidableEq, Repr

/-- A column under construction. -/
structure ColumnDraft where
  name : String
  /-- Whether the column stands between integer markers. -/
  marked : Bool
  /-- The kind that a line of bounds gives it. -/
  kind : Option Kind := none
  lower : Option Float := none
  upper : Option Float := none
  /-- Whether a line of bounds names the column. -/
  bounded : Bool := false
  /-- Coefficients by the number of the row. -/
  entries : List (Nat × Float) := []

/-- A row under construction; one without a sense is an objective. -/
structure RowDraft where
  name : String
  sense : Option Sense

/-- A problem under construction. -/
structure Draft where
  direction : Direction := .minimize
  rows : List RowDraft := []
  columns : List ColumnDraft := []
  /-- Right-hand sides by the number of the row. -/
  rhs : List (Nat × Float) := []
  /-- Ranges by the number of the row, in the order of the file. -/
  ranges : List (Nat × Float) := []
  /-- Whether the columns that follow stand between integer markers. -/
  marking : Bool := false

section Values

/-- The value of a number in a list of numbered values. -/
def valueOf? (values : List (Nat × Float)) (i : Nat) : Option Float :=
  (values.find? (·.1 == i)).map (·.2)

/-- Adds a numbered value unless the number has one. -/
def addFirst (values : List (Nat × Float)) (i : Nat) (x : Float) : List (Nat × Float) :=
  if (valueOf? values i).isSome then values else values ++ [(i, x)]

end Values

section Bounds

/-- Whether a code sets the lower bound. -/
def BoundCode.setsLower : BoundCode → Bool
  | lower | fixed | free | minusInfinity | binary | integerLower => true
  | upper | plusInfinity | integerUpper | semiContinuous => false

/-- Whether a code sets the upper bound. -/
def BoundCode.setsUpper : BoundCode → Bool
  | upper | fixed | free | plusInfinity | binary | integerUpper | semiContinuous => true
  | lower | minusInfinity | integerLower => false

/-- Whether a code comes with a value. -/
def BoundCode.hasValue : BoundCode → Bool
  | upper | lower | fixed | integerLower | integerUpper | semiContinuous => true
  | free | minusInfinity | plusInfinity | binary => false

/-- Sets the bounds of a column that are not set yet. -/
def BoundCode.apply (code : BoundCode) (value : Float) (c : ColumnDraft) : ColumnDraft :=
  match code with
  | upper | semiContinuous => { c with upper := some value }
  | lower => { c with lower := some value }
  | fixed => { c with lower := some value, upper := some value }
  | free => { c with lower := some Arith.negInfinity, upper := some Arith.infinity }
  | minusInfinity => { c with lower := some Arith.negInfinity }
  | plusInfinity => { c with upper := some Arith.infinity }
  | binary => { c with lower := some 0, upper := some 1, kind := some .binary }
  | integerLower => { c with lower := some value, kind := some .integer }
  | integerUpper => { c with upper := some value, kind := some .integer }

/-- What a line of bounds does to a column: nothing if it would set a bound that is set. -/
def ColumnDraft.bound (code : BoundCode) (value : Float) (c : ColumnDraft) : ColumnDraft :=
  let c := { c with bounded := true }
  if code.setsLower && c.lower.isSome || code.setsUpper && c.upper.isSome then c
  else code.apply value c

end Bounds

namespace Draft

section Reading

/-- The number of the first row of a name. -/
def rowNumber? (d : Draft) (name : String) : Option Nat := d.rows.findIdx? (·.name == name)

/-- Adds a row; several rows may have one name. -/
def addRow (d : Draft) (name : String) (sense : Option Sense) : Draft :=
  { d with rows := d.rows ++ [{ name, sense }] }

/-- The columns with a last one of the given name. -/
def openColumn (d : Draft) (name : String) : List ColumnDraft :=
  match d.columns.getLast? with
  | some c => if c.name == name then d.columns else d.columns ++ [{ name, marked := d.marking }]
  | none => [{ name, marked := d.marking }]

/-- Adds an entry to the last column, or to a new one if the last has another name. -/
def addEntry (d : Draft) (column row : String) (value : Float) : Draft :=
  let columns := d.openColumn column
  match d.rowNumber? row with
  | none => { d with columns }
  | some i =>
      { d with columns := columns.modify (columns.length - 1) fun c =>
          { c with entries := addFirst c.entries i value } }

/-- Sets a right-hand side. -/
def addRhs (d : Draft) (row : String) (value : Float) : Draft :=
  match d.rowNumber? row with
  | some i => { d with rhs := addFirst d.rhs i value }
  | none => d

/-- Sets a range; an objective has none. -/
def addRange (d : Draft) (row : String) (value : Float) : Draft :=
  match d.rowNumber? row with
  | some i =>
      if (d.rows[i]?.bind (·.sense)).isSome then { d with ranges := addFirst d.ranges i value }
      else d
  | none => d

/-- Applies a line of bounds to the first column of a name. -/
def addBound (d : Draft) (code : BoundCode) (column : String) (value : Float) : Draft :=
  match d.columns.findIdx? (·.name == column) with
  | some j => { d with columns := d.columns.modify j (ColumnDraft.bound code value) }
  | none => d

end Reading

section Finishing

/-- Size from which on a bound is infinite. -/
def infiniteSize : Float := Arith.ofInt (Power.ten 20 : Nat)

/-- A lower bound, open if it is low enough. -/
def openBelow (x : Float) : Float := if x ≤ -infiniteSize then Arith.negInfinity else x

/-- An upper bound, open if it is high enough. -/
def openAbove (x : Float) : Float := if infiniteSize ≤ x then Arith.infinity else x

/-- The lower bound of a column. -/
def lowerOf (c : ColumnDraft) : Float :=
  c.lower.getD (if c.upper.any fun u => decide (u < 0) then Arith.negInfinity else 0)

/-- The upper bound of a column. -/
def upperOf (c : ColumnDraft) : Float :=
  c.upper.getD (if c.marked && !c.bounded then 1 else Arith.infinity)

/-- The kind of a column. -/
def kindOf (c : ColumnDraft) : Kind :=
  c.kind.getD (if c.marked then .integer else .continuous)

/-- The coefficient of a column in a row. -/
def coefficient (c : ColumnDraft) (i : Nat) : Float := (valueOf? c.entries i).getD 0

/-- The slack column of a row with a range. -/
def slackName (row : String) : String := "MPS_Rg" ++ row

/-- The coefficient of a slack column in its row. -/
def slackSign : Sense → Float
  | .atLeast => -1
  | _ => 1

/-- The right-hand side of a row with a range. -/
def rangedRhs (sense : Sense) (rhs range : Float) : Float :=
  if sense = .equal && 0 < range then rhs + range else rhs

/-- The number of the objective: the first row without a sense. -/
def objective? (d : Draft) : Option Nat := d.rows.findIdx? (·.sense.isNone)

/-- The rows with a sense, each with its number, name and sense. -/
def constraints (d : Draft) : List (Nat × String × Sense) :=
  d.rows.zipIdx.filterMap fun (row, i) => row.sense.map fun sense => (i, row.name, sense)

/-- The constraint of a number with a range. -/
def slackOf? (d : Draft) (range : Nat × Float) : Option (String × Float) :=
  (d.rows[range.1]?).map fun row => (row.name, range.2)

/-- The slack columns: name of the row and range, in the order of the ranges. -/
def slacks (d : Draft) : List (String × Float) := d.ranges.filterMap d.slackOf?

/-- The coefficients of a row. -/
def rowOf (d : Draft) (i : Nat) (sense : Sense) : List Float :=
  d.columns.map (fun c => Arith.withoutDust (coefficient c i))
    ++ d.ranges.map fun (k, _) => if k = i then slackSign sense else 0

/-- The sense of a row. -/
def senseOf (d : Draft) (i : Nat) (sense : Sense) : Sense :=
  if (valueOf? d.ranges i).isSome then .equal else sense

/-- The right-hand side of a row. -/
def rhsOf (d : Draft) (i : Nat) (sense : Sense) : Float :=
  let rhs := (valueOf? d.rhs i).getD 0
  match valueOf? d.ranges i with
  | some range => rangedRhs sense rhs range
  | none => rhs

/-- The instance of a draft, its costs as the file gives them. -/
def asGiven (d : Draft) (name : String) : Instance Float :=
  let cost (c : ColumnDraft) : Float := d.objective?.elim 0 (coefficient c)
  let constant := d.objective?.bind (valueOf? d.rhs)
  let rows := d.constraints
  let slacks := d.slacks
  { name
    cost := d.columns.map cost ++ slacks.map fun _ => 0
    constant := constant.elim 0 (-·)
    direction := .minimize
    coefficients := rows.map fun (i, _, sense) => d.rowOf i sense
    rhs := rows.map fun (i, _, sense) => d.rhsOf i sense
    senses := rows.map fun (i, _, sense) => d.senseOf i sense
    lb := d.columns.map (fun c => openBelow (lowerOf c)) ++ slacks.map fun _ => 0
    ub := d.columns.map (fun c => openAbove (upperOf c))
      ++ slacks.map fun (_, r) => openAbove (Arith.abs r)
    kinds := d.columns.map kindOf ++ slacks.map fun _ => .continuous
    names := d.columns.map (·.name) ++ slacks.map fun (row, _) => slackName row
    rowNames := rows.map fun (_, row, _) => row }

end Finishing

end Draft

end Mps
end MipPump
