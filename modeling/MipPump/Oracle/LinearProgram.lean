import MipPump.Problem

/-!
# Linear programs

A linear program has columns with bounds and costs and sparse rows.  `LinearProgram.exact` takes
the exact rational values of all numbers.

* A coefficient of a row that is dust counts as zero.
* Bounds of size `10²⁰` and above count as absent.
* A right-hand side of that size on the wrong side makes its row impossible.
* Any other infinity stands for a number of size `10¹⁰⁰`.
-/

namespace MipPump

/-- A column of a linear program. -/
structure Column (R : Type) where
  lb : R
  ub : R
  cost : R

/-- A row of a linear program, its terms by column number. -/
structure LinearRow (R : Type) where
  terms : List (Nat × R)
  sense : Sense
  rhs : R

/-- Minimise the cost of the columns inside their bounds, subject to the rows. -/
structure LinearProgram (R : Type) where
  columns : List (Column R)
  rows : List (LinearRow R)

/-- A quantity that is held between bounds, of which either may be absent. -/
structure Range where
  lower : Option Rat := none
  upper : Option Rat := none

/-- A linear program in rational numbers: ranges and costs of the columns, and rows with the range
of their activity. -/
structure RationalProgram where
  ranges : List Range
  cost : List Rat
  rows : List (List (Nat × Rat) × Range)

section Ranges

/-- Whether a range has no value. -/
def Range.isEmpty (r : Range) : Bool :=
  match r.lower, r.upper with
  | some l, some u => decide (u < l)
  | _, _ => false

/-- A range without a value. -/
def Range.impossible : Range := { lower := some 1, upper := some 0 }

end Ranges

namespace LinearProgram

variable {R : Type} [Arith R]

/-- Size from which on a bound counts as infinite. -/
def infiniteSize : Rat := mkRat (Power.ten 20 : Nat) 1

/-- What an infinity stands for where it is no absent bound. -/
def infinityValue : Rat := mkRat (Power.ten 100 : Nat) 1

/-- The rational value of a number. -/
def rational (x : R) : Rat :=
  match Arith.toRat? x with
  | some q => q
  | none => if 0 < x then infinityValue else if x < 0 then -infinityValue else 0

/-- The range above a lower bound. -/
def atLeast (x : R) : Option Rat :=
  let q := rational x
  if q ≤ -infiniteSize then none else some q

/-- The range below an upper bound. -/
def atMost (x : R) : Option Rat :=
  let q := rational x
  if infiniteSize ≤ q then none else some q

/-- The range of a column. -/
def columnRange (c : Column R) : Range := { lower := atLeast c.lb, upper := atMost c.ub }

/-- The range that a sense and a right-hand side allow. -/
def activityRange (sense : Sense) (rhs : R) : Range :=
  let q := rational rhs
  match sense with
  | .atMost => if q ≤ -infiniteSize then .impossible else { upper := atMost rhs }
  | .atLeast => if infiniteSize ≤ q then .impossible else { lower := atLeast rhs }
  | .equal =>
      if q ≤ -infiniteSize || infiniteSize ≤ q then .impossible
      else { lower := some q, upper := some q }
  | .other _ => {}

/-- The terms of a row in rational numbers. -/
def exactTerms (row : LinearRow R) : List (Nat × Rat) :=
  row.terms.filterMap fun (j, a) =>
    let a := Arith.withoutDust a
    if Arith.nonzero a then some (j, rational a) else none

/-- The linear program in rational numbers. -/
def exact (p : LinearProgram R) : RationalProgram :=
  { ranges := p.columns.map columnRange
    cost := p.columns.map fun c => rational c.cost
    rows := p.rows.map fun row => (exactTerms row, activityRange row.sense row.rhs) }

end LinearProgram

end MipPump
