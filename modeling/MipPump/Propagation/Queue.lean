import MipPump.Propagation.Row

/-!
# Propagation to a fixpoint

A propagator holds the rows of a problem as upper rows and a box of its own.  Rows wait in a queue;
a row that tightens a variable sends the other rows of that variable to the queue.  The number of
visits is capped, so propagation ends even where it would creep towards a limit.

* `Propagator.build` takes the rows of a problem: an equation becomes two upper rows;
* `Propagator.propagate` works through a queue and reports every changed variable once;
* `Propagator.fix` fixes a variable and propagates its rows.
-/

namespace MipPump
namespace Propagation

/-- Rows, the rows of each variable, and the box they are propagated in. -/
structure Propagator (R : Type) where
  rows : List (UpperRow R)
  /-- For every variable the numbers of the rows it appears in. -/
  rowsOf : List (List Nat)
  limits : Limits R
  /-- Greatest number of row visits of one propagation. -/
  maxVisits : Int
  box : Box R

/-- Changed variables with their last bounds, in the order of their first change. -/
abbrev Changes (R : Type) := List (Nat × R × R)

/-- Rows that wait for a visit. -/
structure Queue where
  pending : List Int
  /-- The rows that are not to be added again. -/
  queued : List Int

section Building

variable {R : Type} [Arith R]

/-- The nonzero entries of a row with their columns. -/
def nonzeroTerms (row : List R) : List (Nat × R) :=
  (row.zipIdx.filter fun (x, _) => Arith.nonzero x).map fun (x, j) => (j, x)

/-- The upper rows that a row stands for. -/
def upperRows (terms : List (Nat × R)) (sense : Sense) (rhs : Except (Fault R) R) :
    Except (Fault R) (List (UpperRow R)) := do
  let negated := terms.map fun (j, x) => (j, -x)
  match sense with
  | .atMost => pure [⟨terms, ← rhs⟩]
  | .atLeast => pure [⟨negated, -(← rhs)⟩]
  | .equal => let b ← rhs; pure [⟨terms, b⟩, ⟨negated, -b⟩]
  | .other _ => pure []

/-- The upper rows of the rows from number `i` on; a row without nonzero entries has none. -/
def collectRows (rows : Rows R) : (i : Nat) → List (List R) → Except (Fault R) (List (UpperRow R))
  | _, [] => pure []
  | i, row :: rest => do
      let terms := nonzeroTerms row
      let first ←
        if terms.isEmpty then pure []
        else do upperRows terms (← Vec.get rows.senses i) (Vec.get rows.rhs i)
      let others ← collectRows rows (i + 1) rest
      pure (first ++ others)

/-- Whether all rows have one length. -/
def isRectangular (rows : List (List R)) : Bool :=
  match rows with
  | [] => true
  | row :: rest => rest.all fun other => other.length == row.length

/-- The propagator of constraint rows in a box. -/
def Propagator.build (rows : Rows R) (box : Box R) (kinds : List Kind) (tol epsilon : R)
    (maxRounds : Int) : Except (Fault R) (Propagator R) := do
  if !isRectangular rows.coefficients then .error .lengthsDiffer
  let upper ← collectRows rows 0 rows.coefficients
  if upper.any fun row => row.terms.any fun (j, _) => box.lb.length ≤ j then .error .noSuchEntry
  pure
    { rows := upper
      rowsOf := (List.range box.lb.length).map fun j =>
        (upper.zipIdx.filter fun (row, _) => row.terms.any (·.1 == j)).map (·.2)
      limits := { integral := kinds.map (·.isIntegral), tol, epsilon }
      maxVisits := maxRounds * (max 1 upper.length : Nat)
      box }

/-- A propagator without rows. -/
def Propagator.idle (box : Box R) : Propagator R :=
  { rows := []
    rowsOf := box.lb.map fun _ => []
    limits := { integral := [], tol := 0, epsilon := 0 }
    maxVisits := 0
    box }

/-- Improvement of a continuous bound that counts as one. -/
def defaultEpsilon : R := Arith.tenth 3

/-- Visits per row. -/
def defaultRounds : Int := 20

end Building

section Working

variable {R : Type} [Arith R]

/-- Notes the bounds of a variable, at the place of its first change. -/
def Changes.note (changes : Changes R) (k : Nat) (lb ub : R) : Changes R :=
  if changes.any (·.1 == k) then
    changes.map fun c => if c.1 == k then (k, lb, ub) else c
  else changes ++ [(k, lb, ub)]

/-- Adds a row unless it waits already. -/
def Queue.push (q : Queue) (r : Int) : Queue :=
  if q.queued.contains r then q
  else { pending := q.pending ++ [r], queued := r :: q.queued }

/-- Notes a tightened variable and queues the rows it appears in, but not the row `r` itself. -/
def Propagator.follow (p : Propagator R) (r : Int) (work : Changes R × Queue) (k : Nat) :
    Except (Fault R) (Changes R × Queue) := do
  let (lb, ub) ← p.box.bounds k
  let rows ← Vec.get p.rowsOf k
  pure
    ( work.1.note k lb ub
    , rows.foldl (fun (q : Queue) (other : Nat) => if (other : Int) == r then q else q.push other)
        work.2 )

/-- Acts on the box of a propagator. -/
def Propagator.onBox {α : Type} (act : Act R (Box R) α) : Act R (Propagator R) α :=
  Act.zoom (·.box) (fun p box => { p with box }) act

/-- Visits the row `r`. -/
def Propagator.visit (r : Int) : Act R (Propagator R) (List Nat) := do
  let p ← get
  let row ← Act.ofExcept (Vec.get p.rows r)
  Propagator.onBox (row.propagate p.limits)

/-- Works through a queue with at most `fuel` visits. -/
def Propagator.drain : (fuel : Nat) → Changes R → Queue → Act R (Propagator R) (Changes R)
  | 0, changes, _ => pure changes
  | fuel + 1, changes, q =>
      match q.pending with
      | [] => pure changes
      | r :: rest => do
          let tightened ← Propagator.visit r
          let p ← get
          let q : Queue := { pending := rest, queued := q.queued.filter (· != r) }
          let (changes, q) ← Act.ofExcept (tightened.foldlM (p.follow r) (changes, q))
          Propagator.drain fuel changes q

/-- Propagates a list of rows and everything that follows from them. -/
def Propagator.propagate (rows : List Int) : Act R (Propagator R) (Changes R) := do
  let p ← get
  Propagator.drain p.maxVisits.toNat [] { pending := rows, queued := rows }

/-- Takes over a box. -/
def Propagator.reset (box : Box R) : Act R (Propagator R) Unit :=
  modify fun p => { p with box }

/-- Fixes a variable and propagates its rows. -/
def Propagator.fix (i : Int) (value : R) : Act R (Propagator R) (Changes R) := do
  let p ← get
  let (lb, ub) ← Act.ofExcept (p.box.bounds i)
  if value < lb - p.limits.tol || ub + p.limits.tol < value then throw (.emptiedDomain i lb ub)
  let box ← Act.ofExcept (p.box.set i value value)
  set { p with box }
  let rows ← Act.ofExcept (Vec.get p.rowsOf i)
  Propagator.propagate (rows.map Int.ofNat)

end Working

end Propagation
end MipPump
