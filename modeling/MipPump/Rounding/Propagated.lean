import MipPump.Domain.Scope
import MipPump.Propagation.Queue
import MipPump.Ranking
import MipPump.Rounding.Nearest

/-!
# Rounding with propagation

The integer variables are rounded one at a time in ranking order.  Each is rounded inside the domain
that the earlier ones left, fixed, and its rows are propagated before the next.  The changes are
made in the domain of the problem as well, through a scope that is closed at the end, also when a
domain becomes empty.

* `Fixing` is the state in between: the propagator and the values written so far;
* `fixVariable` rounds one variable, `fixAll` a list of them;
* `propagatedPoint` rounds a point.
-/

namespace MipPump
namespace Rounding

open Propagation

/-- The state between two variables, next to the scope. -/
structure Fixing (R : Type) where
  propagator : Propagator R
  /-- Values with their places in the candidate, the latest first. -/
  writes : List (Int × R) := []

variable {R : Type} [Arith R]

/-- Acts on the propagator. -/
def Fixing.onPropagator {α : Type} (act : Act R (Propagator R) α) : Act R (Fixing R) α :=
  Act.zoom (·.propagator) (fun f propagator => { f with propagator }) act

/-- The integral domain of a variable. -/
def integralDomain (eps : R) (bounds : R × R) : R × R :=
  (Arith.ceil (bounds.1 - eps), Arith.floor (bounds.2 + eps))

/-- Makes the changes of a propagation in the domain of the problem. -/
def followChanges : Changes R → Act R (Scoped R) Unit
  | [] => pure ()
  | (k, lb, ub) :: rest => do
      Scoped.tighten k lb ub
      followChanges rest

/-- Rounds one variable inside the domain that is left for it. -/
def fixVariable (tieBreak : TieBreak) (eps : R) (t : Table R) (point : List R) (j : Int) :
    Act R (Scoped R × Fixing R) Unit := do
  let (_, f) ← get
  let bounds ← Act.ofExcept (f.propagator.box.bounds j)
  let (lo, hi) := integralDomain eps bounds
  if hi < lo then throw (.emptiedDomain j lo hi)
  let x ← Act.ofExcept (Vec.get point j)
  let value := nearestValue Arith.clampKeep tieBreak eps lo hi x
  let changes ← Act.second (Fixing.onPropagator (Propagator.fix j value))
  Act.first (Scoped.fix j value)
  Act.first (followChanges changes)
  let place ← Act.ofExcept (Vec.get t.position j)
  Act.second (modify fun f => { f with writes := (place, value) :: f.writes })

/-- Rounds variables in order. -/
def fixAll (tieBreak : TieBreak) (eps : R) (t : Table R) (point : List R) :
    List Int → Act R (Scoped R × Fixing R) Unit
  | [] => pure ()
  | j :: rest => do
      fixVariable tieBreak eps t point j
      fixAll tieBreak eps t point rest

/-- What rounding may change. -/
structure Workspace (R : Type) where
  domain : Domain R
  progress : Progress R
  propagator : Propagator R

/-- Acts on the progress. -/
def Workspace.onProgress {α : Type} (act : Act R (Progress R) α) : Act R (Workspace R) α :=
  Act.zoom (·.progress) (fun w progress => { w with progress }) act

/-- Acts on the domain and the propagator, as a state between two variables. -/
def Workspace.onFixing {α : Type} (act : Act R (Domain R × Fixing R) α) : Act R (Workspace R) α :=
  Act.zoom (fun w => (w.domain, { propagator := w.propagator }))
    (fun w (domain, f) => { w with domain, propagator := f.propagator }) act

/-- Rounds variables in order inside a scope; answers with the values and their places. -/
def fixInScope (tieBreak : TieBreak) (eps : R) (t : Table R) (point : List R) (order : List Int) :
    Act R (Domain R × Fixing R) (List (Int × R)) :=
  Scoped.within do
    fixAll tieBreak eps t point order
    let (_, f) ← get
    pure f.writes.reverse

/-- Rounds the integer variables of a point one at a time. -/
def propagatedPoint (tieBreak : TieBreak) (eps : R) (t : Table R) (ranker : Ranker R)
    (point : List R) : Act R (Workspace R) (List R) := do
  let w ← get
  let bounds ← Act.ofExcept ((List.range t.numVars).mapM fun (j : Nat) => w.domain.bounds j)
  let box : Box R := { lb := bounds.map (·.1), ub := bounds.map (·.2) }
  set { w with propagator := { w.propagator with box } }
  let order ← Workspace.onProgress (ranker.rank t point none)
  let writes ← Workspace.onFixing (fixInScope tieBreak eps t point order)
  Act.ofExcept (Vec.placeAll (Vec.zeros t.numIntegers) writes)

end Rounding
end MipPump
