import MipPump.Vec

/-!
# Current bounds

A box holds a lower and an upper bound for every variable.  A domain is the box a relaxation is
solved in, together with the list of all changes that were made to it.

* `Domain.bounds` reads the bounds of a variable;
* `Domain.tighten` sets them and refuses a lower bound above the upper bound.
-/

namespace MipPump

/-- Lower and upper bounds of all variables. -/
structure Box (R : Type) where
  lb : List R
  ub : List R

/-- One change of the bounds of a variable. -/
structure BoundChange (R : Type) where
  index : Int
  lb : R
  ub : R

/-- The bounds in force and the changes that led to them, the earliest first. -/
structure Domain (R : Type) where
  box : Box R
  changes : List (BoundChange R) := []

section Boxes

variable {R : Type}

/-- Refuses an index that needs an unsigned machine word. -/
def requireIndex (i : Int) : Except (Fault R) Unit :=
  if Word.isUnsignedOnly i then .error .integerTooLarge else .ok ()

/-- The two bounds of a variable. -/
def Box.bounds (b : Box R) (i : Int) : Except (Fault R) (R × R) := do
  requireIndex i
  let lb ← Vec.get b.lb i
  let ub ← Vec.get b.ub i
  pure (lb, ub)

/-- Replaces both bounds of a variable. -/
def Box.set (b : Box R) (i : Int) (lb ub : R) : Except (Fault R) (Box R) := do
  requireIndex i
  pure { lb := ← Vec.set b.lb i lb, ub := ← Vec.set b.ub i ub }

end Boxes

namespace Domain

variable {R : Type} [Arith R]

/-- The bounds of a variable in force. -/
def bounds (d : Domain R) (i : Int) : Except (Fault R) (R × R) := d.box.bounds i

/-- Sets the bounds of a variable. -/
def tighten (i : Int) (lb ub : R) : Act R (Domain R) Unit := fun d =>
  if ub < lb then .error (.crossedBounds i lb ub) d
  else
    match d.box.set i lb ub with
    | .ok box => .ok () { box, changes := d.changes ++ [{ index := i, lb, ub }] }
    | .error e => .error e d

end Domain

end MipPump
