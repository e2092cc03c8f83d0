import MipPump.Domain

/-!
# Temporary changes of bounds

A scope remembers the bounds of a variable before the first change that is made through it, and
closing the scope brings them back, the latest first.  Bounds are remembered per index as it was
given: an index and its negative form are remembered apart, and because the restoration runs
backwards the earlier memory is the one that stays.

* `Scoped.tighten` changes bounds inside a scope;
* `Scoped.restore` undoes all changes of a scope;
* `Scoped.within` opens a scope for an action and closes it whatever the action does.
-/

namespace MipPump

/-- A domain with an open scope. -/
structure Scoped (R : Type) where
  domain : Domain R
  /-- Bounds before the first change of each index, the latest first. -/
  saved : List (BoundChange R) := []

namespace Scoped

variable {R : Type} [Arith R]

/-- Remembers the bounds of an index unless they are remembered already. -/
def remember (i : Int) : Act R (Scoped R) Unit := fun s =>
  if s.saved.any (·.index == i) then .ok () s
  else
    match s.domain.bounds i with
    | .ok (lb, ub) => .ok () { s with saved := { index := i, lb, ub } :: s.saved }
    | .error e => .error e s

/-- Acts on the domain and leaves the scope alone. -/
def onDomain {α : Type} (act : Act R (Domain R) α) : Act R (Scoped R) α :=
  Act.zoom (·.domain) (fun s domain => { s with domain }) act

/-- Changes the bounds of a variable inside the scope. -/
def tighten (i : Int) (lb ub : R) : Act R (Scoped R) Unit := do
  remember i
  onDomain (Domain.tighten i lb ub)

/-- Fixes a variable inside the scope. -/
def fix (i : Int) (value : R) : Act R (Scoped R) Unit := tighten i value value

/-- Brings remembered bounds back in the given order. -/
def bringBack : List (BoundChange R) → Act R (Domain R) Unit
  | [] => pure ()
  | c :: rest => do
      Domain.tighten c.index c.lb c.ub
      bringBack rest

/-- Undoes all changes made through the scope, which is empty afterwards. -/
def restore : Act R (Scoped R) Unit := fun s =>
  match bringBack s.saved s.domain with
  | .ok _ domain => .ok () { domain, saved := [] }
  | .error e domain => .error e { s with domain }

/-- Closes a scope. -/
def close : Scoped R → Except (Fault R) Unit × Domain R := fun s =>
  match restore s with
  | .ok _ s => (.ok (), s.domain)
  | .error e s => (.error e, s.domain)

/-- Runs an action in a scope of its own, with a companion state that the scope leaves alone.
Leaving the scope undoes its changes; a fault of the action is passed on unless undoing itself
stops with one. -/
def within {τ α : Type} (body : Act R (Scoped R × τ) α) : Act R (Domain R × τ) α := fun (d, t) =>
  match body ({ domain := d }, t) with
  | .ok a (s, t) =>
      match s.close with
      | (.ok _, d) => .ok a (d, t)
      | (.error e, d) => .error e (d, t)
  | .error e (s, t) =>
      match s.close with
      | (.ok _, d) => .error e (d, t)
      | (.error e, d) => .error e (d, t)

end Scoped

end MipPump
