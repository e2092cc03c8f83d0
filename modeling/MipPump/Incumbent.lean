import MipPump.Fault

/-!
# What runs share

Runs that work on one problem share the best point known and a signal to stop.

* `Store.offer` replaces the incumbent only by a strictly better point, and `Store.offerAmount` does
  so for a cost that may be an integer of any size;
* `Token` is raised by hand or by the passing of a deadline.
-/

namespace MipPump

/-- A feasible point, its cost, and the name of the run that found it. -/
structure Incumbent (R : Type) where
  point : List R
  cost : R
  source : String

/-- The best point known and the costs of all points that were the best once, in order. -/
structure Store (R : Type) where
  best : Option (Incumbent R) := none
  history : List R := []

/-- A signal to stop. -/
structure Token (R : Type) where
  raised : Bool := false
  /-- The instant from which on the signal is up by itself. -/
  deadline : Option R := none

/-- What runs share. -/
structure Shared (R : Type) where
  store : Store R
  token : Option (Token R)

section Operations

variable {R : Type} [Arith R]

/-- Whether an offered cost beats the incumbent. -/
def Store.improves (s : Store R) (cost : R) : Bool :=
  match s.best with
  | none => true
  | some best => decide (cost < best.cost)

/-- Offers a point; answers whether it became the incumbent. -/
def Store.offer (s : Store R) (offered : Incumbent R) : Bool × Store R :=
  if s.improves offered.cost then
    (true, { best := some offered, history := s.history ++ [offered.cost] })
  else (false, s)

/-- An offer that does not improve leaves the store as it is. -/
theorem Store.offer_of_not_improves {s : Store R} {offered : Incumbent R}
    (h : s.improves offered.cost = false) : s.offer offered = (false, s) := by
  simp [offer, h]

/-- An offer that improves becomes the incumbent. -/
theorem Store.offer_of_improves {s : Store R} {offered : Incumbent R}
    (h : s.improves offered.cost = true) :
    s.offer offered = (true, ⟨some offered, s.history ++ [offered.cost]⟩) := by
  simp [offer, h]

/-- Whether a cost that may be an integer of any size beats the incumbent. -/
def Store.isBeatenBy (s : Store R) (cost : Amount R) : Bool :=
  match s.best with
  | none => true
  | some best => cost.isBelow best.cost

/-- Offers a point whose cost may be an integer of any size: the exact cost is compared, and the
nearest number is kept. -/
def Store.offerAmount (s : Store R) (point : List R) (cost : Amount R) (source : String) :
    Except (Fault R) (Bool × Store R) :=
  if s.isBeatenBy cost then do
    let cost ← cost.toNumber
    pure (true, { best := some { point, cost, source }, history := s.history ++ [cost] })
  else pure (false, s)

/-- To offer a number as an amount is to offer it. -/
theorem Store.offerAmount_number (s : Store R) (offered : Incumbent R) :
    s.offerAmount offered.point (.number offered.cost) offered.source = .ok (s.offer offered) := by
  rcases h : s.best with _ | best
  · simp [offerAmount, offer, isBeatenBy, improves, h, Amount.toNumber, bind, Except.bind, pure,
      Except.pure]
  · by_cases hc : offered.cost < best.cost <;>
      simp [offerAmount, offer, isBeatenBy, improves, h, hc, Amount.toNumber, bind, Except.bind,
        pure, Except.pure]

/-- Cost of the incumbent, infinite if there is none. -/
def Store.bestCost (s : Store R) : R :=
  match s.best with
  | some best => best.cost
  | none => Arith.infinity

/-- A token whose deadline is `budget` from now on, or that has none. -/
def Token.ofBudget (now : R) (budget : Option R) : Token R := { deadline := budget.map (now + ·) }

/-- Raises the signal. -/
def Token.cancel (t : Token R) : Token R := { t with raised := true }

/-- Whether the signal is up. -/
def Token.isCancelled (t : Token R) (now : R) : Bool :=
  t.raised || t.deadline.any (Arith.reached now)

/-- Whether there is a signal and it is up. -/
def Shared.isCancelled (s : Shared R) (now : R) : Bool := s.token.any (·.isCancelled now)

/-- Raises the signal if there is one. -/
def Shared.cancel (s : Shared R) : Shared R := { s with token := s.token.map (·.cancel) }

end Operations

end MipPump
