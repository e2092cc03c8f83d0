import MipPump.Domain
import MipPump.Projection

/-!
# Relaxation oracles

An oracle answers with a point of the relaxation in the current bounds that is best for a goal.  It
may carry a state from one solve to the next, and it may stop with a fault.  A signal to stop can
arrive while it is at work, and its reply says so.
-/

namespace MipPump

/-- The answer of an oracle. -/
structure Reply (R σ : Type) where
  answer : Except (Fault R) (List R)
  /-- Whether the runs were told to stop during the solve. -/
  cancels : Bool := false
  /-- State of the oracle afterwards. -/
  next : σ

/-- A relaxation oracle with states of type `σ`. -/
abbrev Oracle (R σ : Type) := σ → Box R → Goal R → Reply R σ

end MipPump
