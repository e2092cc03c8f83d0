import MipPump.Fault

/-!
# Outcomes of runs

A run ends with a point or with a reason for its failure, and leaves a trace with one record for
every iteration.  `bestOf` picks the best success of several runs.
-/

namespace MipPump

/-- What an iteration decided. -/
inductive Phase where
  /-- The root was solved and rounded. -/
  | init
  /-- The rounding is the next target. -/
  | measuring
  /-- The rounding is a solution. -/
  | converged
  /-- The rounding was perturbed. -/
  | perturbing
  /-- A new epoch began. -/
  | restarting
  /-- No restart was left. -/
  | stalledOut
  deriving DecidableEq, Repr

def Phase.name : Phase → String
  | init => "init"
  | measuring => "measuring"
  | converged => "converged"
  | perturbing => "perturbing"
  | restarting => "restarting"
  | stalledOut => "stalled_out"

/-- Why a run failed. -/
inductive FailureReason where
  | relaxationInfeasible
  | relaxationUnbounded
  | iterationLimit
  | maxRestartsExceeded
  | cancelled
  deriving DecidableEq, Repr

def FailureReason.name : FailureReason → String
  | relaxationInfeasible => "RelaxationInfeasible"
  | relaxationUnbounded => "RelaxationUnbounded"
  | iterationLimit => "IterationLimit"
  | maxRestartsExceeded => "MaxRestartsExceeded"
  | cancelled => "Cancelled"

def FailureReason.ofName? : String → Option FailureReason
  | "RelaxationInfeasible" => some relaxationInfeasible
  | "RelaxationUnbounded" => some relaxationUnbounded
  | "IterationLimit" => some iterationLimit
  | "MaxRestartsExceeded" => some maxRestartsExceeded
  | "Cancelled" => some cancelled
  | _ => none

/-- One iteration of a run. -/
structure Record (R : Type) where
  iteration : Int
  phase : Phase
  distance : R
  /-- Weight of the cost in the goal. -/
  alpha : R
  /-- Number of integer variables of the relaxation point that are not integral. -/
  fractional : Nat
  restarts : Int

/-- How a run ends. -/
inductive Ending (R : Type) where
  | success (point : List R) (objective : R)
  | failure (reason : FailureReason)

/-- The result of a run. -/
structure Outcome (R : Type) where
  ending : Ending R
  iterations : Int
  restarts : Int
  perturbations : Int
  alpha : R
  trace : List (Record R)

section Choice

variable {R : Type} [Arith R]

/-- Objective value of a success. -/
def Ending.objective? : Ending R → Option R
  | success _ objective => some objective
  | failure _ => none

def Ending.isSuccess : Ending R → Bool
  | success _ _ => true
  | failure _ => false

/-- The better of the best success so far and one more ending; an equal one does not replace it. -/
def betterOf (best : Option (Nat × R)) (next : Nat × Ending R) : Option (Nat × R) :=
  match next.2.objective?, best with
  | none, _ => best
  | some objective, none => some (next.1, objective)
  | some objective, some (i, least) =>
      if objective < least then some (next.1, objective) else some (i, least)

/-- Number of the success with the least objective value, the first of several, if there is one. -/
def bestOf (endings : List (Ending R)) : Option Nat :=
  ((endings.zipIdx.map fun (e, i) => (i, e)).foldl betterOf none).map (·.1)

end Choice

end MipPump
