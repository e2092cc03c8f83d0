import MipPump.Number.Amount
import MipPump.Number.Word
import MipPump.Text.Quoted

/-!
# Faults and actions

A fault is the cause for which a computation stops without a result; `Fault.message` words it.
An action changes a state and may stop with a fault, and the state it leaves behind is kept in
either case, so that the caller sees what had been changed before the fault.
-/

namespace MipPump

/-- What a rounded point can have wrong with it. -/
inductive CandidateDefect where
  | wrongLength
  | notIntegral
  | outsideBounds
  deriving DecidableEq, Repr

/-- The named families of options. -/
inductive ChoiceFamily where
  | rounding
  | tieBreak
  | ranking
  | alphaSchedule
  | failureReason
  deriving DecidableEq, Repr

/-- The options whose range is checked. -/
inductive RangedOption where
  | maxRestarts
  | timeBudget
  | perturbationFraction
  | perturbationStep
  | visitPenalty
  | stallPatience
  | stallCeiling
  | initialAlpha
  | alphaDecay
  | alphaStep
  | cycleAlphaTolerance
  | cycleHistorySize
  | toleranceEpsilon
  | verbosityInterval
  deriving DecidableEq, Repr

/-- Why a computation stops without a result. -/
inductive Fault (R : Type) where
  /-- The relaxation has no point inside the current bounds. -/
  | relaxationInfeasible (status : Option Nat)
  /-- The relaxation improves without limit under the objective it was given. -/
  | relaxationUnbounded (status : Option Nat)
  /-- The solver stopped without a point and without a verdict. -/
  | solverStopped (status : Nat)
  /-- The solver refuses its input. -/
  | solverRefused
  /-- The solver was told to keep a value that is no number. -/
  | valueRefused
  /-- A change of bounds would leave a lower bound above the upper bound. -/
  | crossedBounds (index : Int) (lb ub : R)
  /-- Propagation leaves a variable without a value. -/
  | emptiedDomain (index : Int) (lb ub : R)
  /-- A rounded point breaks what every rounding promises. -/
  | badCandidate (defect : CandidateDefect)
  /-- An option is outside its range. -/
  | outOfRange (option : RangedOption) (value : Amount R)
  /-- A text names no member of a family. -/
  | unknownChoice (family : ChoiceFamily) (text : String)
  /-- A policy was given without a name. -/
  | unnamedChoice (family : ChoiceFamily)
  /-- An option that needs a value was given without one. -/
  | missingValue
  /-- There is no such option. -/
  | unknownOption
  /-- Ranking by locks is asked for without constraint rows. -/
  | locksNeedRows
  /-- The columns of an instance do not agree in number. -/
  | columnCountsDiffer
  /-- The rows of an instance do not agree in number. -/
  | rowCountsDiffer
  /-- A pool of runs has no worker. -/
  | noWorkers
  /-- A history has a negative capacity. -/
  | negativeCapacity
  /-- An index addresses no entry. -/
  | noSuchEntry
  /-- Two vectors have lengths that do not fit together. -/
  | lengthsDiffer
  /-- A value that is no number has no nearest integer. -/
  | notANumber
  /-- An infinity has no nearest integer. -/
  | infiniteInteger
  /-- An integer is too large for the number or the machine word that is to hold it. -/
  | integerTooLarge
  /-- A count of entries is negative or beyond all memory. -/
  | impossibleCount
  /-- A generator has a negative seed. -/
  | negativeSeed
  /-- An integer is to be drawn from a range that is empty or wider than a machine word. -/
  | emptyRange
  /-- A number is to be drawn from an interval without a finite width. -/
  | unboundedRange
  /-- A number is to be drawn from an interval that ends before it begins. -/
  | reversedRange
  /-- A file does not describe a problem. -/
  | unreadable
  /-- A run takes more steps than its settings allow. -/
  | stepsExhausted

/-- Words of a family of options. -/
def ChoiceFamily.name : ChoiceFamily → String
  | rounding => "RoundingPolicy"
  | tieBreak => "TieBreak"
  | ranking => "RankingPolicy"
  | alphaSchedule => "AlphaSchedule"
  | failureReason => "FailureReason"

/-- The name of an option and the range it has to lie in. -/
def RangedOption.rule : RangedOption → String
  | maxRestarts => "max_restarts must be >= 0"
  | timeBudget => "time_budget must be >= 0"
  | perturbationFraction => "perturbation_fraction must be in (0, 1]"
  | perturbationStep => "perturbation_step must be >= 1"
  | visitPenalty => "visit_penalty must be >= 0"
  | stallPatience => "stall_patience must be >= 1"
  | stallCeiling => "stall_ceiling must be >= 0"
  | initialAlpha => "initial_alpha must be in [0, 1]"
  | alphaDecay => "alpha_decay must be in [0, 1]"
  | alphaStep => "alpha_step must be >= 0"
  | cycleAlphaTolerance => "cycle_alpha_tolerance must be >= 0"
  | cycleHistorySize => "cycle_history_size must be >= 1"
  | toleranceEpsilon => "tolerance_epsilon must be in (0, 0.5)"
  | verbosityInterval => "verbosity_interval must be >= 1"

def CandidateDefect.message : CandidateDefect → String
  | wrongLength => "candidate has the wrong length"
  | notIntegral => "candidate is not integral"
  | outsideBounds => "candidate violates variable bounds"

section Messages

variable {R : Type}

/-- A solver status in parentheses, if there is one. -/
def statusSuffix : Option Nat → String
  | none => ""
  | some n => " (solver status " ++ toString n ++ ")"

/-- A pair of bounds in brackets. -/
def boundsText (number : R → String) (lb ub : R) : String :=
  "[" ++ number lb ++ ", " ++ number ub ++ "]"

/-- The wording of a fault; it is empty for a malformed input. -/
def Fault.message (number : R → String) : Fault R → String
  | relaxationInfeasible status => "LP relaxation is infeasible" ++ statusSuffix status
  | relaxationUnbounded status => "LP relaxation is unbounded" ++ statusSuffix status
  | solverStopped status => "LP solve ended with status " ++ toString status ++ " and no solution"
  | crossedBounds index lb ub =>
      "Infeasible tightening for variable " ++ toString index ++ ": " ++ boundsText number lb ub
  | emptiedDomain index lb ub =>
      "Propagation emptied the domain of variable " ++ toString index ++ ": "
        ++ boundsText number lb ub
  | badCandidate defect => defect.message
  | outOfRange option value => option.rule ++ ", got " ++ value.text number
  | unknownChoice family text => Text.quoted text ++ " is not a valid " ++ family.name
  | unnamedChoice family => "[] is not a valid " ++ family.name
  | locksNeedRows => "locks ranking needs the model constraint matrix"
  | columnCountsDiffer => "obj, lb, ub and var_types must have the same length"
  | rowCountsDiffer => "A, sense and b must have the same number of rows"
  | noWorkers => "max_workers must be greater than 0"
  | negativeCapacity => "maxlen must be non-negative"
  | _ => ""

end Messages

section Numbers

variable {R : Type} [Arith R]

/-- The number nearest to an integer, which must not lie beyond all numbers. -/
def nearestNumber (n : Int) : Except (Fault R) R :=
  match Amount.nearest? n with
  | some x => .ok x
  | none => .error .integerTooLarge

/-- The number nearest to an amount. -/
def Amount.toNumber : Amount R → Except (Fault R) R
  | integer n => nearestNumber n
  | number x => .ok x

/-- Refuses an integer that does not fit a machine word. -/
def requireWord {R : Type} (n : Int) : Except (Fault R) Unit :=
  if Word.fitsLong n then .ok () else .error .integerTooLarge

end Numbers

/-- An action on a state that may stop with a fault. -/
abbrev Act (R σ α : Type) := EStateM (Fault R) σ α

namespace Act

variable {R σ τ α : Type}

/-- A computation that changes nothing. -/
def ofExcept : Except (Fault R) α → Act R σ α
  | .ok a => fun s => .ok a s
  | .error e => fun s => .error e s

/-- Runs an action on a part of the state. -/
def zoom (get : σ → τ) (put : σ → τ → σ) (act : Act R τ α) : Act R σ α := fun s =>
  match act (get s) with
  | .ok a t => .ok a (put s t)
  | .error e t => .error e (put s t)

/-- Runs an action on the first component of the state. -/
def first (act : Act R σ α) : Act R (σ × τ) α := zoom (·.1) (fun s a => (a, s.2)) act

/-- Runs an action on the second component of the state. -/
def second (act : Act R τ α) : Act R (σ × τ) α := zoom (·.2) (fun s b => (s.1, b)) act

/-- The result of an action together with the state it leaves. -/
def split (act : Act R σ α) (s : σ) : Except (Fault R) α × σ :=
  match act s with
  | .ok a s => (.ok a, s)
  | .error e s => (.error e, s)

end Act

end MipPump
