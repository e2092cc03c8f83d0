import MipPump.Fault

/-!
# Settings of a pump

The options of a run with their defaults, and the check that admits them.

* `Options` holds the numbers and switches;
* `RequestedSettings` adds the four policies by name, as a user gives them;
* `Settings` adds them as members of their families;
* `RequestedSettings.toSettings` turns the second into the third or stops with the first option
  that is out of its range.
-/

namespace MipPump

/-- How a relaxation point is rounded. -/
inductive RoundingPolicy where
  | nearest
  | randomized
  | propagation
  deriving DecidableEq, Repr

/-- Where a value halfway between two integers goes. -/
inductive TieBreak where
  /-- Towards the bound with more room left. -/
  | range
  | down
  | up
  deriving DecidableEq, Repr

/-- What orders the integer variables. -/
inductive RankingPolicy where
  | displacement
  | locks
  | random
  deriving DecidableEq, Repr

/-- How the weight of the cost changes from iteration to iteration. -/
inductive AlphaSchedule where
  | constant
  | geometric
  | linear
  deriving DecidableEq, Repr

section Names

def RoundingPolicy.name : RoundingPolicy → String
  | nearest => "nearest"
  | randomized => "randomized"
  | propagation => "propagation"

def RoundingPolicy.ofName? : String → Option RoundingPolicy
  | "nearest" => some nearest
  | "randomized" => some randomized
  | "propagation" => some propagation
  | _ => none

def TieBreak.name : TieBreak → String
  | range => "range"
  | down => "down"
  | up => "up"

def TieBreak.ofName? : String → Option TieBreak
  | "range" => some range
  | "down" => some down
  | "up" => some up
  | _ => none

def RankingPolicy.name : RankingPolicy → String
  | displacement => "displacement"
  | locks => "locks"
  | random => "random"

def RankingPolicy.ofName? : String → Option RankingPolicy
  | "displacement" => some displacement
  | "locks" => some locks
  | "random" => some random
  | _ => none

def AlphaSchedule.name : AlphaSchedule → String
  | constant => "constant"
  | geometric => "geometric"
  | linear => "linear"

def AlphaSchedule.ofName? : String → Option AlphaSchedule
  | "constant" => some constant
  | "geometric" => some geometric
  | "linear" => some linear
  | _ => none

/-- A rounding policy is found by its name. -/
@[simp] theorem RoundingPolicy.ofName?_name (p : RoundingPolicy) : ofName? p.name = some p := by
  cases p <;> rfl

/-- A tie break is found by its name. -/
@[simp] theorem TieBreak.ofName?_name (p : TieBreak) : ofName? p.name = some p := by
  cases p <;> rfl

/-- A ranking policy is found by its name. -/
@[simp] theorem RankingPolicy.ofName?_name (p : RankingPolicy) : ofName? p.name = some p := by
  cases p <;> rfl

/-- A schedule is found by its name. -/
@[simp] theorem AlphaSchedule.ofName?_name (p : AlphaSchedule) : ofName? p.name = some p := by
  cases p <;> rfl

end Names

section Options

/-- Options that are numbers or switches. -/
structure Options (R : Type) [Arith R] where
  /-- Greatest number of iterations. -/
  maxIterations : Int := 1000
  /-- Greatest number of restarts. -/
  maxRestarts : Int := 20
  /-- Seconds after which a run stops. -/
  timeBudget : Option R := none
  /-- Share of the integer variables that one perturbation moves. -/
  perturbationFraction : R := Arith.tenth 1
  /-- Distance by which a perturbation moves a variable. -/
  perturbationStep : Int := 1
  /-- Whether the number of moved variables is drawn at random. -/
  randomFlipCount : Bool := false
  /-- Whether restarts choose the moved variables at random. -/
  randomRestarts : Bool := true
  /-- Loss of priority for each recent move of a variable. -/
  visitPenalty : R := Arith.tenth 1
  /-- Iterations without progress after which the pump perturbs. -/
  stallPatience : Int := 5
  /-- Perturbations in a row after which the pump restarts. -/
  stallCeiling : Int := 10
  /-- Weight of the cost in the goal at the start of an epoch. -/
  initialAlpha : R := 0
  /-- Factor of the geometric schedule. -/
  alphaDecay : R := Arith.ratio 9 10
  /-- Step of the linear schedule. -/
  alphaStep : R := Arith.ratio 1 20
  /-- Difference in weight up to which two equal points count as a cycle. -/
  cycleAlphaTolerance : R := Arith.ratio 1 200
  /-- Seed of the random generator. -/
  randomSeed : Int := 0
  /-- Number of points that the cycle test remembers. -/
  cycleHistorySize : Int := 10
  /-- Numbers closer than this count as equal. -/
  toleranceEpsilon : R := Arith.tenth 6
  /-- Whether progress is printed. -/
  verbose : Bool := false
  /-- Iterations between two printed records. -/
  verbosityInterval : Int := 10

/-- An option that is checked, by its family or its range. -/
inductive CheckedOption where
  | choice (family : ChoiceFamily)
  | ranged (option : RangedOption)
  deriving DecidableEq, Repr

/-- Options with the policies as their names. -/
structure RequestedSettings (R : Type) [Arith R] extends Options R where
  rounding : String := "nearest"
  tieBreak : String := "range"
  ranking : String := "displacement"
  alphaSchedule : String := "geometric"
  /-- The options that were given without a value. -/
  blanks : List CheckedOption := []

/-- Options with the policies. -/
structure Settings (R : Type) [Arith R] extends Options R where
  rounding : RoundingPolicy := .nearest
  tieBreak : TieBreak := .range
  ranking : RankingPolicy := .displacement
  alphaSchedule : AlphaSchedule := .geometric

end Options

section Admission

variable {R : Type} [Arith R]

/-- A member of a family by its name. -/
def choose {α : Type} (family : ChoiceFamily) (ofName? : String → Option α) (name : String) :
    Except (Fault R) α :=
  match ofName? name with
  | some a => .ok a
  | none => .error (.unknownChoice family name)

/-- A checked option: its value, and whether the value is in range. -/
structure RangeCheck (R : Type) where
  option : RangedOption
  value : Amount R
  admitted : Bool

/-- Stops with a fault if the value is out of range. -/
def RangeCheck.run (c : RangeCheck R) : Except (Fault R) Unit :=
  if c.admitted then .ok () else .error (.outOfRange c.option c.value)

/-- An integer option with a least value. -/
def RangeCheck.atLeast (option : RangedOption) (least n : Int) : RangeCheck R :=
  { option, value := .integer n, admitted := !decide (n < least) }

/-- An option that must not be negative; one that is no number passes. -/
def RangeCheck.nonnegative (option : RangedOption) (x : R) : RangeCheck R :=
  { option, value := .number x, admitted := !decide (x < 0) }

/-- An option that must lie in an interval; one that is no number fails. -/
def RangeCheck.inside (option : RangedOption) (x : R) (isInside : Bool) : RangeCheck R :=
  { option, value := .number x, admitted := isInside }

/-- The checks of the options in order.  A run without a time budget passes that check. -/
def Options.checks (o : Options R) : List (RangeCheck R) :=
  [ .atLeast .maxRestarts 0 o.maxRestarts
  , .nonnegative .timeBudget (o.timeBudget.getD 0)
  , .inside .perturbationFraction o.perturbationFraction
      (0 < o.perturbationFraction && o.perturbationFraction ≤ 1)
  , .atLeast .perturbationStep 1 o.perturbationStep
  , .nonnegative .visitPenalty o.visitPenalty
  , .atLeast .stallPatience 1 o.stallPatience
  , .atLeast .stallCeiling 0 o.stallCeiling
  , .inside .initialAlpha o.initialAlpha (0 ≤ o.initialAlpha && o.initialAlpha ≤ 1)
  , .inside .alphaDecay o.alphaDecay (0 ≤ o.alphaDecay && o.alphaDecay ≤ 1)
  , .nonnegative .alphaStep o.alphaStep
  , .nonnegative .cycleAlphaTolerance o.cycleAlphaTolerance
  , .atLeast .cycleHistorySize 1 o.cycleHistorySize
  , .inside .toleranceEpsilon o.toleranceEpsilon
      (0 < o.toleranceEpsilon && o.toleranceEpsilon < Arith.ratio 1 2)
  , .atLeast .verbosityInterval 1 o.verbosityInterval ]

/-- Checks the ranges of the options in order; an option without a value has no range to be in. -/
def RequestedSettings.check (s : RequestedSettings R) : Except (Fault R) Unit :=
  s.toOptions.checks.forM fun c =>
    if s.blanks.contains (.ranged c.option) then .error .missingValue else c.run

/-- The member of a family that is asked for. -/
def RequestedSettings.choice {α : Type} (s : RequestedSettings R) (family : ChoiceFamily)
    (ofName? : String → Option α) (name : String) : Except (Fault R) α :=
  if s.blanks.contains (.choice family) then .error (.unnamedChoice family)
  else choose family ofName? name

/-- Admits settings whose policies exist and whose options are in their ranges. -/
def RequestedSettings.toSettings (s : RequestedSettings R) : Except (Fault R) (Settings R) := do
  let rounding ← s.choice .rounding RoundingPolicy.ofName? s.rounding
  let tieBreak ← s.choice .tieBreak TieBreak.ofName? s.tieBreak
  let ranking ← s.choice .ranking RankingPolicy.ofName? s.ranking
  let alphaSchedule ← s.choice .alphaSchedule AlphaSchedule.ofName? s.alphaSchedule
  s.check
  pure { s.toOptions with rounding, tieBreak, ranking, alphaSchedule }

/-- The policies of admitted settings by name. -/
def Settings.requested (s : Settings R) : RequestedSettings R :=
  { s.toOptions with
    rounding := s.rounding.name
    tieBreak := s.tieBreak.name
    ranking := s.ranking.name
    alphaSchedule := s.alphaSchedule.name }

end Admission

section Derived

variable {R : Type} [Arith R]

/-- The least integer that is not below a number. -/
def ceilInteger (x : R) : Except (Fault R) Int :=
  match Arith.ceilInt? x with
  | some n => .ok n
  | none => if Arith.isNaN x then .error .notANumber else .error .infiniteInteger

/-- Number of variables that one perturbation moves among `n` integer variables. -/
def Options.flipCount (o : Options R) (n : Int) : Except (Fault R) Int := do
  let share := o.perturbationFraction * (← nearestNumber n)
  pure (max 1 (← ceilInteger share))

/-- The weight that follows `alpha`. -/
def Options.nextAlpha (o : Options R) (schedule : AlphaSchedule) (alpha : R) : R :=
  match schedule with
  | .geometric => alpha * o.alphaDecay
  | .linear => Arith.larger 0 (alpha - o.alphaStep)
  | .constant => alpha

/-- The weight that follows `alpha` under a schedule given by name; an unknown schedule keeps it. -/
def RequestedSettings.nextAlpha (s : RequestedSettings R) (alpha : R) : R :=
  s.toOptions.nextAlpha ((AlphaSchedule.ofName? s.alphaSchedule).getD .constant) alpha

end Derived

end MipPump
