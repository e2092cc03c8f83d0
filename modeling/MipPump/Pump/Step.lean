import MipPump.Distance
import MipPump.Perturbation
import MipPump.Pump.Basic
import MipPump.Rounding.Randomized

/-!
# Steps of a pump

One step takes a run from its stage to the next one.

* The root is solved for the cost of the problem and rounded.
* An iteration projects onto its target, rounds the point and measures the distance between the
  two.  At distance zero the rounding is tried as a solution.  Otherwise the rounding becomes the
  next target, unless it repeats an earlier one or the distances do not improve any more: then it is
  perturbed, and after too many perturbations the run restarts.
* `World.step` is the whole step; it looks at the signal to stop before the root and between two
  iterations.
-/

namespace MipPump
namespace World

variable {R σ : Type} [Arith R]

section Reports

/-- The outcome with an ending, read off the progress. -/
def outcome (ending : Ending R) : Act R (World R σ) (Outcome R) := do
  let w ← get
  let p := w.run.workspace.progress
  pure
    { ending
      iterations := p.iteration
      restarts := p.restarts
      perturbations := p.perturbations
      alpha := p.epoch.alpha
      trace := w.run.trace }

/-- Ends with a failure. -/
def fail (setup : Setup R σ) (reason : FailureReason) : Act R (World R σ) (Outcome R) := do
  let p ← progress
  if setup.settings.verbose then print (.stopped reason p.iteration)
  outcome (.failure reason)

/-- Whether a record is printed. -/
def isPrinted (s : Settings R) (r : Record R) : Bool :=
  s.verbose && (r.iteration % s.verbosityInterval == 0 || r.phase != .measuring)

/-- Adds a record to the trace. -/
def record (setup : Setup R σ) (now : R) (phase : Phase) (distance : Distance R) (point : List R) :
    Act R (World R σ) Unit := do
  let p ← progress
  let fractional ←
    Act.ofExcept (setup.table.countFractional point setup.settings.toleranceEpsilon)
  let r : Record R :=
    { iteration := p.iteration
      phase
      distance := distance.value
      alpha := p.epoch.alpha
      fractional
      restarts := p.restarts }
  modify fun w => { w with run := { w.run with trace := w.run.trace ++ [r] } }
  if isPrinted setup.settings r then print (.record r (now - setup.started))

end Reports

section Solving

/-- The reason for which a fault of the oracle ends a run, if it is one that does. -/
def reasonOf : Fault R → Option FailureReason
  | .relaxationInfeasible _ => some .relaxationInfeasible
  | .relaxationUnbounded _ => some .relaxationUnbounded
  | _ => none

/-- Asks the oracle in a box. -/
def ask (setup : Setup R σ) (box : Box R) (goal : Goal R) : Act R (World R σ) (List R) := fun w =>
  let reply := setup.oracle w.run.oracle box goal
  let w : World R σ :=
    { shared := if reply.cancels then w.shared.cancel else w.shared
      run := { w.run with oracle := reply.next } }
  match reply.answer with
  | .ok x => .ok x w
  | .error e => .error e w

/-- Runs a solve; an infeasible or unbounded relaxation is an answer, other faults stop the run. -/
def orReason {τ α : Type} (act : Act R τ α) : Act R τ (Except FailureReason α) := fun s =>
  match act s with
  | .ok x s => .ok (.ok x) s
  | .error e s =>
      match reasonOf e with
      | some reason => .ok (.error reason) s
      | none => .error e s

/-- Solves the relaxation in the current bounds. -/
def solve (setup : Setup R σ) (goal : Goal R) :
    Act R (World R σ) (Except FailureReason (List R)) := do
  let w ← get
  orReason (ask setup w.run.workspace.domain.box goal)

/-- Fixes the integer variables to their values in a candidate. -/
def fixIntegers (candidate : List R) : List (Int × Nat) → Act R (Scoped R) Unit
  | [] => pure ()
  | (j, position) :: rest => do
      let value ← Act.ofExcept (Vec.get candidate position)
      Scoped.fix j value
      fixIntegers candidate rest

/-- Solves for the cost of the problem with the integer variables fixed to a candidate; there may be
no such point. -/
def solveFixed (setup : Setup R σ) (candidate : List R) :
    Act R (World R σ) (Option (List R)) := do
  let solved ← onDomain <| Scoped.within do
    Act.first (fixIntegers candidate setup.table.integers.zipIdx)
    let (s, _) ← get
    orReason (Act.second (ask setup s.domain.box (Goal.ofCost setup.table)))
  match solved with
  | .ok point => some <$> Act.ofExcept (setup.table.fullPoint point candidate)
  | .error _ => pure none

end Solving

section Rounding

/-- Rounds a point by the policy of the settings. -/
def roundByPolicy (setup : Setup R σ) (point : List R) :
    Act R (Rounding.Workspace R) (List R) :=
  let s := setup.settings
  match s.rounding with
  | .nearest =>
      Act.ofExcept (Rounding.nearestPoint s.tieBreak s.toleranceEpsilon setup.table point)
  | .randomized =>
      Rounding.Workspace.onProgress
        (Rounding.randomizedPoint s.toleranceEpsilon setup.table point)
  | .propagation =>
      Rounding.propagatedPoint s.tieBreak s.toleranceEpsilon setup.table setup.ranker point

/-- Rounds a point; if propagation empties a domain the nearest integers are taken instead, and the
answer says that the policy failed. -/
def roundOrNearest (setup : Setup R σ) (point : List R) :
    Act R (Rounding.Workspace R) (List R × Bool) := fun w =>
  match roundByPolicy setup point w with
  | .ok candidate w => .ok (candidate, true) w
  | .error (.emptiedDomain _ _ _) w =>
      let s := setup.settings
      match Rounding.nearestPoint s.tieBreak s.toleranceEpsilon setup.table point with
      | .ok candidate => .ok (candidate, false) w
      | .error e => .error e w
  | .error e w => .error e w

/-- Rounds a point and checks the candidate. -/
def round (setup : Setup R σ) (point : List R) : Act R (World R σ) (List R × Bool) := do
  let (candidate, ok) ← onWorkspace (roundOrNearest setup point)
  Act.ofExcept (setup.table.check candidate)
  pure (candidate, ok)

/-- Measures the distance between a point and a candidate. -/
def measure (setup : Setup R σ) (point candidate : List R) : Act R (World R σ) (Distance R) :=
  Act.ofExcept (Distance.measure setup.table setup.settings.toleranceEpsilon point candidate)

end Rounding

section Converging

/-- The feasible point that a candidate at distance zero leads to: the point itself with the values
of the candidate, or the best point with the integer variables fixed. -/
def feasiblePoint (setup : Setup R σ) (point candidate : List R) :
    Act R (World R σ) (Option (List R)) := do
  let tol := setup.settings.toleranceEpsilon
  let full ← Act.ofExcept (setup.table.fullPoint point candidate)
  if ← Act.ofExcept (setup.problem.isFeasible tol full) then pure (some full)
  else if setup.table.others.isEmpty then pure none
  else
    match ← solveFixed setup candidate with
    | none => pure none
    | some full =>
        if ← Act.ofExcept (setup.problem.isFeasible tol full) then pure (some full) else pure none

/-- Tries a candidate at distance zero as a solution. -/
def converge (setup : Setup R σ) (now : R) (point candidate : List R) (distance : Distance R) :
    Act R (World R σ) (Option (Outcome R)) := do
  match ← feasiblePoint setup point candidate with
  | none => pure none
  | some full =>
      let objective ← Act.ofExcept (setup.problem.objective full)
      modify fun w =>
        let offered : Incumbent R := { point := full, cost := objective, source := setup.name }
        { w with shared := { w.shared with store := (w.shared.store.offer offered).2 } }
      record setup now .converged distance point
      let p ← progress
      if setup.settings.verbose then print (.found p.iteration objective)
      some <$> outcome (.success full objective)

/-- Tries a candidate as a solution if its rounding did not fail and its distance is zero. -/
def convergeIfZero (setup : Setup R σ) (now : R) (point candidate : List R) (ok : Bool)
    (distance : Distance R) : Act R (World R σ) (Option (Outcome R)) :=
  if ok && distance.isZero then converge setup now point candidate distance else pure none

end Converging

section Stages

/-- The stage after an outcome. -/
def finished (o : Outcome R) : Stage R := .ended (.ok o)

/-- Whether the run has to stop: it was told to, or its time is over. -/
def isCancelled (setup : Setup R σ) (now : R) (w : World R σ) : Bool :=
  w.shared.isCancelled now
    || setup.settings.timeBudget.any (Arith.reached (now - setup.started))

/-- Before the root. -/
def openRun (setup : Setup R σ) (now : R) : Act R (World R σ) (Stage R) := do
  let w ← get
  if setup.settings.maxIterations ≤ 0 then finished <$> fail setup .iterationLimit
  else if isCancelled setup now w then finished <$> fail setup .cancelled
  else do
    if setup.settings.verbose then
      print (.header setup.table.numVars setup.table.numIntegers)
    pure .root

/-- Remembers a candidate under the current weight, records the phase and makes the candidate the
next target. -/
def aimAt (setup : Setup R σ) (now : R) (phase : Phase) (distance : Distance R)
    (point candidate : List R) : Act R (World R σ) (Stage R) := do
  onProgress (modify (Progress.remember candidate))
  record setup now phase distance point
  pure (.top candidate)

/-- Solves and rounds the root. -/
def solveRoot (setup : Setup R σ) (now : R) : Act R (World R σ) (Stage R) := do
  match ← solve setup (Goal.ofCost setup.table) with
  | .error reason => finished <$> fail setup reason
  | .ok point =>
      let (candidate, ok) ← round setup point
      let distance ← measure setup point candidate
      match ← convergeIfZero setup now point candidate ok distance with
      | some o => pure (finished o)
      | none =>
          onProgress (modify fun p =>
            (p.recordDistance distance.value setup.settings.toleranceEpsilon).2)
          aimAt setup now .init distance point candidate

/-- Between two iterations. -/
def pause (setup : Setup R σ) (now : R) (target : List R) : Act R (World R σ) (Stage R) := do
  let w ← get
  if setup.settings.maxIterations ≤ w.run.workspace.progress.iteration then
    finished <$> fail setup .iterationLimit
  else if isCancelled setup now w then finished <$> fail setup .cancelled
  else pure (.projecting target)

/-- Accepts a rounding as the next target. -/
def accept (setup : Setup R σ) (now : R) (distance : Distance R) (point candidate : List R) :
    Act R (World R σ) (Stage R) := do
  let stage ← aimAt setup now .measuring distance point candidate
  onProgress (modify (Progress.advanceAlpha setup.settings))
  pure stage

/-- Aims at a perturbed candidate. -/
def aimAtPerturbed (setup : Setup R σ) (now : R) (phase : Phase) (point candidate : List R) :
    Act R (World R σ) (Stage R) := do
  let distance ← measure setup point candidate
  aimAt setup now phase distance point candidate

/-- Perturbs a rounding. -/
def perturb (setup : Setup R σ) (now : R) (point candidate : List R) :
    Act R (World R σ) (Stage R) := do
  let s := setup.settings
  let moved ← onProgress (Perturber.perturb s setup.table setup.ranker point candidate)
  onProgress (modify (Progress.advanceAlpha s))
  aimAtPerturbed setup now .perturbing point moved.candidate

/-- Begins a new epoch with a stronger perturbation, unless no restart is left. -/
def restart (setup : Setup R σ) (now : R) (distance : Distance R) (point candidate : List R) :
    Act R (World R σ) (Stage R) := do
  let s := setup.settings
  let p ← progress
  if s.maxRestarts ≤ p.restarts then
    record setup now .stalledOut distance point
    finished <$> fail setup .maxRestartsExceeded
  else
    onProgress (modify fun p => ({ p with restarts := p.restarts + 1 }).reset s)
    let moved ← onProgress (Perturber.restart s setup.table setup.ranker point candidate)
    aimAtPerturbed setup now .restarting point moved.candidate

/-- Counts a stall. -/
def countStall (p : Progress R) : Progress R :=
  { p with epoch := { p.epoch with stallCounter := p.epoch.stallCounter + 1, noProgress := 0 } }

/-- Perturbs or restarts. -/
def escalate (setup : Setup R σ) (now : R) (distance : Distance R) (point candidate : List R) :
    Act R (World R σ) (Stage R) := do
  onProgress (modify countStall)
  let p ← progress
  if p.epoch.stallCounter ≤ setup.settings.stallCeiling then perturb setup now point candidate
  else restart setup now distance point candidate

/-- One iteration. -/
def iterate (setup : Setup R σ) (now : R) (target : List R) : Act R (World R σ) (Stage R) := do
  let s := setup.settings
  onProgress (modify fun p => { p with iteration := p.iteration + 1 })
  let p ← progress
  let goal ← Act.ofExcept (Goal.projection setup.table p.epoch.alpha target)
  match ← solve setup goal with
  | .error reason => finished <$> fail setup reason
  | .ok point =>
      let (candidate, ok) ← round setup point
      let distance ← measure setup point candidate
      onProgress (modify fun p => (p.recordDistance distance.value s.toleranceEpsilon).2)
      match ← convergeIfZero setup now point candidate ok distance with
      | some o => pure (finished o)
      | none =>
          let p ← progress
          if ok && !distance.isZero && !p.hasCycled s candidate && !p.isStalled s then
            accept setup now distance point candidate
          else escalate setup now distance point candidate

/-- What a stage does; a run that has ended does nothing. -/
def act (setup : Setup R σ) (now : R) : Stage R → Act R (World R σ) (Stage R)
  | .opening => openRun setup now
  | .root => solveRoot setup now
  | .top target => pause setup now target
  | .projecting target => iterate setup now target
  | .ended result => pure (.ended result)

/-- One step of a run at the instant `now`. -/
def step (setup : Setup R σ) (now : R) (w : World R σ) : World R σ :=
  match act setup now w.run.stage w with
  | .ok stage w => w.moveTo stage
  | .error e w => w.moveTo (.ended (.error e))

end Stages

end World
end MipPump
