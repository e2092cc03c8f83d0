import MipPump.Pump.Step

/-!
# Runs of a pump

A run is prepared from a problem and settings and then takes steps until it ends.  The number of
steps is bounded by the iterations that the settings allow.

* `PumpTask` is what a run is given;
* `PumpTask.launch` prepares a run;
* `PumpTask.run` runs it to its end and reports.
-/

namespace MipPump

/-- What a run is given. -/
structure PumpTask (R σ : Type) [Arith R] where
  name : String
  settings : Settings R
  problem : Problem R
  oracle : Oracle R σ

/-- What a run leaves behind. -/
structure Report (R σ : Type) where
  result : Except (Fault R) (Outcome R)
  /-- The records made, unless the run could not even begin a trace. -/
  trace : Option (List (Record R))
  domain : Domain R
  oracle : σ
  shared : Shared R
  lines : List (Line R)

namespace PumpTask

variable {R σ : Type} [Arith R]

/-- The table and the progress that a run starts with. -/
def begin (task : PumpTask R σ) : Except (Fault R) (Table R × Progress R) := do
  let table ← Table.ofVariables task.problem.vars
  let progress ← Progress.start task.settings table.numIntegers
  pure (table, progress)

/-- The propagator of the problem, without rows where the settings do not use it. -/
def propagator (task : PumpTask R σ) (t : Table R) : Except (Fault R) (Propagation.Propagator R) :=
  let box : Box R := { lb := t.lb, ub := t.ub }
  match task.settings.rounding with
  | .propagation =>
      Propagation.Propagator.build task.problem.rows box t.kinds task.settings.toleranceEpsilon
        Propagation.defaultEpsilon Propagation.defaultRounds
  | _ => .ok (Propagation.Propagator.idle box)

/-- Prepares the ranking and the rounding of a run that starts at the instant `started`. -/
def equip (task : PumpTask R σ) (started : R) (t : Table R) :
    Except (Fault R) (Setup R σ × Propagation.Propagator R) := do
  let s := task.settings
  let ranker ← Ranker.make s.ranking t (some task.problem.rows) s.visitPenalty s.toleranceEpsilon
  let propagator ← task.propagator t
  pure
    ( { name := task.name, settings := s, problem := task.problem, table := t, ranker
        oracle := task.oracle, started }
    , propagator )

/-- A run that is ready for its first step. -/
def launch (task : PumpTask R σ) (started : R) (domain : Domain R) (oracle : σ) :
    Except (Fault R) (Setup R σ × Run R σ) := do
  let (t, progress) ← task.begin
  let (setup, propagator) ← task.equip started t
  pure (setup, { workspace := { domain, progress, propagator }, oracle })

end PumpTask

namespace World

variable {R σ : Type} [Arith R]

/-- Takes steps until the run has ended; `clock k` is the instant of the step with `k` more left. -/
def advance (setup : Setup R σ) (clock : Nat → R) : Nat → World R σ → World R σ
  | 0, w => w
  | fuel + 1, w =>
      match w.run.stage with
      | .ended _ => w
      | _ => advance setup clock fuel (w.step setup (clock fuel))

/-- Enough steps for every run under the settings: two before the first iteration, two for each
iteration and one to stop. -/
def enoughSteps (s : Settings R) : Nat := 2 * s.maxIterations.toNat + 3

end World

namespace PumpTask

variable {R σ : Type} [Arith R]

/-- The report of a run that has taken its steps. -/
def report (w : World R σ) : Report R σ :=
  { result :=
      match w.run.stage with
      | .ended result => result
      | _ => .error .stepsExhausted
    trace := some w.run.trace
    domain := w.run.workspace.domain
    oracle := w.run.oracle
    shared := w.shared
    lines := w.run.lines }

/-- The report of a run that did not start. -/
def notStarted (e : Fault R) (trace : Option (List (Record R))) (domain : Domain R) (oracle : σ)
    (shared : Shared R) : Report R σ :=
  { result := .error e, trace, domain, oracle, shared, lines := [] }

/-- Runs a task to its end. -/
def run (task : PumpTask R σ) (clock : Nat → R) (shared : Shared R) (domain : Domain R)
    (oracle : σ) : Report R σ :=
  let steps := World.enoughSteps task.settings
  let started := clock steps
  match task.begin with
  | .error e => notStarted e none domain oracle shared
  | .ok (t, progress) =>
      match task.equip started t with
      | .error e => notStarted e (some []) domain oracle shared
      | .ok (setup, propagator) =>
          let run : Run R σ := { workspace := { domain, progress, propagator }, oracle }
          report (World.advance setup clock steps { shared, run })

end PumpTask

end MipPump
