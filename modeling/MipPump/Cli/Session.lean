import MipPump.Cli.Arguments
import MipPump.Mps.Reader
import MipPump.Oracle.Relaxation
import MipPump.Pool
import MipPump.Pump.Text

/-!
# A session of the command

A session loads an instance, runs one pump or several, and reports.  It is split so that whoever
runs it may let time pass between the steps of the runs:

* `prepare` loads the instance and sets the runs up;
* the pool of a `Job` takes its steps;
* `conclude` reports the best outcome.

The runs of a session ask a `Solver`; that of the command is `Relaxation.solver`.  `transcript` is a
whole session in which no time passes.
-/

namespace MipPump
namespace Cli

/-- How a session ends: with an exit code, or with a fault. -/
abbrev Exit (R : Type) := Except (Fault R) Nat

/-- Exit code of a session that finds a feasible point. -/
def exitFound : Nat := 0

/-- Exit code of a session without an instance. -/
def exitNoFile : Nat := 1

/-- Exit code of a session that finds no point, and of wrong usage. -/
def exitNotFound : Nat := 2

/-- Runs that are set up. -/
structure Job (R σ : Type) [Arith R] where
  instanceData : Instance R
  settings : Settings R
  pool : Pool R σ
  /-- Whether the trace is to be drawn. -/
  plot : Bool

/-- A session up to the runs: the text so far, and the runs or an early end. -/
structure Prelude where
  text : String
  next : Except (Exit Float) (Job Float (RelaxationState Float))

/-- What a session leaves behind. -/
structure Transcript (R : Type) where
  exit : Exit R
  text : String
  /-- Name and trace of the picture that is to be drawn. -/
  picture : Option (String × List (Record R)) := none

section Names

/-- A file name without its extension; leading points belong to the name. -/
def stem (name : String) : String :=
  let cs := name.toList
  let afterDots := cs.dropWhile (· == '.')
  let tail := afterDots.reverse.takeWhile (· != '.')
  if afterDots.contains '.' then String.ofList (cs.take (cs.length - tail.length - 1)) else name

end Names

section Beginning

variable {R σ : Type} [Arith R]

/-- Greatest number of threads that the linear solver accepts. -/
def maxThreads : Int := 1024

omit [Arith R] in
/-- Stops if an option was given without a value. -/
def Arguments.require (args : Arguments) (option : ValueOption) : Except (Fault R) Unit :=
  if args.blanks.contains option then .error .missingValue else .ok ()

/-- Refuses a number of threads that the solver does not take; -1 leaves it to the solver. -/
def Arguments.requireThreads (args : Arguments) : Except (Fault R) Unit := do
  args.require .threads
  if !Word.fits 31 args.threads then throw .integerTooLarge
  if args.threads < -1 || maxThreads < args.threads then throw .solverRefused

/-- The slot of one run. -/
def slot (solver : Solver R σ) (args : Arguments) (m : Instance R) (seed : Option Int)
    (s : Settings R) : Except (Fault R) (Slot R σ) := do
  args.requireThreads
  let problem ← m.problem
  let (oracle, start) ← solver m
  let domain : Domain R := { box := { lb := m.lb, ub := m.ub } }
  match seed with
  | some seed => pure (Pool.seeded s seed problem oracle domain start)
  | none => pure (.waiting { name := "fp", settings := s, problem, oracle } domain start)

/-- Stops with the fault of the first slot that cannot start. -/
def requireStart (slots : List (Slot R σ)) : Except (Fault R) Unit :=
  slots.forM fun
    | .waiting task domain oracle => do discard (task.launch 0 domain oracle)
    | _ => pure ()

/-- The slots of the seeds, or of a single run without a seed of its own.  The number of
iterations is needed as soon as the first slot starts. -/
def slotsOf (solver : Solver R σ) (args : Arguments) (m : Instance R) (s : Settings R)
    (seeds : List (Option Int)) : Except (Fault R) (List (Slot R σ)) := do
  let slots ← seeds.mapM fun seed => slot solver args m seed s
  if args.blanks.contains .maxIterations then
    requireStart (slots.take 1)
    throw .missingValue
  pure slots

/-- Sets up runs with consecutive seeds, started at the instant `now`. -/
def setUpPool (solver : Solver R σ) (args : Arguments) (m : Instance R) (s : Settings R) (now : R) :
    String × Except (Fault R) (Job R σ) :=
  let seeds := (List.range args.workers.toNat).map fun (k : Nat) => s.randomSeed + (k : Int)
  let last := s.randomSeed + args.workers - 1
  let quiet := { s with verbose := false }
  ( "🚀 Running " ++ toString seeds.length ++ " pumps in parallel (seeds "
      ++ toString s.randomSeed ++ ".." ++ toString last ++ ")\n"
  , do
      let slots ← slotsOf solver args m quiet (seeds.map some)
      let shared : Shared R :=
        { store := {}, token := some (Token.ofBudget now s.timeBudget) }
      pure
        { instanceData := m, settings := quiet, plot := args.plot
          pool := { shared, slots, workers := args.workers.toNat, cancelOnSuccess := true } } )

/-- Sets up a single run. -/
def setUpRun (solver : Solver R σ) (args : Arguments) (m : Instance R) (s : Settings R) :
    String × Except (Fault R) (Job R σ) :=
  ( "🚀 Running feasibility pump...\n"
  , do
      let slots ← slotsOf solver args m s [none]
      pure
        { instanceData := m, settings := s, plot := args.plot
          pool :=
            { shared := { store := {}, token := none }, slots, workers := 1
              cancelOnSuccess := false } } )

/-- Sets the runs up, started at the instant `now`.  Several runs need a seed; a single run without
one has the seed zero. -/
def setUp (solver : Solver R σ) (args : Arguments) (m : Instance R) (s : Settings R) (now : R) :
    Except (Fault R) (String × Except (Fault R) (Job R σ)) := do
  args.require .workers
  if 1 < args.workers then
    args.require .seed
    pure (setUpPool solver args m s now)
  else if args.blanks.contains .seed then
    pure (setUpRun solver args m { s with randomSeed := 0 })
  else pure (setUpRun solver args m s)

/-- A session up to the runs; `contents` is the text of the file, if there is one. -/
def prepare (args : Arguments) (contents : Option String) (now : Float) : Prelude :=
  let loading := "📦 Loading instance: " ++ args.path ++ "\n"
  match contents with
  | none =>
      { text := loading ++ "❌ ERROR: File not found at '" ++ args.path ++ "'\n"
        next := .error (.ok exitNoFile) }
  | some contents =>
      match Mps.load args.path contents with
      | .error e => { text := loading, next := .error (.error e) }
      | .ok m =>
          let text := loading ++ Mps.notice m ++ m.summary
          match args.settings.toSettings with
          | .error e => { text, next := .error (.error e) }
          | .ok s =>
              match setUp Relaxation.solver args m s now with
              | .error e => { text, next := .error (.error e) }
              | .ok (line, .error e) => { text := text ++ line, next := .error (.error e) }
              | .ok (line, .ok job) => { text := text ++ line, next := .ok job }

end Beginning

section Ending

variable {R σ : Type} [Arith R]

/-- The outcome that is reported: the best success, or the first outcome. -/
def reported? (outcomes : List (Outcome R)) : Option (Outcome R) :=
  match bestOf (outcomes.map (·.ending)) with
  | some i => outcomes[i]?
  | none => outcomes.head?

/-- Value of an outcome under the objective of the file. -/
def statedValue (direction : Direction) (objective : R) : R :=
  Arith.ofInt direction.factor * objective

omit [Arith R] in
/-- The counters of an outcome. -/
def counters (o : Outcome R) (time : String) : String :=
  "\nIterations: " ++ toString o.iterations ++ "  Restarts: " ++ toString o.restarts
    ++ "  Perturbations: " ++ toString o.perturbations ++ "  Time: " ++ time ++ "\n"

/-- The verdict on a success whose objective is worded by `value`. -/
def found (value : String) : String :=
  "✅ Feasible solution found! Objective value: " ++ value ++ "\n"

/-- The verdict on an outcome; `number` words its objective. -/
def verdict (number : R → String) (direction : Direction) (o : Outcome R) : String :=
  match o.ending with
  | .success _ objective => found (number (statedValue direction objective))
  | .failure reason => "❌ No feasible solution found (" ++ reason.name ++ ").\n"

/-- Name of the picture of a trace. -/
def pictureName (instanceName : String) : String := "fp_trace_" ++ stem instanceName ++ ".png"

/-- Reports an outcome. -/
def report (number : R → String) (job : Job R σ) (time : String) (o : Outcome R) : Transcript R :=
  let text := counters o time ++ verdict number job.instanceData.direction o
  let exit : Exit R := .ok (if o.ending.isSuccess then exitFound else exitNotFound)
  if job.plot && !o.trace.isEmpty then
    let name := pictureName job.instanceData.name
    { exit, text := text ++ "\n📈 Distance plot saved to " ++ name ++ "\n"
      picture := some (name, o.trace) }
  else { exit, text }

/-- The end of a session whose runs have finished. -/
def conclude (number : R → String) (job : Job R σ) (time : String) (pool : Pool R σ) :
    Transcript R :=
  match pool.outcomes with
  | .error e => { exit := .error e, text := "" }
  | .ok outcomes =>
      match reported? outcomes with
      | some o => report number job time o
      | none => { exit := .ok exitNotFound, text := "" }

/-- How the objective is worded. -/
def statedNumber : Float → String := Decimal.fixed 6

/-- A whole session in which no time passes; the two texts stand for elapsed times. -/
def transcript (args : Arguments) (contents : Option String) (lineTime totalTime : String) :
    Transcript Float :=
  let start := prepare args contents 0
  match start.next with
  | .error exit => { exit, text := start.text }
  | .ok job =>
      let pool := Pool.run job.settings (fun _ => 0) job.pool
      let lines := pool.slots.flatMap (·.lines)
      let rest := conclude statedNumber job totalTime pool
      { rest with text := start.text ++ Line.textAll (fun _ => lineTime) lines ++ rest.text }

end Ending

end Cli
end MipPump
