import MipPump.Chart.Png
import MipPump.Cli.Session

/-!
# The command

Reads the instance, lets the runs take their steps while time passes, prints what they print, and
writes the picture of the trace if it is asked for.
-/

namespace MipPump
namespace Cli

/-- The text that explains the command. -/
def usage : String :=
  "usage: mip-pump [options] instance.mps\noptions: "
    ++ ", ".intercalate (optionTable.map (·.1)) ++ "\n"

/-- Seconds on a clock that only goes forward. -/
def secondsNow : IO Float := do
  let ms ← IO.monoMsNow
  pure (ms.toFloat / 1000)

/-- The text of a file, if there is one; what cannot be read counts as empty. -/
def readText? (path : String) : IO (Option String) := do
  try
    let text ← IO.FS.readFile path
    pure (some text)
  catch e =>
    match e with
    | .noFileOrDirectory _ _ _ => pure none
    | _ => pure (some "")

/-- Lets one slot take its steps and prints its lines as they come. -/
partial def runSlot (i printed : Nat) (pool : Pool Float (RelaxationState Float)) :
    IO (Pool Float (RelaxationState Float)) := do
  let pool := pool.step (← secondsNow) i
  match pool.slots[i]? with
  | none => pure pool
  | some slot => do
      IO.print (Line.textAll elapsedText (slot.lines.drop printed))
      if slot.isFinished then pure pool else runSlot i slot.lines.length pool

/-- Lets all slots take their steps, one slot after the other. -/
def runSlots (pool : Pool Float (RelaxationState Float)) :
    IO (Pool Float (RelaxationState Float)) :=
  (List.range pool.slots.length).foldlM (fun pool i => runSlot i 0 pool) pool

/-- Prints the end of a session and writes its picture; answers with the exit code. -/
def finishSession (t : Transcript Float) : IO UInt32 := do
  IO.print t.text
  match t.picture with
  | some (name, trace) => IO.FS.writeBinFile name (Chart.png (Chart.ofTrace trace))
  | none => pure ()
  match t.exit with
  | .ok code => pure (UInt32.ofNat code)
  | .error e => do
      IO.eprintln (e.message Decimal.shortest)
      pure 1

/-- Runs a session with the given arguments. -/
def runSession (args : Arguments) : IO UInt32 := do
  let start ← secondsNow
  let opening := prepare args (← readText? args.path) start
  IO.print opening.text
  match opening.next with
  | .error exit => finishSession { exit, text := "" }
  | .ok job => do
      let pool ← runSlots job.pool
      let time := Decimal.fixed 2 ((← secondsNow) - start) ++ "s"
      finishSession (conclude statedNumber job time pool)

end Cli
end MipPump

def main (args : List String) : IO UInt32 :=
  match MipPump.Cli.parse args with
  | .run arguments => MipPump.Cli.runSession arguments
  | .help => do
      IO.print MipPump.Cli.usage
      pure 0
  | .usageError => do
      IO.eprint MipPump.Cli.usage
      pure 2
