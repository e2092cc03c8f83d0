import MipPump.Incumbent
import MipPump.Oracle.Basic
import MipPump.Outcome
import MipPump.Rounding.Propagated

/-!
# The state of a pump

A pump alternates relaxation solves with roundings.  This module holds what a run is given
(`Setup`), what it changes (`Run`, and `Shared` next to it), the stages it goes through, and the
lines it prints.
-/

namespace MipPump

/-- A printed line. -/
inductive Line (R : Type) where
  | header (numVars numIntegers : Nat)
  | record (record : Record R) (elapsed : R)
  | found (iterations : Int) (objective : R)
  | stopped (reason : FailureReason) (iterations : Int)

/-- Where a run stands.  The signal to stop is looked at in the stages `opening` and `top` only. -/
inductive Stage (R : Type) where
  /-- Before the root is solved. -/
  | opening
  /-- About to solve the root. -/
  | root
  /-- Between two iterations. -/
  | top (target : List R)
  /-- About to project onto a target. -/
  | projecting (target : List R)
  | ended (result : Except (Fault R) (Outcome R))

/-- What is fixed for a run. -/
structure Setup (R σ : Type) [Arith R] where
  name : String
  settings : Settings R
  problem : Problem R
  table : Table R
  ranker : Ranker R
  oracle : Oracle R σ
  /-- The instant at which the run started. -/
  started : R

/-- What a run changes for itself. -/
structure Run (R σ : Type) where
  workspace : Rounding.Workspace R
  oracle : σ
  trace : List (Record R) := []
  lines : List (Line R) := []
  stage : Stage R := .opening

/-- A run together with what it shares. -/
structure World (R σ : Type) where
  shared : Shared R
  run : Run R σ

namespace World

variable {R σ : Type} [Arith R]

/-- Acts on the workspace of the run. -/
def onWorkspace {α : Type} (act : Act R (Rounding.Workspace R) α) : Act R (World R σ) α :=
  Act.zoom (·.run.workspace) (fun w workspace => { w with run := { w.run with workspace } }) act

/-- Acts on the progress of the run. -/
def onProgress {α : Type} (act : Act R (Progress R) α) : Act R (World R σ) α :=
  onWorkspace (Rounding.Workspace.onProgress act)

/-- Acts on the domain, with the world around it as a companion. -/
def onDomain {α : Type} (act : Act R (Domain R × World R σ) α) : Act R (World R σ) α :=
  Act.zoom (fun w => (w.run.workspace.domain, w))
    (fun _ (domain, w) =>
      { w with run := { w.run with workspace := { w.run.workspace with domain } } })
    act

/-- The progress of the run. -/
def progress : Act R (World R σ) (Progress R) := do
  let w ← get
  pure w.run.workspace.progress

/-- Adds a line to the output of the run. -/
def print (line : Line R) : Act R (World R σ) Unit :=
  modify fun w => { w with run := { w.run with lines := w.run.lines ++ [line] } }

/-- Moves the run to a stage. -/
def moveTo (stage : Stage R) (w : World R σ) : World R σ :=
  { w with run := { w.run with stage } }

end World

end MipPump
