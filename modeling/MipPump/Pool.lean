import MipPump.Pump.Run

/-!
# Pools of runs

Several runs with seeds of their own work on private copies of a problem and share the incumbent
and the signal to stop.  A pool holds one slot for every seed, and a schedule says which slot takes
the next step: every interleaving of the runs is a schedule.

* A waiting slot starts when all earlier slots have started and a worker is free.
* An active slot takes a step of its run.
* A run that has ended with a success may tell the others to stop, in a step of its own.

`Pool.run` follows the schedule that finishes one slot after the other.
-/

namespace MipPump

/-- Where the run of one seed stands. -/
inductive Slot (R σ : Type) [Arith R] where
  | waiting (task : PumpTask R σ) (domain : Domain R) (oracle : σ)
  | active (setup : Setup R σ) (run : Run R σ)
  | finished (result : Except (Fault R) (Outcome R)) (oracle : σ) (lines : List (Line R))

/-- Runs that share a store and a token. -/
structure Pool (R σ : Type) [Arith R] where
  shared : Shared R
  slots : List (Slot R σ)
  /-- Greatest number of runs at a time. -/
  workers : Nat
  cancelOnSuccess : Bool

section Slots

variable {R σ : Type} [Arith R]

def Slot.isWaiting : Slot R σ → Bool
  | waiting _ _ _ => true
  | _ => false

def Slot.isActive : Slot R σ → Bool
  | active _ _ => true
  | _ => false

def Slot.isFinished : Slot R σ → Bool
  | finished _ _ _ => true
  | _ => false

/-- The result of a finished slot. -/
def Slot.result? : Slot R σ → Option (Except (Fault R) (Outcome R))
  | finished result _ _ => some result
  | _ => none

/-- State of the oracle of a slot. -/
def Slot.oracle : Slot R σ → σ
  | waiting _ _ oracle => oracle
  | active _ run => run.oracle
  | finished _ oracle _ => oracle

/-- The lines that the run of a slot has printed. -/
def Slot.lines : Slot R σ → List (Line R)
  | waiting _ _ _ => []
  | active _ run => run.lines
  | finished _ _ lines => lines

/-- Starts a waiting slot at the instant `now`. -/
def Slot.start (now : R) (task : PumpTask R σ) (domain : Domain R) (oracle : σ) : Slot R σ :=
  match task.launch now domain oracle with
  | .ok (setup, run) => active setup run
  | .error e => finished (.error e) oracle []

/-- Whether a result is a success. -/
def succeeded : Except (Fault R) (Outcome R) → Bool
  | .ok o => o.ending.isSuccess
  | .error _ => false

end Slots

namespace Pool

variable {R σ : Type} [Arith R]

/-- Whether the slot `i` may start: no earlier slot waits and a worker is free. -/
def mayStart (p : Pool R σ) (i : Nat) : Bool :=
  !(p.slots.take i).any (·.isWaiting) && decide ((p.slots.filter (·.isActive)).length < p.workers)

/-- One step of the slot `i` at the instant `now`; a slot that cannot take one stays as it is. -/
def step (now : R) (i : Nat) (p : Pool R σ) : Pool R σ :=
  match p.slots[i]? with
  | none => p
  | some (.finished _ _ _) => p
  | some (.waiting task domain oracle) =>
      if p.mayStart i then { p with slots := p.slots.set i (Slot.start now task domain oracle) }
      else p
  | some (.active setup run) =>
      match run.stage with
      | .ended result =>
          let shared :=
            if p.cancelOnSuccess && succeeded result then p.shared.cancel else p.shared
          { p with shared, slots := p.slots.set i (.finished result run.oracle run.lines) }
      | _ =>
          let w : World R σ := World.step setup now { shared := p.shared, run }
          { p with shared := w.shared, slots := p.slots.set i (.active setup w.run) }

/-- Follows a schedule: each entry names the slot that takes the next step, and the instant. -/
def follow (p : Pool R σ) (schedule : List (Nat × R)) : Pool R σ :=
  schedule.foldl (fun p (i, now) => p.step now i) p

/-- Takes steps of the slot `i` until it has finished. -/
def finish (clock : Nat → R) (i : Nat) : (fuel : Nat) → Pool R σ → Pool R σ
  | 0, p => p
  | fuel + 1, p =>
      match p.slots[i]? with
      | some (.finished _ _ _) => p
      | _ => finish clock i fuel (p.step (clock fuel) i)

/-- Finishes the slots one after the other. -/
def finishAll (clock : Nat → R) (fuel : Nat) (p : Pool R σ) : Pool R σ :=
  (List.range p.slots.length).foldl (fun p i => p.finish clock i fuel) p

/-- The outcomes in the order of the slots, or the first fault. -/
def outcomes (p : Pool R σ) : Except (Fault R) (List (Outcome R)) :=
  p.slots.mapM fun slot => (slot.result?).getD (.error .stepsExhausted)

/-- Number of workers for a number of seeds; zero stands for one worker per seed. -/
def workerCount (requested : Option Int) (seeds : Nat) : Except (Fault R) Nat :=
  let n := match requested with
    | some n => if n = 0 then (seeds : Int) else n
    | none => seeds
  if n ≤ 0 then .error .noWorkers else .ok n.toNat

/-- The waiting run of a seed. -/
def seeded (settings : Settings R) (seed : Int) (problem : Problem R) (oracle : Oracle R σ)
    (domain : Domain R) (state : σ) : Slot R σ :=
  .waiting
    { name := "fp-seed" ++ toString seed
      settings := { settings with randomSeed := seed }
      problem, oracle }
    domain state

/-- Runs a pool: all slots to their end. -/
def run (settings : Settings R) (clock : Nat → R) (p : Pool R σ) : Pool R σ :=
  p.finishAll clock (World.enoughSteps settings + 2)

end Pool

end MipPump
