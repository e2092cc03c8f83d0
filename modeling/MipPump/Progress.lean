import MipPump.Recent
import MipPump.Settings
import MipPump.Random.Generator
import MipPump.Vec

/-!
# Progress of a run

What a run carries from one iteration to the next.  Counters and the random generator live for the
whole run; the rest belongs to an epoch, and a restart begins a new epoch.

* `History` remembers the last candidates with the weight they were produced under and recognises
  a candidate by its exact entries;
* `Progress.recordDistance` keeps the distances and counters that decide about stalling;
* `Progress.recordFlips` and `Progress.visitCounts` keep the window of recent perturbations.
-/

namespace MipPump

section Histories

variable {R : Type}

/-- A remembered candidate and the weight of the cost at that time. -/
structure Mark (R : Type) where
  candidate : List R
  alpha : R

/-- The last candidates. -/
abbrev History (R : Type) := Recent (Mark R)

/-- A history of a capacity, which must fit a machine word and not be negative. -/
def History.ofCapacity (capacity : Int) : Except (Fault R) (History R) := do
  requireWord capacity
  if capacity < 0 then .error .negativeCapacity
  pure { capacity := capacity.toNat }

variable [Arith R]

/-- Whether two candidates are the same entry by entry. -/
def sameEntries : List R → List R → Bool
  | [], [] => true
  | x :: xs, y :: ys => Arith.same x y && sameEntries xs ys
  | _, _ => false

/-- Whether a mark stands for a candidate under a weight that is at most `tol` away. -/
def Mark.recalls (m : Mark R) (candidate : List R) (alpha tol : R) : Bool :=
  sameEntries m.candidate candidate && decide (Arith.abs (alpha - m.alpha) ≤ tol)

/-- Whether a history holds a candidate under a weight that is at most `tol` away. -/
def History.contains (h : History R) (candidate : List R) (alpha tol : R) : Bool :=
  h.entries.any (·.recalls candidate alpha tol)

end Histories

section States

/-- What belongs to one epoch. -/
structure Epoch (R : Type) where
  /-- Weight of the cost in the goal. -/
  alpha : R
  /-- Perturbations since the last best distance. -/
  stallCounter : Int
  /-- Measured distances since the last one that improved on its predecessor. -/
  noProgress : Int
  previousDistance : R
  bestDistance : R
  history : History R
  /-- Positions moved by each of the last perturbations. -/
  flips : Recent (List Int)

/-- What a run carries from one iteration to the next. -/
structure Progress (R : Type) where
  numIntegers : Nat
  generator : Random.Generator
  iteration : Int
  restarts : Int
  perturbations : Int
  epoch : Epoch R

variable {R : Type} [Arith R]

/-- A fresh epoch; the histories keep their capacity only. -/
def Epoch.fresh (s : Settings R) (history : History R) (flips : Recent (List Int)) : Epoch R :=
  { alpha := s.initialAlpha
    stallCounter := 0
    noProgress := 0
    previousDistance := Arith.infinity
    bestDistance := Arith.infinity
    history := history.clear
    flips := flips.clear }

/-- An epoch after a distance was measured, and whether the distance is a new best by more than
`eps`. -/
def Epoch.measure (e : Epoch R) (value eps : R) : Bool × Epoch R :=
  let noProgress := if value < e.previousDistance - eps then 0 else e.noProgress + 1
  let e := { e with noProgress, previousDistance := value }
  if value < e.bestDistance - eps then (true, { e with bestDistance := value, stallCounter := 0 })
  else (false, e)

end States

namespace Progress

variable {R : Type} [Arith R]

/-- The progress before the first iteration. -/
def start (s : Settings R) (numIntegers : Nat) : Except (Fault R) (Progress R) := do
  if s.randomSeed < 0 then .error .negativeSeed
  let history : History R ← History.ofCapacity s.cycleHistorySize
  pure
    { numIntegers
      generator := Random.Generator.ofSeed s.randomSeed.toNat
      iteration := 0
      restarts := 0
      perturbations := 0
      epoch := Epoch.fresh s history { capacity := history.capacity } }

section Epochs

/-- Begins a new epoch. -/
def reset (s : Settings R) (p : Progress R) : Progress R :=
  { p with epoch := Epoch.fresh s p.epoch.history p.epoch.flips }

/-- Moves the weight of the cost on. -/
def advanceAlpha (s : Settings R) (p : Progress R) : Progress R :=
  { p with epoch := { p.epoch with alpha := s.toOptions.nextAlpha s.alphaSchedule p.epoch.alpha } }

/-- Remembers a candidate under the current weight. -/
def remember (candidate : List R) (p : Progress R) : Progress R :=
  { p with epoch :=
      { p.epoch with history := p.epoch.history.push { candidate, alpha := p.epoch.alpha } } }

/-- Whether a candidate was met before under nearly the current weight. -/
def hasCycled (s : Settings R) (candidate : List R) (p : Progress R) : Bool :=
  p.epoch.history.contains candidate p.epoch.alpha s.cycleAlphaTolerance

end Epochs

section Distances

/-- Takes a measured distance into account; answers whether it is a new best of the epoch. -/
def recordDistance (value eps : R) (p : Progress R) : Bool × Progress R :=
  let (isBest, epoch) := p.epoch.measure value eps
  (isBest, { p with epoch })

/-- Whether too many distances in a row brought no progress. -/
def isStalled (s : Settings R) (p : Progress R) : Bool :=
  decide (s.stallPatience ≤ p.epoch.noProgress)

end Distances

section Flips

/-- Notes the positions that a perturbation moved. -/
def noteFlips (positions : List Int) (p : Progress R) : Progress R :=
  { p with
    perturbations := p.perturbations + 1
    epoch := { p.epoch with flips := p.epoch.flips.push positions } }

/-- Notes the positions that a perturbation moved; each must fit a machine word. -/
def recordFlips (positions : List Int) : Act R (Progress R) Unit := do
  Act.ofExcept (positions.forM requireWord)
  modify (noteFlips positions)

/-- Adds one at each of the given positions. -/
def countAt (counts : List R) : List Int → Except (Fault R) (List R)
  | [] => .ok counts
  | i :: rest => do
      let n ← Vec.get counts i
      countAt (← Vec.set counts i (n + 1)) rest

/-- How often each integer variable was moved by the recent perturbations. -/
def visitCounts (p : Progress R) : Except (Fault R) (List R) :=
  p.epoch.flips.entries.foldlM countAt (Vec.zeros p.numIntegers)

end Flips

section Draws

/-- Applies a draw to the generator of a run. -/
def draw {α : Type} (f : Random.Generator → α × Random.Generator) : Act R (Progress R) α := fun p =>
  let (a, generator) := f p.generator
  .ok a { p with generator }

/-- Number from which on numbers of eight bytes do not fit the memory that a word addresses. -/
def countLimit : Int := Power.two 60

/-- Repeats a draw `n` times. -/
def drawMany (f : Random.Generator → R × Random.Generator) (n : Int) :
    Act R (Progress R) (List R) :=
  if n < 0 || countLimit ≤ n then throw .impossibleCount
  else draw (Random.Generator.many f n.toNat)

/-- Draws `n` numbers in `[0, 1)`. -/
def drawUnits (n : Int) : Act R (Progress R) (List R) := drawMany Random.Generator.unit n

/-- Whether a width carries a minus, be it that of a zero. -/
def isReversed (width : R) : Bool :=
  decide (width < 0) || (width == 0 && !Arith.same width 0)

/-- Draws `n` numbers from an interval of finite width. -/
def drawUniform (low high : R) (n : Int) : Act R (Progress R) (List R) :=
  if Arith.isInf (high - low) || Arith.isNaN (high - low) then throw .unboundedRange
  else if isReversed (high - low) then throw .reversedRange
  else drawMany (Random.Generator.uniform low high) n

/-- Draws an integer with `low ≤ x < high`. -/
def drawInteger (low high : Int) : Act R (Progress R) Int := fun p =>
  match p.generator.integer low high with
  | .ok (x, generator) => .ok x { p with generator }
  | .error e => .error e p

end Draws

end Progress

end MipPump
