import MipPump.Progress
import MipPump.Table

/-!
# Ranking of the integer variables

Perturbations and the propagating rounding take the integer variables in an order of priority.

* `Locks` counts, for every variable, the rows that a move down or up can violate;
* `Ranker.scores` gives each integer variable a score: its displacement from a candidate, or its
  closeness to an integer if there is no candidate, changed by the policy and lowered by recent
  visits;
* `Ranker.rank` lists the variables by descending score, equal scores by ascending index.
-/

namespace MipPump

section Locks

/-- Numbers of rows that can become violated when a variable moves down or up. -/
structure Locks (R : Type) where
  down : List R
  up : List R

variable {R : Type} [Arith R]

/-- Adds one to an entry. -/
def increment (counts : List R) (j : Int) : Except (Fault R) (List R) := do
  let n ← Vec.get counts j
  Vec.set counts j (n + 1)

/-- Adds the locks of one nonzero coefficient. -/
def Locks.add (locks : Locks R) (sense : Sense) (j : Nat) (coef : R) : Except (Fault R) (Locks R) :=
  if sense = .equal then do
    pure { down := ← increment locks.down j, up := ← increment locks.up j }
  else if decide (sense = .atMost) == decide (0 < coef) then do
    pure { locks with up := ← increment locks.up j }
  else do
    pure { locks with down := ← increment locks.down j }

/-- Adds the locks of a row. -/
def Locks.addRow (rows : Rows R) (locks : Locks R) (row : List R × Nat) :
    Except (Fault R) (Locks R) :=
  (row.1.zipIdx.filter fun (x, _) => Arith.nonzero x).foldlM
    (fun locks (x, j) => do locks.add (← Vec.get rows.senses row.2) j x) locks

/-- The locks of the variables `0` to `numVars - 1`. -/
def Locks.ofRows (rows : Rows R) (numVars : Nat) : Except (Fault R) (Locks R) :=
  rows.coefficients.zipIdx.foldlM (Locks.addRow rows)
    { down := Vec.zeros numVars, up := Vec.zeros numVars }

/-- Locks of the integer variables in both directions together, scaled to at most one. -/
def Locks.pressure (locks : Locks R) (t : Table R) : Except (Fault R) (List R) := do
  let total ← Vec.pick (List.zipWith (· + ·) locks.down locks.up) t.integers
  let most := Arith.larger 1 (Vec.greatest 0 total)
  pure (total.map (· / most))

end Locks

/-- What the scores of the integer variables depend on besides the points. -/
structure Ranker (R : Type) where
  policy : RankingPolicy
  visitPenalty : R
  /-- Displacements up to `eps` count as none. -/
  eps : R
  /-- Scaled locks, with the policy that uses them. -/
  lockPressure : Option (List R)

namespace Ranker

variable {R : Type} [Arith R]

/-- A ranker of a policy; ranking by locks needs the rows. -/
def make (policy : RankingPolicy) (t : Table R) (rows : Option (Rows R)) (visitPenalty eps : R) :
    Except (Fault R) (Ranker R) :=
  match policy with
  | .locks =>
      match rows with
      | none => .error .locksNeedRows
      | some rows => do
          let locks ← Locks.ofRows rows t.numVars
          let pressure ← locks.pressure t
          pure { policy, visitPenalty, eps, lockPressure := some pressure }
  | _ => pure { policy, visitPenalty, eps, lockPressure := none }

section Scores

/-- Closeness to an integer: one at integers, zero halfway between them. -/
def closeness (x : R) : R := 1 - 2 * Arith.abs (x - Arith.rint x)

/-- Displacement between a value and its rounding. -/
def displacement (eps x candidate : R) : R :=
  let gap := Arith.abs (x - candidate)
  if gap ≤ eps then 0 else gap

/-- Scores before the policy is applied. -/
def baseScores (k : Ranker R) (values : List R) (candidate : Option (List R)) :
    Except (Fault R) (List R) :=
  match candidate with
  | none => .ok (values.map closeness)
  | some candidate => Vec.map2 (displacement k.eps) values candidate

/-- Applies the policy to scores. -/
def weigh (k : Ranker R) (base : List R) : Act R (Progress R) (List R) :=
  match k.policy with
  | .displacement => pure base
  | .locks => Act.ofExcept (Vec.map2 (fun x p => x * (1 + p)) base (k.lockPressure.getD []))
  | .random => do
      let factors ← Progress.drawUniform (Arith.ratio 1 2) (Arith.ratio 3 2) base.length
      Act.ofExcept (Vec.map2 (· * ·) base factors)

/-- Lowers scores by the recent visits. -/
def penalize (k : Ranker R) (base : List R) : Act R (Progress R) (List R) := do
  let p ← get
  let counts ← Act.ofExcept p.visitCounts
  Act.ofExcept (Vec.map2 (fun x n => x - k.visitPenalty * n) base counts)

/-- Scores of the integer variables. -/
def scores (k : Ranker R) (t : Table R) (point : List R) (candidate : Option (List R)) :
    Act R (Progress R) (List R) := do
  let values ← Act.ofExcept (t.integerValues point)
  let base ← Act.ofExcept (k.baseScores values candidate)
  let base ← k.weigh base
  let base ← if 0 < k.visitPenalty && candidate.isSome then k.penalize base else pure base
  pure (base.map Arith.roundTwelve)

end Scores

section Order

/-- Whether the first of two scored variables may stand before the second: a greater score first,
then a smaller index; a score that is no number goes last. -/
def mayPrecede (a b : R × Int) : Bool :=
  let before (x y : R) : Bool := decide (-x < -y) || (Arith.isNaN y && !Arith.isNaN x)
  if before a.1 b.1 then true
  else if before b.1 a.1 then false
  else decide (a.2 ≤ b.2)

/-- Inserts a scored variable in front of the first that it may precede. -/
def insert (a : R × Int) : List (R × Int) → List (R × Int)
  | [] => [a]
  | b :: rest => if mayPrecede a b then a :: b :: rest else b :: insert a rest

/-- Orders scored variables. -/
def order (scored : List (R × Int)) : List (R × Int) := scored.foldr insert []

/-- Inserting adds one element. -/
theorem insert_perm (a : R × Int) (xs : List (R × Int)) : (insert a xs).Perm (a :: xs) := by
  induction xs with
  | nil => exact List.Perm.refl _
  | cons b rest ih =>
      unfold insert
      split
      · exact List.Perm.refl _
      · exact (ih.cons b).trans (List.Perm.swap a b rest)

/-- Ordering neither adds nor drops a variable. -/
theorem order_perm (scored : List (R × Int)) : (order scored).Perm scored := by
  induction scored with
  | nil => exact List.Perm.refl _
  | cons a rest ih => exact (insert_perm a (order rest)).trans (ih.cons a)

/-- The integer variables by descending score. -/
def rank (k : Ranker R) (t : Table R) (point : List R) (candidate : Option (List R)) :
    Act R (Progress R) (List Int) := do
  let scores ← k.scores t point candidate
  if scores.length = t.numIntegers then
    pure ((order (scores.zip t.integers)).map (·.2))
  else throw .lengthsDiffer

end Order

end Ranker

end MipPump
