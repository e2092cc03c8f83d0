import MipPump.Settings
import MipPump.Table

/-!
# Rounding to the nearest integer

A value is moved into its bounds and rounded to the nearest integer there.  A fraction within `eps`
of one half is a tie and goes where the tie break says; `range` goes to the bound with more room
left, and down if there is equal room.
-/

namespace MipPump
namespace Rounding

variable {R : Type} [Arith R]

/-- Whether a tie at the integer `whole` goes up. -/
def tieGoesUp (tieBreak : TieBreak) (lo hi whole : R) : Bool :=
  match tieBreak with
  | .up => true
  | .down => false
  | .range => decide (whole - lo < hi - (whole + 1))

/-- Rounds one value into its bounds, to which a clamp moves it. -/
def nearestValue (clamp : R → R → R → R) (tieBreak : TieBreak) (eps lo hi x : R) : R :=
  let y := clamp lo hi x
  let whole := Arith.floor y
  let part := y - whole
  let half : R := Arith.ratio 1 2
  let rounded :=
    if Arith.abs (part - half) ≤ eps then
      if tieGoesUp tieBreak lo hi whole then whole + 1 else whole
    else if half < part then whole + 1 else whole
  clamp lo hi rounded

/-- Rounds a vector into its bounds; a single bound applies to every value. -/
def nearest (tieBreak : TieBreak) (eps : R) (values lb ub : List R) :
    Except (Fault R) (List R) := do
  let bounds ← Vec.map2 Prod.mk lb ub
  Vec.map2 (fun x (b : R × R) => nearestValue Arith.clampBound tieBreak eps b.1 b.2 x) values bounds

/-- Rounds the integer variables of a point into their integral bounds. -/
def nearestPoint (tieBreak : TieBreak) (eps : R) (t : Table R) (point : List R) :
    Except (Fault R) (List R) := do
  let values ← t.integerValues point
  nearest tieBreak eps values t.intLb t.intUb

end Rounding
end MipPump
