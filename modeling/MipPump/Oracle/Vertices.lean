import MipPump.Oracle.Basic

/-!
# An oracle over listed vertices

A relaxation given by its vertices: among those inside the current bounds the oracle takes all that
are best up to `10⁻⁹` and answers with their mean, like a method that stops in the middle of the
best face.  Answers can also be scripted, or be one fixed point.
-/

namespace MipPump

/-- An answer laid down in advance. -/
inductive Scripted (R : Type) where
  | point (x : List R)
  | infeasible
  | unbounded
  | stopped

/-- The vertices and the answers that go before them. -/
structure Vertices (R : Type) where
  vertices : List (List R)
  /-- The answer to all solves after the script, if there is one. -/
  fixed : Option (List R) := none
  /-- Number of the solve during which the runs are told to stop. -/
  cancelAt : Option Int := none

/-- Answers still to be given and the goals of all solves so far. -/
structure VertexState (R : Type) where
  script : List (Scripted R)
  solves : List (Goal R) := []

namespace Vertices

variable {R : Type} [Arith R]

/-- Tolerance of bounds and costs. -/
def tolerance : R := Arith.tenth 9

/-- Whether a vertex is inside the bounds. -/
def inside (box : Box R) (v : List R) : Bool :=
  (List.zipWith (fun x lb => decide (lb - tolerance ≤ x)) v box.lb).all id
    && (List.zipWith (fun x ub => decide (x ≤ ub + tolerance)) v box.ub).all id

/-- Cost of pulling a point towards a target. -/
def pull (v : List R) (t : Target R) : R :=
  match Vec.at? v t.index with
  | some x => t.weight * Arith.abs (x - t.value)
  | none => 0

/-- Cost of a point. -/
def cost (goal : Goal R) (v : List R) : R :=
  goal.targets.foldl (fun c t => c + pull v t)
    (Vec.plainSum (List.zipWith (· * ·) v goal.objective))

/-- The mean of a nonempty list of points. -/
def mean (vs : List (List R)) : List R :=
  match vs with
  | [] => []
  | v :: rest =>
      let sums := rest.foldl (List.zipWith (· + ·)) (v.map (0 + ·))
      sums.map (· / Arith.ofInt vs.length)

/-- The mean of the best vertices inside the bounds, if there are any. -/
def best? (vertices : List (List R)) (box : Box R) (goal : Goal R) : Option (List R) :=
  match vertices.filter (inside box) with
  | [] => none
  | v :: rest =>
      let least := (rest.map (cost goal)).foldl Arith.smaller (cost goal v)
      some (mean ((v :: rest).filter fun u => decide (cost goal u ≤ least + tolerance)))

/-- What a scripted answer stands for. -/
def scriptedAnswer : Scripted R → Except (Fault R) (List R)
  | .point x => .ok x
  | .infeasible => .error (.relaxationInfeasible none)
  | .unbounded => .error (.relaxationUnbounded none)
  | .stopped => .error (.solverStopped 12)

/-- The answer once the script is used up. -/
def answer (spec : Vertices R) (box : Box R) (goal : Goal R) : Except (Fault R) (List R) :=
  match spec.fixed with
  | some x => .ok x
  | none =>
      match best? spec.vertices box goal with
      | some x => .ok x
      | none => .error (.relaxationInfeasible none)

/-- The oracle over the vertices. -/
def oracle (spec : Vertices R) : Oracle R (VertexState R) := fun s box goal =>
  let solves := s.solves ++ [goal]
  let cancels := spec.cancelAt == some (solves.length : Int)
  match s.script with
  | next :: script => { answer := scriptedAnswer next, cancels, next := { script, solves } }
  | [] => { answer := spec.answer box goal, cancels, next := { s with solves } }

end Vertices

end MipPump
