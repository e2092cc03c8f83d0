import MipPump.Number.Binary64
import MipPump.Outcome

/-!
# A picture of a trace

The distance of every iteration is drawn as a step line over the iterations.  Perturbations are
marked by crosses and restarts by squares.  A picture is a grid of shades of grey.
-/

namespace MipPump
namespace Chart

/-- A grid of shades, row by row from the top. -/
structure Raster where
  width : Nat
  height : Nat
  shades : Array UInt8

section Drawing

/-- A grid of one shade. -/
def Raster.blank (width height : Nat) : Raster :=
  { width, height, shades := Array.replicate (width * height) 255 }

/-- Sets the shade of a point; points outside the grid are left out. -/
def Raster.dot (r : Raster) (x y : Nat) (shade : UInt8) : Raster :=
  if x < r.width && y < r.height then
    { r with shades := r.shades.setIfInBounds (y * r.width + x) shade }
  else r

/-- Draws a horizontal line. -/
def Raster.across (r : Raster) (x₁ x₂ y : Nat) (shade : UInt8) : Raster :=
  (List.range (max x₁ x₂ - min x₁ x₂ + 1)).foldl (fun r k => r.dot (min x₁ x₂ + k) y shade) r

/-- Draws a vertical line. -/
def Raster.down (r : Raster) (x y₁ y₂ : Nat) (shade : UInt8) : Raster :=
  (List.range (max y₁ y₂ - min y₁ y₂ + 1)).foldl (fun r k => r.dot x (min y₁ y₂ + k) shade) r

/-- Draws a cross. -/
def Raster.cross (r : Raster) (x y : Nat) : Raster :=
  (List.range 7).foldl
    (fun r k => (r.dot (x + k - 3) (y + k - 3) 0).dot (x + k - 3) (y + 3 - k) 0) r

/-- Draws a square. -/
def Raster.square (r : Raster) (x y : Nat) : Raster :=
  (List.range 7).foldl (fun r k => r.across (x - 3) (x + 3) (y + k - 3) 0) r

end Drawing

section Traces

/-- Width of the picture. -/
def width : Nat := 640

/-- Height of the picture. -/
def height : Nat := 320

/-- Space around the drawing. -/
def margin : Nat := 20

/-- A share of a length, in whole steps. -/
def share (part total : Rat) (length : Nat) : Nat :=
  if total ≤ 0 then 0 else (part * length / total).floor.toNat

/-- Distances of a trace as rationals; infinite ones count as zero. -/
def distances (trace : List (Record Float)) : List Rat :=
  trace.map fun r => (Binary64.toRat? r.distance).getD 0

/-- Places of the records in the picture. -/
def places (trace : List (Record Float)) : List (Nat × Nat) :=
  let ds := distances trace
  let most := ds.foldl (fun most d => if most < d then d else most) 0
  let last : Rat := ((trace.length - 1 : Nat) : Rat)
  ds.zipIdx.map fun (d, i) =>
    ( margin + share i last (width - 2 * margin)
    , height - margin - share d most (height - 2 * margin) )

/-- Draws the steps between neighbouring places. -/
def steps : Raster → List (Nat × Nat) → Raster
  | r, (x₁, y₁) :: (x₂, y₂) :: rest =>
      steps ((r.across x₁ x₂ y₁ 96).down x₂ y₁ y₂ 96) ((x₂, y₂) :: rest)
  | r, _ => r

/-- Draws the two axes. -/
def axes (r : Raster) : Raster :=
  (r.across margin (width - margin) (height - margin) 192).down margin margin (height - margin) 192

/-- Marks a record by its phase. -/
def mark (r : Raster) (m : Record Float × (Nat × Nat)) : Raster :=
  match m.1.phase with
  | .perturbing => r.cross m.2.1 m.2.2
  | .restarting => r.square m.2.1 m.2.2
  | _ => r

/-- The picture of a trace. -/
def ofTrace (trace : List (Record Float)) : Raster :=
  let ps := places trace
  (trace.zip ps).foldl mark (steps (axes (Raster.blank width height)) ps)

end Traces

end Chart
end MipPump
