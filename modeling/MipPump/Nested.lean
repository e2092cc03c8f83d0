import MipPump.Vec

/-!
# Nested vectors

Numbers in nested lists, as an input gives a vector or a matrix.  If all lists of one depth have one
length the numbers form an array with a shape, and `flatten` lists them row by row.
-/

namespace MipPump

/-- A number or a list of nested vectors. -/
inductive Nested (R : Type) where
  | number (x : R)
  | list (items : List (Nested R))

namespace Nested

variable {R : Type}

instance : Inhabited (Nested R) := ⟨list []⟩

mutual

/-- Numbers from left to right. -/
def flatten : Nested R → List R
  | number x => [x]
  | list items => flattenAll items

/-- Numbers of several nested vectors from left to right. -/
def flattenAll : List (Nested R) → List R
  | [] => []
  | x :: rest => flatten x ++ flattenAll rest

end

mutual

/-- Lengths from the outside inwards; there are none if lists of one depth differ. -/
def shape? : Nested R → Option (List Nat)
  | number _ => some []
  | list [] => some [0]
  | list (x :: rest) =>
      match shape? x with
      | some s => if agree s rest then some ((rest.length + 1) :: s) else none
      | none => none

/-- Whether all members have one shape. -/
def agree (s : List Nat) : List (Nested R) → Bool
  | [] => true
  | x :: rest => shape? x == some s && agree s rest

end

/-- Numbers of an array, row by row, together with its shape. -/
def array (x : Nested R) : Except (Fault R) (List Nat × List R) :=
  match shape? x with
  | some s => .ok (s, flatten x)
  | none => .error .lengthsDiffer

/-- Numbers of an array, row by row. -/
def entries (x : Nested R) : Except (Fault R) (List R) := x.array.map (·.2)

/-- Cuts a list into rows of `n` entries. -/
def cut {α : Type} (n : Nat) : (rows : Nat) → List α → List (List α)
  | 0, _ => []
  | rows + 1, xs => xs.take n :: cut n rows (xs.drop n)

/-- The numbers of an array in rows of `n` entries. -/
def rowsOf (n : Nat) (x : Nested R) : Except (Fault R) (List (List R)) := do
  let (_, xs) ← x.array
  if n = 0 || xs.length % n ≠ 0 then .error .lengthsDiffer
  else pure (cut n (xs.length / n) xs)

end Nested

end MipPump
