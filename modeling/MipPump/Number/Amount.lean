import MipPump.Number.Arith

/-!
# Amounts

An amount is a number as it was given: an integer of any size, or a number of the arithmetic in
use.  An integer keeps its exact value until it is needed as a number.

* `Amount.number?` is the number nearest to an amount, unless an integer lies beyond all numbers;
* `Amount.isBelow` compares an amount with a number by their exact values.
-/

namespace MipPump

/-- A number as it was given. -/
inductive Amount (R : Type) where
  | integer (n : Int)
  | number (x : R)

namespace Amount

variable {R : Type}

/-- The text of an amount. -/
def text (number : R → String) : Amount R → String
  | .integer n => toString n
  | .number x => number x

variable [Arith R]

/-- The number nearest to an integer, unless the integer lies beyond all numbers. -/
def nearest? (n : Int) : Option R :=
  let x : R := Arith.ofInt n
  if Arith.isInf x then none else some x

/-- The number nearest to an amount, if there is one. -/
def number? : Amount R → Option R
  | integer n => nearest? n
  | number x => some x

/-- Whether an integer is less than a number. -/
def integerBelow (n : Int) (y : R) : Bool :=
  match Arith.toRat? y with
  | some q => decide (mkRat n 1 < q)
  | none => decide (0 < y)

/-- Whether an amount is less than a number. -/
def isBelow (a : Amount R) (y : R) : Bool :=
  match a with
  | integer n => integerBelow n y
  | number x => decide (x < y)

/-- Numbers are compared as numbers. -/
@[simp] theorem isBelow_number (x y : R) : isBelow (.number x) y = decide (x < y) := rfl

end Amount
end MipPump
