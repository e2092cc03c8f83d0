import MipPump.Number.Power

/-!
# Machine words

Counts, capacities and positions are kept in machine words.  An integer outside the range of the
word has no place there.
-/

namespace MipPump
namespace Word

/-- Whether an integer fits a signed word of `bits + 1` bits. -/
def fits (bits : Nat) (n : Int) : Bool :=
  decide (-(Power.two bits : Int) ≤ n) && decide (n < Power.two bits)

/-- Whether an integer fits a signed word of 64 bits. -/
def fitsLong (n : Int) : Bool := fits 63 n

/-- Whether an integer fits an unsigned word of 64 bits but no signed one. -/
def isUnsignedOnly (n : Int) : Bool :=
  decide ((Power.two 63 : Int) ≤ n) && decide (n < Power.two 64)

/-- The integers that fit a signed word are those between its limits. -/
theorem fits_iff {bits : Nat} {n : Int} :
    fits bits n = true ↔ -(Power.two bits : Int) ≤ n ∧ n < Power.two bits := by
  simp [fits]

/-- A number that fits a signed word is not one that needs an unsigned word. -/
theorem isUnsignedOnly_of_fitsLong {n : Int} (h : fitsLong n = true) :
    isUnsignedOnly n = false := by
  have hn := (fits_iff.mp h).2
  simp only [isUnsignedOnly, Bool.and_eq_false_iff, decide_eq_false_iff_not]
  omega

end Word
end MipPump
