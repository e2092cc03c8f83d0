/-!
# Powers of two and of ten

The powers that number formats are made of, as natural numbers.
-/

namespace MipPump
namespace Power

/-- Two to the power `k`. -/
def two (k : Nat) : Nat := Nat.pow 2 k

/-- Ten to the power `k`. -/
def ten (k : Nat) : Nat := Nat.pow 10 k

end Power
end MipPump
