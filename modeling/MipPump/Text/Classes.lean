/-!
# Blanks and digits

Blanks and decimal digits of all scripts, after version 14 of the character standard.  A text is
brought into plain form before a number is read from it: a digit of any script becomes the digit of
that value, and a blank beyond the first 128 characters becomes the plain blank.
-/

namespace MipPump
namespace Text

/-- Code points of the digits with the value zero; the nine that follow each are the others. -/
def zeroDigits : List Nat :=
  [ 48, 1632, 1776, 1984, 2406, 2534, 2662, 2790, 2918, 3046, 3174, 3302, 3430, 3558, 3664,
    3792, 3872, 4160, 4240, 6112, 6160, 6470, 6608, 6784, 6800, 6992, 7088, 7232, 7248, 42528,
    43216, 43264, 43472, 43504, 43600, 44016, 65296, 66720, 68912, 69734, 69872, 69942, 70096,
    70384, 70736, 70864, 71248, 71360, 71472, 71904, 72016, 72784, 73040, 73120, 92768, 92864,
    93008, 120782, 120792, 120802, 120812, 120822, 123200, 123632, 125264, 130032 ]

/-- The value of a decimal digit of any script. -/
def digitValue? (c : Char) : Option Nat :=
  (zeroDigits.find? fun first => first ≤ c.toNat && c.toNat < first + 10).map (c.toNat - ·)

/-- Whether a character is a decimal digit of some script. -/
def isDigit (c : Char) : Bool := (digitValue? c).isSome

/-- Whether a character beyond the first 128 is a blank. -/
def isWideBlank (c : Char) : Bool :=
  let n := c.toNat
  n == 0x85 || n == 0xa0 || n == 0x1680 || (0x2000 ≤ n && n ≤ 0x200a) || n == 0x2028
    || n == 0x2029 || n == 0x202f || n == 0x205f || n == 0x3000

/-- The plain form of a character in the text of a number. -/
def plainForm (c : Char) : Char :=
  if c.toNat < 0x80 then c
  else if isWideBlank c then ' '
  else
    match digitValue? c with
    | some d => Char.ofNat ('0'.toNat + d)
    | none => c

end Text
end MipPump
