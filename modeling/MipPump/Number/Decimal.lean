import MipPump.Number.Binary64
import MipPump.Text.Classes

/-!
# Decimal text of numbers

Three texts are written and three are read:

* `fixed` writes a number with a fixed count of decimals, the exact value rounded with a half
  going to the even digit;
* `shortest` writes the fewest digits that read back as the same number, and of those the
  nearest to it;
* `padLeft` and `padRight` fill a text up to a column width;
* `readNumber?` and `readInteger?` read a decimal number or an integer, and nothing but that;
* `readBeginning` reads the number at the beginning of a text.
-/

namespace MipPump
namespace Decimal

section Columns

/-- Fills a text with blanks on the left. -/
def padLeft (width : Nat) (s : String) : String :=
  String.ofList (List.replicate (width - s.length) ' ') ++ s

/-- Fills a text with blanks on the right. -/
def padRight (width : Nat) (s : String) : String :=
  s ++ String.ofList (List.replicate (width - s.length) ' ')

/-- Fills a text with zeros on the left. -/
def padZeros (width : Nat) (s : String) : String :=
  String.ofList (List.replicate (width - s.length) '0') ++ s

end Columns

section Fixed

/-- The magnitude `a / b` with a fixed count of decimals. -/
def fixedRatio (places a b : Nat) : String :=
  let scaled := Binary64.divRound (a * Power.ten places) b
  let whole := toString (scaled / Power.ten places)
  if places = 0 then whole
  else whole ++ "." ++ padZeros places (toString (scaled % Power.ten places))

/-- A number with a fixed count of decimals.  A negative number keeps its sign even when all
digits are zero. -/
def fixed (places : Nat) (x : Float) : String :=
  match Binary64.decode x with
  | .nan => "nan"
  | .inf negative => if negative then "-inf" else "inf"
  | .finite negative m e =>
      let text :=
        if 0 ≤ e then fixedRatio places (m * Power.two e.toNat) 1
        else fixedRatio places m (Power.two (-e).toNat)
      if negative then "-" ++ text else text

end Fixed

section Shortest

/-- Decimal position of the leading digit of `a / b`: the `p` with
`10 ^ p ≤ a / b < 10 ^ (p + 1)`. -/
def leadingPosition (a b : Nat) : Int :=
  let p : Int := ((toString a).length : Int) - ((toString b).length : Int)
  let reaches : Bool :=
    if 0 ≤ p then decide (b * Power.ten p.toNat ≤ a) else decide (b ≤ a * Power.ten (-p).toNat)
  if reaches then p else p - 1

/-- An interval of magnitudes `low / scale` to `high / scale` around `value / scale`. -/
structure Window where
  low : Nat
  value : Nat
  high : Nat
  scale : Nat
  /-- Whether the two ends belong to the interval. -/
  closed : Bool

/-- The magnitudes that read back as `m · 2 ^ e`. -/
def Window.of (m : Nat) (e : Int) : Window :=
  -- below a power of two the neighbours are twice as close
  let narrow : Bool := m = Power.two 52 && decide (-1074 < e)
  let up := if 0 ≤ e then Power.two e.toNat else 1
  let scale := if 0 ≤ e then 4 else 4 * Power.two (-e).toNat
  { low := (if narrow then 4 * m - 1 else 4 * m - 2) * up
    value := 4 * m * up
    high := (4 * m + 2) * up
    scale
    closed := m % 2 = 0 }

/-- Whether the magnitude `n · 10 ^ unit` lies in the window. -/
def Window.holds (w : Window) (n : Nat) (unit : Int) : Bool :=
  let point := if 0 ≤ unit then n * Power.ten unit.toNat * w.scale else n * w.scale
  let factor := if 0 ≤ unit then 1 else Power.ten (-unit).toNat
  if w.closed then decide (w.low * factor ≤ point ∧ point ≤ w.high * factor)
  else decide (w.low * factor < point ∧ point < w.high * factor)

/-- The multiple of `10 ^ unit` inside the window that is nearest to its value, if there is one. -/
def Window.onGrid? (w : Window) (unit : Int) : Option Nat :=
  let num := if 0 ≤ unit then w.value else w.value * Power.ten (-unit).toNat
  let den := if 0 ≤ unit then w.scale * Power.ten unit.toNat else w.scale
  let below := num / den
  match w.holds below unit, w.holds (below + 1) unit with
  | false, false => none
  | true, false => some below
  | false, true => some (below + 1)
  | true, true => some (Binary64.divRound num den)

/-- The digits of the nearest shortest decimal, tried with `digits` digits and more, together with
the position of their unit. -/
def Window.shortest (w : Window) (leading : Int) : (fuel digits : Nat) → Nat × Int
  | 0, _ => (w.value / w.scale, 0)
  | fuel + 1, digits =>
      let unit := leading - digits + 1
      match w.onGrid? unit with
      | some n => (n, unit)
      | none => Window.shortest w leading fuel (digits + 1)

/-- Removes the trailing zeros of a list of digits. -/
def dropTrailingZeros (ds : List Char) : List Char :=
  (ds.reverse.dropWhile (· == '0')).reverse

/-- Where positional notation ends and how an exponent is written. -/
structure PointStyle where
  /-- The least position of a leading digit that is written positionally. -/
  least : Int
  /-- The least position of a leading digit above it that is not. -/
  limit : Int
  /-- The least count of digits of an exponent. -/
  exponentDigits : Nat

/-- Numbers in messages: positional from `0.0001` up to below `10 ^ 16`. -/
def messages : PointStyle := ⟨-4, 16, 2⟩

/-- Writes the digits `ds` whose first stands at position `p`. -/
def PointStyle.write (f : PointStyle) (ds : List Char) (p : Int) : String :=
  if f.least ≤ p && p < f.limit then
    if p < 0 then
      "0." ++ String.ofList (List.replicate (-p - 1).toNat '0' ++ ds)
    else
      let k := p.toNat + 1
      let whole := ds.take k ++ List.replicate (k - ds.length) '0'
      let part := ds.drop k
      String.ofList whole ++ "." ++ (if part.isEmpty then "0" else String.ofList part)
  else
    let mantissa :=
      match ds with
      | [] => "0"
      | [d] => String.ofList [d]
      | d :: rest => String.ofList (d :: '.' :: rest)
    let sign := if p < 0 then "-" else "+"
    mantissa ++ "e" ++ sign ++ padZeros f.exponentDigits (toString p.natAbs)

/-- The fewest digits that read back as the number. -/
def shortest (x : Float) : String :=
  match Binary64.decode x with
  | .nan => "nan"
  | .inf negative => if negative then "-inf" else "inf"
  | .finite negative m e =>
      let text :=
        if m = 0 then "0.0"
        else
          let w := Window.of m e
          let leading := leadingPosition w.value w.scale
          let (n, unit) := w.shortest leading 17 1
          let ds := (toString n).toList
          messages.write (dropTrailingZeros ds) (unit + ds.length - 1)
      if negative then "-" ++ text else text

end Shortest

section Reading

/-- Blanks that may surround a number in plain form. -/
def isBlank (c : Char) : Bool :=
  c == ' ' || c == '\t' || c == '\n' || c == '\r' || c == '\x0b' || c == '\x0c'

/-- A text without surrounding blanks. -/
def trim (cs : List Char) : List Char :=
  ((cs.dropWhile isBlank).reverse.dropWhile isBlank).reverse

/-- The characters of a number in plain form, without surrounding blanks. -/
def plain (s : String) : List Char := trim (s.toList.map Text.plainForm)

/-- Splits an optional sign off; `true` is a minus. -/
def takeSign : List Char → Bool × List Char
  | '-' :: cs => (true, cs)
  | '+' :: cs => (false, cs)
  | cs => (false, cs)

/-- A digit group: digits, with single underscores between digits only.  Answers with the digits
and the rest. -/
def takeDigits : List Char → List Char × List Char
  | [] => ([], [])
  | [c] => if c.isDigit then ([c], []) else ([], [c])
  | c :: d :: cs =>
      if c.isDigit then
        if d == '_' && (match cs with | e :: _ => e.isDigit | [] => false) then
          let (ds, rest) := takeDigits cs
          (c :: ds, rest)
        else
          let (ds, rest) := takeDigits (d :: cs)
          (c :: ds, rest)
      else ([], c :: d :: cs)

/-- The natural number a list of digits writes. -/
def digitsValue (ds : List Char) : Nat :=
  ds.foldl (fun n c => 10 * n + (c.toNat - '0'.toNat)) 0

/-- Greatest number of digits of an integer that is read. -/
def mostDigits : Nat := 4300

/-- Reads an integer with an optional sign and surrounding blanks. -/
def readInteger? (s : String) : Option Int :=
  let (negative, cs) := takeSign (plain s)
  match takeDigits cs with
  | ([], _) => none
  | (ds, []) =>
      if mostDigits < ds.length then none
      else some (if negative then -(digitsValue ds : Int) else digitsValue ds)
  | _ => none

/-- Reads the exponent mark and the exponent; no mark means zero. -/
def readExponent? : List Char → Option Int
  | [] => some 0
  | c :: cs =>
      if c == 'e' || c == 'E' then
        let (negative, cs) := takeSign cs
        match takeDigits cs with
        | ([], _) => none
        | (ds, []) => some (if negative then -(digitsValue ds : Int) else digitsValue ds)
        | _ => none
      else none

/-- The number `± n · 10 ^ e`, rounded to nearest. -/
def scaled (negative : Bool) (n : Nat) (e : Int) : Float :=
  -- a magnitude outside the range of the format is settled before any power is computed
  let size : Int := (toString n).length + e
  let magnitude : Float :=
    if n = 0 || size < -400 then Float.ofBits 0
    else if 400 < size then Arith.infinity
    else Float.ofScientific n (e < 0) e.natAbs
  if negative then -magnitude else magnitude

/-- The value that is no number. -/
def notANumber : Float := Float.ofBits 0x7ff8000000000000

/-- Reads the unsigned part of a number. -/
def readMagnitude? (negative : Bool) (cs : List Char) : Option Float :=
  let word := String.ofList (cs.map Char.toLower)
  if word == "inf" || word == "infinity" then
    some (if negative then -Arith.infinity else Arith.infinity)
  else if word == "nan" then some notANumber
  else
    let (whole, rest) := takeDigits cs
    let (part, rest) :=
      match rest with
      | '.' :: cs => takeDigits cs
      | _ => ([], rest)
    if whole.isEmpty && part.isEmpty then none
    else
      (readExponent? rest).map fun e =>
        scaled negative (digitsValue (whole ++ part)) (e - part.length)

/-- Reads a decimal number with an optional sign, fraction and exponent, an infinity, or the
value that is no number. -/
def readNumber? (s : String) : Option Float :=
  let (negative, cs) := takeSign (plain s)
  readMagnitude? negative cs

end Reading

section Beginnings

/-- Value of a digit in base sixteen. -/
def hexValue? (c : Char) : Option Nat :=
  if c.isDigit then some (c.toNat - '0'.toNat)
  else if 'a' ≤ c && c ≤ 'f' then some (c.toNat - 'a'.toNat + 10)
  else if 'A' ≤ c && c ≤ 'F' then some (c.toNat - 'A'.toNat + 10)
  else none

/-- The digits in base sixteen at the beginning of a text, and the rest. -/
def takeHex (cs : List Char) : List Nat × List Char :=
  ((cs.takeWhile fun c => (hexValue? c).isSome).filterMap hexValue?
  , cs.dropWhile fun c => (hexValue? c).isSome)

/-- The digits at the beginning of a text, and the rest. -/
def takePlainDigits (cs : List Char) : List Char × List Char :=
  (cs.takeWhile Char.isDigit, cs.dropWhile Char.isDigit)

/-- Digits before and after a point, and the rest. -/
def takePointed {α : Type} (take : List Char → List α × List Char) (cs : List Char) :
    List α × List α × List Char :=
  match take cs with
  | (whole, '.' :: rest) =>
      match take rest with
      | (part, rest) => (whole, part, rest)
  | (whole, rest) => (whole, [], rest)

/-- The exponent at the beginning of a text, zero if there is none with a digit. -/
def exponentAt (marks : List Char) : List Char → Int
  | [] => 0
  | c :: cs =>
      if marks.contains c then
        let (negative, cs) := takeSign cs
        let size : Int := digitsValue (takePlainDigits cs).1
        if negative then -size else size
      else 0

/-- The number `± n · 2 ^ e`, rounded to nearest. -/
def binaryScaled (negative : Bool) (n : Nat) (e : Int) : Float :=
  let size : Int := Nat.log2 n + e
  let magnitude : Float :=
    if n = 0 || size < -1100 then Float.ofBits 0
    else if 1100 < size then Arith.infinity
    else if 0 ≤ e then Binary64.nearest (mkRat (n * Power.two e.toNat) 1)
    else Binary64.nearest (mkRat n (Power.two (-e).toNat))
  if negative then -magnitude else magnitude

/-- The decimal number at the beginning of a text, zero if it has no digit. -/
def decimalBeginning (negative : Bool) (cs : List Char) : Float :=
  match takePointed takePlainDigits cs with
  | ([], [], _) => 0
  | (whole, part, rest) =>
      scaled negative (digitsValue (whole ++ part)) (exponentAt ['e', 'E'] rest - part.length)

/-- The number in base sixteen at the beginning of a text, zero if it has no digit. -/
def hexBeginning (negative : Bool) (cs : List Char) : Float :=
  match takePointed takeHex cs with
  | ([], [], _) => 0
  | (whole, part, rest) =>
      binaryScaled negative ((whole ++ part).foldl (fun n d => 16 * n + d) 0)
        (exponentAt ['p', 'P'] rest - 4 * part.length)

/-- Reads the longest beginning of a text that writes a number, in base ten or sixteen, an infinity
or the value that is no number; other texts count as zero. -/
def readBeginning (s : String) : Float :=
  let (negative, cs) := takeSign (s.toList.dropWhile isBlank)
  match (cs.take 3).map Char.toLower with
  | ['i', 'n', 'f'] => if negative then -Arith.infinity else Arith.infinity
  | ['n', 'a', 'n'] => notANumber
  | '0' :: 'x' :: _ => hexBeginning negative (cs.drop 2)
  | _ => decimalBeginning negative cs

end Beginnings

end Decimal
end MipPump
