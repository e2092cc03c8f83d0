import MipPump.Text.Hidden

/-!
# Quoted text

A text is quoted so that it stays on one line and every character can be told: the quote, the
backslash and the ends of lines are escaped, and a character without a visible form is written by
its number.
-/

namespace MipPump
namespace Text

/-- A number in base sixteen with at least `width` digits. -/
def hexText (width n : Nat) : String :=
  let s := String.ofList (Nat.toDigits 16 n)
  String.ofList (List.replicate (width - s.length) '0') ++ s

/-- One character inside quotes of the kind `quote`. -/
def quotedChar (quote : Char) (c : Char) : String :=
  if c == '\\' then "\\\\"
  else if c == '\n' then "\\n"
  else if c == '\r' then "\\r"
  else if c == '\t' then "\\t"
  else if c == quote then String.ofList ['\\', c]
  else if c.toNat < 0x20 then "\\x" ++ hexText 2 c.toNat
  else if isHidden c then
    if c.toNat < 0x100 then "\\x" ++ hexText 2 c.toNat
    else if c.toNat < 0x10000 then "\\u" ++ hexText 4 c.toNat
    else "\\U" ++ hexText 8 c.toNat
  else String.ofList [c]

/-- A text in single quotes, or in double quotes when it holds a single quote and no double one. -/
def quoted (s : String) : String :=
  let quote := if s.toList.contains '\'' && !s.toList.contains '"' then '"' else '\''
  String.ofList [quote] ++ String.join (s.toList.map (quotedChar quote)) ++ String.ofList [quote]

end Text
end MipPump
