import MipPump.Mps.Draft
import MipPump.Number.Decimal

/-!
# Reading problem files

A file is a sequence of sections in a fixed order; the name, the direction, the ranges and the
bounds may be left out.  A line that begins without a blank names a section; the other lines hold
fields separated by blanks.  A line that begins with a star is a comment.  Headings, codes and
markers may be written in small letters.

A number is what the beginning of a field writes, so that a field without a number counts as zero.
A value that is no number makes the file unreadable, and so does an infinite coefficient.

* `Mps.read` reads a text that ends as it should;
* `Mps.load` takes the instance of a file in.
-/

namespace MipPump
namespace Mps

/-- The sections of a file. -/
inductive Section where
  | name
  | sense
  | rows
  | columns
  | rhs
  | ranges
  | bounds
  | finish
  deriving DecidableEq, Repr

section Lines

/-- Whether a character separates fields. -/
def isSeparator (c : Char) : Bool := c == ' ' || c == '\t' || c == '\r'

/-- Splits a list of characters at the blanks. -/
def fieldsOf : List Char → List Char → List String
  | word, [] => if word.isEmpty then [] else [String.ofList word.reverse]
  | word, c :: cs =>
      if isSeparator c then
        if word.isEmpty then fieldsOf [] cs else String.ofList word.reverse :: fieldsOf [] cs
      else fieldsOf (c :: word) cs

/-- The fields of a line. -/
def fields (line : String) : List String := fieldsOf [] line.toList

/-- A word in capital letters. -/
def capitals (word : String) : String := String.ofList (word.toList.map Char.toUpper)

/-- The section that a heading names. -/
def Section.ofHeading? (word : String) : Option Section :=
  match capitals word with
  | "NAME" => some name
  | "OBJSENSE" => some sense
  | "ROWS" => some rows
  | "COLUMNS" => some columns
  | "RHS" => some rhs
  | "RANGES" => some ranges
  | "BOUNDS" => some bounds
  | "ENDATA" => some finish
  | _ => none

/-- The direction of an objective: a word for the greatest value, and any other for the least. -/
def directionOf (word : String) : Direction :=
  if "MAX".toList.isPrefixOf (capitals word).toList then .maximize else .minimize

/-- The sense of a row; an objective has none. -/
def senseOf? (code : String) : Option (Option Sense) :=
  match capitals code with
  | "N" => some none
  | "L" => some (some .atMost)
  | "G" => some (some .atLeast)
  | "E" => some (some .equal)
  | _ => none

/-- What a code of bounds sets. -/
def BoundCode.ofText? (code : String) : Option BoundCode :=
  match capitals code with
  | "UP" => some upper
  | "LO" => some lower
  | "FX" => some fixed
  | "FR" => some free
  | "MI" => some minusInfinity
  | "PL" => some plusInfinity
  | "BV" => some binary
  | "LI" => some integerLower
  | "UI" => some integerUpper
  | "SC" => some semiContinuous
  | _ => none

/-- The number of a field. -/
def number? (field : String) : Option Float :=
  let x := Decimal.readBeginning field
  if Arith.isNaN x then none else some x

/-- The coefficient of a field. -/
def coefficient? (field : String) : Option Float :=
  (number? field).filter fun x => !Arith.isInf x

/-- Whether a name is short enough. -/
def isName (name : String) : Bool := decide (name.utf8ByteSize ≤ longestName)

end Lines

section Order

/-- Whether a section may begin after the given ones, the latest first. -/
def Section.mayFollow (begun : List Section) (s : Section) : Bool :=
  !begun.contains s &&
    match s with
    | name => begun.isEmpty
    | sense => !begun.contains rows
    | rows => true
    | columns => begun.contains rows
    | rhs => begun.contains columns
    | ranges | bounds | finish => begun.contains rhs

end Order

section Sections

/-- Adds pairs of a row name and a number. -/
def addPairs? (value? : String → Option Float) (add : Draft → String → Float → Draft) :
    Draft → List String → Option Draft
  | d, [] => some d
  | d, row :: field :: rest => do
      let x ← value? field
      addPairs? value? add (add d row x) rest
  | _, [_] => none

/-- Reads a line of rows. -/
def readRow? (d : Draft) : List String → Option Draft
  | [code, name] =>
      if isName name then (senseOf? code).map fun sense => d.addRow name sense else none
  | _ => none

/-- Whether a line is a marker, and whether the columns behind it are integer columns. -/
def marker? (words : List String) : Option Bool :=
  match words.tail.map capitals with
  | ["'MARKER'", "'INTORG'"] => some true
  | ["'MARKER'", "'INTEND'"] => some false
  | _ => none

/-- Reads a line of columns. -/
def readEntries? (d : Draft) : List String → Option Draft
  | column :: row :: field :: rest =>
      if isName column then
        addPairs? coefficient? (fun d row x => d.addEntry column row x) d (row :: field :: rest)
      else none
  | _ => none

/-- Reads a line of columns or an integer marker. -/
def readColumn? (d : Draft) (words : List String) : Option Draft :=
  match marker? words with
  | some marking => some { d with marking }
  | none => readEntries? d words

/-- Reads pairs that follow the name of a set. -/
def readSet? (add : Draft → String → Float → Draft) (d : Draft) : List String → Option Draft
  | _ :: row :: field :: rest => addPairs? number? add d (row :: field :: rest)
  | _ => none

/-- Reads a line of bounds: a code, the name of a set, a column, and a value if the code has one. -/
def readBound? (d : Draft) : List String → Option Draft
  | code :: _ :: column :: rest => do
      let code ← BoundCode.ofText? code
      match code.hasValue, rest with
      | true, [field] => (number? field).map fun x => d.addBound code column x
      | false, [] | false, [_] => some (d.addBound code column 0)
      | _, _ => none
  | _ => none

/-- Reads a line of a section. -/
def readLine? (d : Draft) (words : List String) : Section → Option Draft
  | .name => none
  | .sense =>
      match words with
      | [word] => some { d with direction := directionOf word }
      | _ => none
  | .rows => readRow? d words
  | .columns => readColumn? d words
  | .rhs => readSet? Draft.addRhs d words
  | .ranges => readSet? Draft.addRange d words
  | .bounds => readBound? d words
  | .finish => some d

/-- Reads a heading after the sections that have begun; the direction of the objective may stand
beside its heading. -/
def readHeading? (d : Draft) (begun : List Section) : List String → Option (Draft × Section)
  | [] => none
  | word :: rest => do
      let s ← Section.ofHeading? word
      if !s.mayFollow begun then none
      match s, rest with
      | .sense, [word] => some ({ d with direction := directionOf word }, s)
      | _, _ => some (d, s)

/-- Reads lines up to the end; `begun` lists the sections that have begun, the latest first. -/
def readLines? : Draft → (begun : List Section) → List String → Option Draft
  | _, _, [] => none
  | d, begun, line :: rest =>
      match line.toList with
      | [] => readLines? d begun rest
      | '*' :: _ => readLines? d begun rest
      | c :: _ =>
          let words := fields line
          if words.isEmpty then readLines? d begun rest
          else if isSeparator c then
            match begun with
            | [] => none
            | s :: _ => do readLines? (← readLine? d words s) begun rest
          else do
            let (d, s) ← readHeading? d begun words
            if s = .finish then some d else readLines? d (s :: begun) rest

end Sections

section Files

/-- The draft of a text that is a complete file. -/
def read (text : String) : Except (Fault Float) Draft :=
  match readLines? {} [] (text.splitOn "\n") with
  | some d => .ok d
  | none => .error .unreadable

/-- The last part of a path. -/
def baseName (path : String) : String := (path.splitOn "/").getLastD ""

/-- Whether a file name has the extension of a problem file. -/
def isProblemFile (name : String) : Bool :=
  let cs := name.toList
  String.ofList ((cs.drop (cs.length - 4)).map Char.toLower) == ".mps"

/-- The instance in the text of a file, as a minimisation; it is named after the file. -/
def load (path text : String) : Except (Fault Float) (Instance Float) :=
  let name := baseName path
  if isProblemFile name then (read text).map fun d => (d.asGiven name).takeIn d.direction
  else .error .unreadable

/-- What is told about an instance while it is taken in. -/
def notice (m : Instance Float) : String :=
  match m.direction with
  | .minimize => ""
  | .maximize => "[INFO] Maximization problem detected. Negating objective function.\n"

end Files

end Mps
end MipPump
