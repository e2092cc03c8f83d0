import MipPump.Number.Decimal
import MipPump.Pump.Basic

/-!
# Printed lines

The text of the lines that a run prints.  The function that writes the elapsed time is a parameter.
-/

namespace MipPump

/-- An elapsed time in a column of its own. -/
def elapsedText (seconds : Float) : String := Decimal.padLeft 5 (Decimal.fixed 2 seconds) ++ "s"

/-- One record as a row of the progress table. -/
def Record.text (time : String) (r : Record Float) : String :=
  Decimal.padLeft 6 (toString r.iteration) ++ "  " ++ Decimal.padRight 12 r.phase.name ++ " |"
    ++ Decimal.padLeft 10 (Decimal.fixed 4 r.distance) ++ "  "
    ++ Decimal.padLeft 8 (Decimal.fixed 4 r.alpha) ++ "  "
    ++ Decimal.padLeft 6 (toString r.fractional) ++ " | "
    ++ Decimal.padLeft 8 (toString r.restarts) ++ " | " ++ time ++ " |\n"

/-- A printed line with its end. -/
def Line.text (time : Float → String) : Line Float → String
  | header numVars numIntegers =>
      "Feasibility pump on " ++ toString numVars ++ " variables (" ++ toString numIntegers
        ++ " integer)\n"
        ++ "  Iter  Phase        |  Distance     Alpha   IntInf | Restarts |  Time  |\n"
        ++ "----------------------+-------------------------------+----------+--------+\n"
  | record r elapsed => r.text (time elapsed)
  | found iterations objective =>
      "FP found a feasible point after " ++ toString iterations ++ " iterations: "
        ++ Decimal.fixed 6 objective ++ "\n"
  | stopped reason iterations =>
      "FP stopped without a feasible point (" ++ reason.name ++ ") after " ++ toString iterations
        ++ " iterations\n"

/-- The text of several lines. -/
def Line.textAll (time : Float → String) (lines : List (Line Float)) : String :=
  String.join (lines.map (Line.text time))

end MipPump
