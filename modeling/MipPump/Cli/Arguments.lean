import MipPump.Number.Decimal
import MipPump.Settings

/-!
# Arguments of the command line

The command takes the path of one instance and options.  An option may be shortened as long as it
stays unique, and its value may follow in the next argument or after an equals sign.  A double dash
after an equals sign leaves the option without a value, which matters only when the value is needed.
An argument that begins with a dash is an option unless it is a negative number or holds a blank; a
double dash ends the options.

* `classify` says what an argument is by itself;
* `readArguments` reads the arguments in order.  Help is given as soon as it is asked for and a
  value that does not fit is refused at once; an argument without a place is refused at the end.
-/

namespace MipPump
namespace Cli

/-- An option that takes a value. -/
inductive ValueOption where
  | checked (option : CheckedOption)
  | maxIterations
  | seed
  | workers
  | threads
  deriving DecidableEq, Repr

/-- What a user asks for. -/
structure Arguments where
  path : String
  settings : RequestedSettings Float
  /-- Number of runs with consecutive seeds. -/
  workers : Int := 1
  /-- Threads of the linear solver. -/
  threads : Int := 1
  plot : Bool := false
  /-- The options that were given without a value. -/
  blanks : List ValueOption := []

/-- What has been read so far. -/
structure Reading where
  path : Option String := none
  settings : RequestedSettings Float := { verbose := true }
  workers : Int := 1
  threads : Int := 1
  plot : Bool := false
  /-- The options that were last given without a value. -/
  blanks : List ValueOption := []
  /-- Whether an argument was met that has no place. -/
  stray : Bool := false

/-- What the arguments amount to. -/
inductive Parsed where
  | run (arguments : Arguments)
  | help
  | usageError

section Options

/-- What an option does: it asks for help, is a switch, or is a function of its value. -/
inductive OptionAction where
  | help
  | switch (f : Reading → Reading)
  | value (option : ValueOption) (f : String → Reading → Option Reading)

/-- An option that takes an integer. -/
def integerOption (option : ValueOption) (f : Int → Reading → Reading) : OptionAction :=
  .value option fun s r => (Decimal.readInteger? s).map (f · r)

/-- An option that takes a number. -/
def numberOption (option : RangedOption) (f : Float → Reading → Reading) : OptionAction :=
  .value (.checked (.ranged option)) fun s r => (Decimal.readNumber? s).map (f · r)

/-- An option that takes one of the given words. -/
def wordOption (family : ChoiceFamily) (isWord : String → Bool) (f : String → Reading → Reading) :
    OptionAction :=
  .value (.checked (.choice family)) fun s r => if isWord s then some (f s r) else none

/-- An integer option whose range is checked. -/
def rangedOption (option : RangedOption) (f : Int → Reading → Reading) : OptionAction :=
  integerOption (.checked (.ranged option)) f

/-- Changes the settings. -/
def onSettings (f : RequestedSettings Float → RequestedSettings Float) (r : Reading) : Reading :=
  { r with settings := f r.settings }

/-- The options by name. -/
def optionTable : List (String × OptionAction) :=
  [ ("--help", .help)
  , ("--max-iterations", integerOption .maxIterations fun n =>
      onSettings ({ · with maxIterations := n }))
  , ("--max-restarts", rangedOption .maxRestarts fun n => onSettings ({ · with maxRestarts := n }))
  , ("--time-budget", numberOption .timeBudget fun x =>
      onSettings ({ · with timeBudget := some x }))
  , ("--rounding", wordOption .rounding (fun s => (RoundingPolicy.ofName? s).isSome) fun s =>
      onSettings ({ · with rounding := s }))
  , ("--tie-break", wordOption .tieBreak (fun s => (TieBreak.ofName? s).isSome) fun s =>
      onSettings ({ · with tieBreak := s }))
  , ("--ranking", wordOption .ranking (fun s => (RankingPolicy.ofName? s).isSome) fun s =>
      onSettings ({ · with ranking := s }))
  , ("--perturbation-fraction", numberOption .perturbationFraction fun x =>
      onSettings ({ · with perturbationFraction := x }))
  , ("--perturbation-step", rangedOption .perturbationStep fun n =>
      onSettings ({ · with perturbationStep := n }))
  , ("--random-flip-count", .switch (onSettings ({ · with randomFlipCount := true })))
  , ("--stall-ceiling", rangedOption .stallCeiling fun n =>
      onSettings ({ · with stallCeiling := n }))
  , ("--initial-alpha", numberOption .initialAlpha fun x =>
      onSettings ({ · with initialAlpha := x }))
  , ("--alpha-schedule", wordOption .alphaSchedule (fun s => (AlphaSchedule.ofName? s).isSome)
      fun s => onSettings ({ · with alphaSchedule := s }))
  , ("--alpha-decay", numberOption .alphaDecay fun x => onSettings ({ · with alphaDecay := x }))
  , ("--seed", integerOption .seed fun n => onSettings ({ · with randomSeed := n }))
  , ("--history-size", rangedOption .cycleHistorySize fun n =>
      onSettings ({ · with cycleHistorySize := n }))
  , ("--tolerance", numberOption .toleranceEpsilon fun x =>
      onSettings ({ · with toleranceEpsilon := x }))
  , ("--workers", integerOption .workers fun n r => { r with workers := n })
  , ("--threads", integerOption .threads fun n r => { r with threads := n })
  , ("--verbosity-interval", rangedOption .verbosityInterval fun n =>
      onSettings ({ · with verbosityInterval := n }))
  , ("--quiet", .switch (onSettings ({ · with verbose := false })))
  , ("--plot", .switch fun r => { r with plot := true }) ]

/-- The options that a text names: the one of that name, or all that begin with it. -/
def optionsNamed (name : String) : List OptionAction :=
  match optionTable.find? (·.1 == name) with
  | some o => [o.2]
  | none => (optionTable.filter fun o => name.toList.isPrefixOf o.1.toList).map (·.2)

end Options

section Parsing

/-- What an argument is by itself. -/
inductive Argument where
  | plain
  | option (action : OptionAction) (attached : Option String)
  /-- The beginning of several options. -/
  | ambiguous
  /-- A text like an option that names none. -/
  | unknown
  /-- The double dash. -/
  | separator

/-- Whether a text is a number in positional notation, maybe with a line break behind it. -/
def isPositional (cs : List Char) : Bool :=
  let cs := if cs.getLast? = some '\n' then cs.dropLast else cs
  match cs.dropWhile Text.isDigit with
  | [] => !cs.isEmpty
  | '.' :: rest => !rest.isEmpty && rest.all Text.isDigit
  | _ => false

/-- Whether a text is a dash and a number in positional notation. -/
def isNegativeNumber (cs : List Char) : Bool :=
  match cs with
  | '-' :: cs => isPositional cs
  | _ => false

/-- Splits a text at its first equals sign. -/
def splitValue (cs : List Char) : String × Option String :=
  let name := cs.takeWhile (· != '=')
  match cs.drop name.length with
  | [] => (String.ofList name, none)
  | _ :: value => (String.ofList name, some (String.ofList value))

/-- A text that begins with a dash and names no option. -/
def withoutOption (cs : List Char) : Argument :=
  if isNegativeNumber cs || cs.contains ' ' then .plain else .unknown

/-- The short form of the help option, which may be repeated. -/
def helpOption (tail : List Char) : Argument :=
  let repeated := match tail with
    | ['='] => none
    | '=' :: letters => some letters
    | letters => some letters
  if repeated.any fun letters => letters.all (· == 'h') then .option .help none
  else .option .help (some (String.ofList tail))

/-- What an argument is by itself. -/
def classify (arg : String) : Argument :=
  match arg.toList with
  | ['-', '-'] => .separator
  | '-' :: 'h' :: tail => helpOption tail
  | '-' :: '-' :: cs =>
      let (name, attached) := splitValue ('-' :: '-' :: cs)
      match optionsNamed name with
      | [] => withoutOption ('-' :: '-' :: cs)
      | [action] => .option action attached
      | _ => .ambiguous
  | '-' :: c :: cs => withoutOption ('-' :: c :: cs)
  | _ => .plain

def Argument.isPlain : Argument → Bool
  | plain => true
  | _ => false

def Argument.isAmbiguous : Argument → Bool
  | ambiguous => true
  | _ => false

/-- Takes an argument as the path, or as one that has no place. -/
def Reading.takePath (r : Reading) (arg : String) : Reading :=
  match r.path with
  | none => { r with path := some arg }
  | some _ => { r with stray := true }

/-- Takes the value of an option. -/
def Reading.give (r : Reading) (option : ValueOption) (f : String → Reading → Option Reading)
    (value : String) : Option Reading :=
  (f value r).map fun r => { r with blanks := r.blanks.filter (· != option) }

/-- Takes an option without a value. -/
def Reading.leaveBlank (r : Reading) (option : ValueOption) : Reading :=
  { r with blanks := option :: r.blanks }

/-- The checked option of an option. -/
def ValueOption.checked? : ValueOption → Option CheckedOption
  | checked option => some option
  | _ => none

/-- What a complete reading amounts to. -/
def Reading.finish (r : Reading) : Parsed :=
  match r.path with
  | some path =>
      if r.stray then .usageError
      else
        .run
          { path, workers := r.workers, threads := r.threads, plot := r.plot, blanks := r.blanks
            settings := { r.settings with blanks := r.blanks.filterMap ValueOption.checked? } }
  | none => .usageError

/-- Reads the arguments from a double dash on.  The dash itself has a place only where a path may
stand or right behind it. -/
def Reading.afterSeparator (r : Reading) (behindPath : Bool) (rest : List String) : Reading :=
  let r := if r.path.isSome && !behindPath then { r with stray := true } else r
  rest.foldl Reading.takePath r

/-- Reads arguments in order; `behindPath` tells whether the path was read just before. -/
def readArguments (r : Reading) (behindPath : Bool) : List String → Parsed
  | [] => r.finish
  | arg :: rest =>
      match classify arg with
      | .separator => (r.afterSeparator behindPath rest).finish
      | .plain => readArguments (r.takePath arg) r.path.isNone rest
      | .unknown => readArguments { r with stray := true } false rest
      | .ambiguous => .usageError
      | .option .help none => .help
      | .option .help (some _) => .usageError
      | .option (.switch f) none => readArguments (f r) false rest
      | .option (.switch _) (some _) => .usageError
      | .option (.value option _) (some "--") => readArguments (r.leaveBlank option) false rest
      | .option (.value option f) (some value) =>
          match r.give option f value with
          | some r => readArguments r false rest
          | none => .usageError
      | .option (.value option f) none =>
          match rest with
          | [] => .usageError
          | value :: rest =>
              if (classify value).isPlain then
                match r.give option f value with
                | some r => readArguments r false rest
                | none => .usageError
              else .usageError

/-- Reads the arguments of the command; an ambiguous option is refused before all else. -/
def parse (args : List String) : Parsed :=
  if (args.takeWhile (· != "--")).any fun arg => (classify arg).isAmbiguous then .usageError
  else readArguments {} false args

end Parsing

end Cli
end MipPump
