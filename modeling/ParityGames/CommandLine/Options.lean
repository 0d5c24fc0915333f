import ParityGames.Fault
import ParityGames.Solver
import ParityGames.Text.Scanner

/-!
# Options of the command line

The command line names one game file and may choose solvers, limits and what is printed. The program
declares its options; how they are found among the arguments is left to its argument library, whose
rules are taken over here:

* arguments are read one after the other, and the first that is not understood or asks for help
  decides how the reading ends;
* an option or a switch is given at most once, before the path or behind it;
* the value of an option follows as the next argument or behind an equals sign, as the next argument
  it does not start with a dash unless it is a dash alone, and a switch has no value;
* a number is written in decimal digits, with a plus sign in front or without, and is below the
  bound on numbers;
* `--help` asks for help, and so does `-h`, whatever letters follow it;
* a path is not empty, and behind a double dash there are only paths.

What the help text and the messages on arguments say is up to the library and left out.
-/

namespace ParityGames

inductive Choice where
  | one (solver : Option Nat → Solver)
  | all

def Choice.solvers (limit? : Option Nat) : Choice → List Solver
  | .one solver => [solver limit?]
  | .all => Solver.all limit?

def Choice.named : List (String × Choice) :=
  [("zielonka", .one fun _ => .zielonka),
    ("promotion", .one fun _ => .promotion),
    ("spm", .one fun _ => .progressMeasures .predecessor),
    ("spm-linear", .one fun _ => .progressMeasures .linear),
    ("improvement", .one .improvement),
    ("all", .all)]

structure Options where
  /-- The path of the game file. -/
  path? : Option String
  choice? : Option Choice
  /-- Give up on a solver after this many seconds. -/
  timeout? : Option Nat
  /-- Stop strategy improvement after this many steps. -/
  limit? : Option Nat
  /-- Also print the moves. -/
  moves : Bool

namespace Options

def empty : Options := ⟨none, none, none, none, false⟩

def solvers (o : Options) : List Solver :=
  (o.choice?.getD (.one fun _ => .zielonka)).solvers o.limit?

def number? (text : String) : Option Nat :=
  let digits :=
    match text.toList with
    | '+' :: rest => rest
    | chars => chars
  if digits.isEmpty || !digits.all Char.isDigit then none
  else
    let n := Text.decimalValue digits
    if n < numberBound then some n else none

def enter (o : Options) (option value : String) : Option Options :=
  match option with
  | "--solver" =>
      if o.choice?.isSome then none
      else (Choice.named.lookup value).map fun choice => { o with choice? := some choice }
  | "--timeout" =>
      if o.timeout?.isSome then none
      else (number? value).map fun n => { o with timeout? := some n }
  | "--max-iterations" =>
      if o.limit?.isSome then none
      else (number? value).map fun n => { o with limit? := some n }
  | _ => none

/-- An argument up to its first equals sign, and what is behind it. -/
def splitValue (argument : String) : String × Option String :=
  let chars := argument.toList
  match chars.dropWhile (· ≠ '=') with
  | [] => (argument, none)
  | _ :: value => (String.ofList (chars.takeWhile (· ≠ '=')), some (String.ofList value))

def enterPath (o : Options) (path : String) : Option Options :=
  if o.path?.isSome || path.isEmpty then none else some { o with path? := some path }

def isOption (argument : String) : Bool :=
  argument.toList.head? = some '-' && argument ≠ "-"

def asksForHelp (argument : String) : Bool :=
  argument = "--help" || ['-', 'h'].isPrefixOf argument.toList

/-- Why the program does not run on its arguments. -/
inductive Refusal where
  /-- They ask for the help text instead. -/
  | help
  | misunderstood
deriving DecidableEq

def understood {α : Type} : Option α → Except Refusal α
  | some a => .ok a
  | none => .error .misunderstood

/-- Read arguments one after the other. Behind a double dash there are no more options. -/
def parseFrom (o : Options) : List String → Except Refusal Options
  | [] => .ok o
  | "--" :: rest => understood (rest.foldlM enterPath o)
  | "--strategy" :: rest =>
      if o.moves then .error .misunderstood else parseFrom { o with moves := true } rest
  | argument :: rest =>
      if asksForHelp argument then .error .help
      else if !isOption argument then do parseFrom (← understood (o.enterPath argument)) rest
      else
        match splitValue argument, rest with
        | (option, some value), rest => do parseFrom (← understood (o.enter option value)) rest
        | (_, none), [] => .error .misunderstood
        | (option, none), value :: rest =>
            if isOption value then .error .misunderstood
            else do parseFrom (← understood (o.enter option value)) rest

/-- Read the arguments of the program. A path has to be among them. -/
def parse (arguments : List String) : Except Refusal (String × Options) := do
  let o ← parseFrom empty arguments
  return (← understood o.path?, o)

end Options

end ParityGames
