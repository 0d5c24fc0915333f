import ParityGames.CommandLine.Options
import ParityGames.GameFile.Conversion
import ParityGames.GameFile.Reader
import ParityGames.Solution.Check
import ParityGames.Text.Layout
import ParityGames.Timing

/-!
# Reports of the command line

What the command line prints for a game file. Every solver is run and its solution is checked; all
solutions have to agree on the regions, and the first of them is printed in the ids of the file.
-/

namespace ParityGames

inductive ReportLine where
  | plain (text : String)
  /-- The time that something took. -/
  | took (what : String)
deriving DecidableEq, Repr

/-- The text of a line, the time left out. -/
def ReportLine.text : ReportLine → String
  | .plain text => text
  | .took what => what ++ " took"

/-- The texts of lines, with times for those that have one. -/
def ReportLine.renderAll : List ReportLine → List String → List String
  | [], _ => []
  | .took what :: lines, time :: times =>
      ((ReportLine.took what).text ++ " " ++ time) :: renderAll lines times
  | line :: lines, times => line.text :: renderAll lines times

/-- Why there is no report, or none to its end. -/
inductive ReportError where
  | refused (cause : Options.Refusal)
  | unreadable (place : Nat)
  | invalid (cause : ConversionError)
  /-- A solution does not fit the game. -/
  | flawed (flaw : Flaw)
  | broken (cause : Fault)
  | unsolved
  | disagreement (ours theirs : VertexSet)
deriving DecidableEq

namespace ReportError

/-- The exit code of the program. To be asked for help is no failure. -/
def code : ReportError → Nat
  | .refused .help => 0
  | .refused .misunderstood => 2
  | _ => 1

/-- The lines on the error output; none of its own for arguments that are not understood. -/
def lines : ReportError → Option (List String)
  | .refused .help => some []
  | .refused .misunderstood => none
  | .unreadable _ => some ["Error: Failed to parse parity game file"]
  | .invalid cause =>
      some ["Error: Invalid parity game", "", "Caused by:", "    " ++ cause.message]
  | .flawed flaw => some ["Error: " ++ flaw.message]
  | .broken cause => some ["Error: " ++ cause.text?.getD "unknown panic"]
  | .unsolved => some ["Error: No solver produced a solution"]
  | .disagreement ours theirs =>
      some ["Error: Solvers disagree on the region of player 0: " ++ ours.listing ++ " vs " ++
        theirs.listing]

end ReportError

namespace Report

def timingLine (name : String) : Timing → ReportLine
  | .solved _ => .took s!"{name}: solve"
  | .timeout => .plain s!"{name}: Timeout (-1)"
  | .outOfMemory => .plain s!"{name}: OutOfMemory (-2)"
  | .failed message => .plain s!"{name}: failed (-3): {message}"

def winnerLine (f : FileGame) (s : Solution) (start : Nat) : ReportLine :=
  let winner :=
    match s.winner? start with
    | some p => toString p.number
    | none => "-1"
  .plain s!"Winner from {f.idOf start}: player {winner}"

/-- The moves of a territory in the ids of the file, in increasing order. -/
def moveLines (f : FileGame) (t : Territory) : List ReportLine :=
  let moves := t.moves.entries.map fun move => (f.idOf move.1, f.idOf move.2)
  let before := fun (a b : Nat × Nat) => a.1 < b.1 || (a.1 = b.1 && a.2 ≤ b.2)
  (Ranking.sortBy before moves).map fun move => .plain s!"  {move.1} -> {move.2}"

def regionIds (f : FileGame) (s : Solution) (p : Player) : List Nat :=
  Ranking.sort ((s.region p).toList.map f.idOf)

def territoryLines (f : FileGame) (s : Solution) (moves : Bool) (p : Player) : List ReportLine :=
  .plain s!"Won by {p.name}: {Text.numberList (regionIds f s p)}" ::
    if moves then moveLines f (s.of p) else []

def solutionLines (f : FileGame) (moves : Bool) (s : Solution) : List ReportLine :=
  (match f.start? with
    | some start => [winnerLine f s start]
    | none => []) ++
  Player.both.flatMap (territoryLines f s moves)

def checkedSolutions (g : Game) : List Timing → Except ReportError (List Solution)
  | [] => .ok []
  | timing :: rest =>
      match timing.solution? with
      | none => checkedSolutions g rest
      | some solution =>
          match solution.check g with
          | .error cause => .error (.broken cause)
          | .ok (some flaw) => .error (.flawed flaw)
          | .ok none => (checkedSolutions g rest).map (solution :: ·)

def agreedSolution : List Solution → Except ReportError Solution
  | [] => .error .unsolved
  | first :: rest =>
      match rest.find? fun s => Player.both.any fun p => s.region p ≠ first.region p with
      | some other => .error (.disagreement (first.region .even) (other.region .even))
      | none => .ok first

/-- The timings up to the first whose solution does not fit; no solver is run after it. -/
def attempted (g : Game) (timings : List (String × Timing)) : List (String × Timing) :=
  match timings with
  | [] => []
  | (name, timing) :: rest =>
      match checkedSolutions g [timing] with
      | .ok _ => (name, timing) :: attempted g rest
      | .error _ => [(name, timing)]

/-- The lines printed for a game, given how the work of every solver ended, and the error that ends
the report early. -/
def forTimings (f : FileGame) (moves : Bool) (timings : List (String × Timing)) :
    List ReportLine × Option ReportError :=
  let heading := .took "Preprocessing" ::
    (attempted f.game timings).map fun entry => timingLine entry.1 entry.2
  match checkedSolutions f.game (timings.map (·.2)) >>= agreedSolution with
  | .error cause => (heading, some cause)
  | .ok solution => (heading ++ solutionLines f moves solution, none)

/-- How the work of a solver ends if it gets the time it needs, or no time at all. -/
def timing (o : Options) (g : Game) (solver : Solver) : Timing :=
  .ofEnding (if o.timeout? = some 0 then .overdue else .ofOutcome (solver.run g).outcome)

def load (text : String) : Except ReportError FileGame :=
  match GameFile.read text with
  | .error place => .error (.unreadable place)
  | .ok file =>
      match file.toGame with
      | .error cause => .error (.invalid cause)
      | .ok game => .ok game

/-- The report on the text of a game file, where solvers that get any time get enough of it. -/
def make (text : String) (arguments : List String) : List ReportLine × Option ReportError :=
  match Options.parse arguments with
  | .error cause => ([], some (.refused cause))
  | .ok (_, o) =>
      match load text with
      | .error cause => ([], some cause)
      | .ok f =>
          forTimings f o.moves (o.solvers.map fun solver => (solver.name, timing o f.game solver))

end Report

end ParityGames
