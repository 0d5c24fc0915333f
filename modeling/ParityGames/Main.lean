import ParityGames.CommandLine.Report

/-!
# The program

Reads a game file, runs the chosen solvers with a time limit each, and prints the report. All
decisions are made in `Report`; this module reads, measures time and prints.
-/

namespace ParityGames

/-- Follow a run in the world: every poll asks whether the token is raised. -/
def Run.execute {α : Type} (raised : IO Bool) : Run α → IO (Except Stop α)
  | .finish result => return result
  | .poll next => do
      if ← raised then return .error .cancelled
      execute raised (next ())
  | .record _ next => execute raised (next ())

namespace Main

def since (start : Nat) : IO String := do
  let now ← IO.monoMsNow
  return s!"{now - start}ms"

/-- Wait for a task until a moment, if one is given, and tell whether it ended in time. -/
partial def await {α : Type} (task : Task α) (deadline? : Option Nat) : IO Bool := do
  if ← IO.hasFinished task then return true
  match deadline? with
  | some deadline =>
      if deadline ≤ (← IO.monoMsNow) then return false
      IO.sleep 1
      await task deadline?
  | none =>
      let _ ← IO.wait task
      return true

def work (o : Options) (g : Game) (solver : Solver) : IO (Timing × String) := do
  let start ← IO.monoMsNow
  let token ← IO.mkRef false
  let task ← IO.asTask ((solver.run g).execute token.get)
  let inTime ← await task (o.timeout?.map fun seconds => start + 1000 * seconds)
  token.set true
  let ending ←
    match ← IO.wait task with
    | .ok outcome => pure (if inTime then Ending.ofOutcome outcome else .overdue)
    | .error cause => pure (.broken (some (toString cause)))
  return (.ofEnding ending, ← since start)

def conclude (lines : List String) (error? : Option ReportError) : IO UInt32 := do
  lines.forM fun line => IO.println line
  match error? with
  | none => return 0
  | some cause =>
      (cause.lines.getD ["error: the arguments are not understood"]).forM fun line =>
        IO.eprintln line
      return UInt32.ofNat cause.code

def help : List String :=
  ["Solves a parity game given in the PGSolver format.",
    "",
    "Usage: parity [OPTIONS] <PATH>",
    "",
    "  <PATH>                Path of the game file",
    "  --solver <NAME>       One of: " ++ ", ".intercalate (Choice.named.map (·.1)),
    "  --timeout <N>         Cancel each solver after this many seconds",
    "  --max-iterations <N>  Strategy improvement iteration cap",
    "  --strategy            Also print the winning strategies",
    "  -h, --help            Print this text"]

def solveFile (path : String) (o : Options) : IO UInt32 := do
  let start ← IO.monoMsNow
  match Report.load (← IO.FS.readFile path) with
  | .error cause => conclude [] (some cause)
  | .ok f =>
      let preprocessing ← since start
      let worked ← o.solvers.mapM fun solver => do
        return (solver.name, ← work o f.game solver)
      let times := worked.filterMap fun entry =>
        entry.2.1.solution?.map fun _ => entry.2.2
      let (lines, error?) :=
        Report.forTimings f o.moves (worked.map fun entry => (entry.1, entry.2.1))
      conclude (ReportLine.renderAll lines (preprocessing :: times)) error?

end Main

end ParityGames

def main (arguments : List String) : IO UInt32 := do
  match ParityGames.Options.parse arguments with
  | .error .help => ParityGames.Main.conclude ParityGames.Main.help (some (.refused .help))
  | .error cause => ParityGames.Main.conclude [] (some (.refused cause))
  | .ok (path, o) =>
      try
        ParityGames.Main.solveFile path o
      catch cause =>
        IO.eprintln s!"Error: Failed to read {path}\n\nCaused by:\n    {cause}"
        return 1
