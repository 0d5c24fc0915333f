import ParityGames.Improvement.Solve
import ParityGames.Progress.Solve
import ParityGames.Solver.Promotion
import ParityGames.Solver.Zielonka

/-!
# Solvers

The solving methods with their parameters, under one name each.
-/

namespace ParityGames

inductive Solver where
  | zielonka
  | promotion
  | progressMeasures (policy : Policy)
  | improvement (limit? : Option Nat)
deriving DecidableEq, Repr

namespace Solver

def name : Solver → String
  | .zielonka => "zielonka"
  | .promotion => "promotion"
  | .progressMeasures .predecessor => "spm"
  | .progressMeasures .linear => "spm-linear"
  | .improvement _ => "improvement"

def run : Solver → Game → Run Solution
  | .zielonka => Zielonka.solve
  | .promotion => Promotion.solve
  | .progressMeasures policy => ProgressMeasures.solve policy
  | .improvement limit? => Improvement.solve limit?

def defaultPolicy : Policy := .predecessor

/-- Every solver once, in the order in which they are tried. -/
def all (limit? : Option Nat) : List Solver :=
  [.zielonka, .promotion, .progressMeasures .predecessor, .progressMeasures .linear,
    .improvement limit?]

end Solver

end ParityGames
