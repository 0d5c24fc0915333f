import ParityGames.Improvement.Valuation
import ParityGames.Run
import ParityGames.Solution.Basic

/-!
# Strategy improvement

Player even switches to better moves until no vertex has one; the response of player odd to the
last strategy is then its own strategy.
-/

namespace ParityGames

namespace Improvement

/-- A successor of `u` that is better for player even than its move, the best of them. -/
def betterMove? (s : Improvement) (u : Nat) : Option Nat :=
  let options := (s.game.successors u).map fun v => (s.preference u v, v)
  match Ranking.lastGreatest (fun a b => Preference.cmp a.1 b.1) options with
  | some (best, v) =>
      if Preference.cmp best (s.preference u (s.move u)) = .gt then some v else none
  | none => none

def switches (s : Improvement) : List (Nat × Nat) :=
  (s.game.vertices.filter fun u => s.game.owner u = .even).filterMap fun u =>
    (s.betterMove? u).map fun v => (u, v)

def improve (s : Improvement) : Improvement × Bool :=
  let switches := s.switches
  ({ s with moves := switches.foldl (fun t switch => t.put switch.1 switch.2) s.moves },
    !switches.isEmpty)

/-- Value and improve until the strategy is stable, counting the improvements. -/
def stabilise (limit? : Option Nat) : Nat → Improvement → Nat → Run (Improvement × Nat)
  | 0, _, _ => Run.fail .unfinished
  | fuel + 1, s, iterations => do
      Run.check
      let valued ← s.valuation
      match valued.improve with
      | (_, false) => return (valued, iterations)
      | (improved, true) =>
          let iterations := iterations + 1
          Run.write (.improved iterations)
          match limit? with
          | some limit =>
              if limit < iterations then .finish (.error (.iterationLimit limit))
              else stabilise limit? fuel improved iterations
          | none => stabilise limit? fuel improved iterations

/-- A bound on the rounds: no strategy comes back. -/
def roundBound (g : Game) : Nat := Nat.pow (g.vertexCount + 1) g.vertexCount + 1

def solution (s : Improvement) : Solution :=
  s.game.vertices.foldl
    (fun solution v =>
      let winner := s.winner v
      let won := solution.of winner
      let moves := if s.game.owner v = winner then won.moves.insert v (s.move v) else won.moves
      solution.put winner ⟨won.region.insert v, moves⟩)
    (Solution.empty s.game.vertexCount)

def solve (limit? : Option Nat) (g : Game) : Run Solution := do
  if !g.isTotal then Run.fail (.notTotal .improvement)
  let (s, iterations) ← stabilise limit? (roundBound g) (start g) 0
  Run.write (.improvementDone g.size iterations)
  return s.solution

end Improvement

end ParityGames
