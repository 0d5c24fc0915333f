import ParityGames.Attractor
import ParityGames.Game.Projection
import ParityGames.Run

/-!
# Zielonka's recursive algorithm

The attractor of the vertices of the greatest priority is split off for the player whom that
priority favours, and the rest is solved. If the opponent wins nothing there, the player wins
everything; otherwise the opponent's winnings and their attractor are split off, and what remains
is solved once more.
-/

namespace ParityGames

namespace Zielonka

/-- Give the player's vertices of the greatest priority a move where they have none. Any move
will do, for the player wins the whole game. -/
def completeTop (g : Game) (p : Player) (top : List Nat) (won : Territory) : Territory :=
  { won with
    moves := Territory.fillMoves won.moves ((top.filter fun v => g.owner v = p).filterMap fun v =>
      (g.successors v).head?.map fun w => (v, w)) }

/-- Solve a game, and count the calls made for it. Every call passes on fewer active vertices, so
one more call than there are vertices is never nested. -/
def solveWithin : Nat → Game → Nat → Run (Solution × Nat)
  | 0, _, _ => Run.fail .unfinished
  | fuel + 1, g, depth => do
      Run.check
      match g.maxPriority? with
      | none => return (Solution.empty g.vertexCount, 1)
      | some d =>
          let p := Player.ofPriority d
          let top := g.verticesWithPriority d
          let a ← attractor g p top
          Run.write (.layer depth d g.size a.region.size)
          let (rest, calls) ← solveWithin fuel (g.difference a.region) (depth + 1)
          let taken := rest.of p.opponent
          if taken.region.isEmpty then
            let won ← (rest.of p).merge a
            let lost := Territory.empty g.vertexCount
            return (Solution.ofWinner p (completeTop g p top won) lost, calls + 1)
          else
            let b ← attractorOfSet g p.opponent taken.region
            Run.write (.setback depth b.region.size)
            let (rest, more) ← solveWithin fuel (g.difference b.region) (depth + 1)
            let lost ← (rest.of p.opponent).merge b
            let lost ← lost.merge taken
            return (Solution.ofWinner p (rest.of p) lost, calls + more + 1)

def solve (g : Game) : Run Solution := do
  if !g.isTotal then Run.fail (.notTotal .zielonka)
  let (solution, calls) ← solveWithin (g.size + 1) g 0
  Run.write (.recursionDone g.size calls)
  return solution

end Zielonka

end ParityGames
