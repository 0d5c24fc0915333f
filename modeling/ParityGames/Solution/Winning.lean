import ParityGames.Game.Play
import ParityGames.Solution.Basic

/-!
# Winning territories

What solutions are for. A territory of a player is sound if it has a move exactly at the player's
own vertices of its region, along an edge that stays in the region; it is winning if moreover the
player wins every play that starts in the region and follows the moves. A solution solves a game if
it shares out the active vertices into two winning territories.
-/

namespace ParityGames

/-- The moves are made at the player's own vertices of the region, and stay in it. -/
structure Territory.Sound (t : Territory) (g : Game) (p : Player) : Prop where
  active : ∀ v, t.region.contains v = true → g.contains v = true
  hasMove : ∀ v, (∃ w, t.moves.get? v = some w) ↔ t.region.contains v = true ∧ g.owner v = p
  stays : ∀ v w, t.moves.get? v = some w → w ∈ g.successors v ∧ t.region.contains w = true

/-- Every play that starts in the region and follows the moves stays there and is won. -/
structure Territory.Winning (t : Territory) (g : Game) (p : Player) : Prop extends
    t.Sound g p where
  wins : ∀ play, g.IsPlay play → t.region.contains (play 0) = true → g.Follows p t.moves play →
    (∀ i, t.region.contains (play i) = true) ∧ g.WonBy p play

/-- Every active vertex is in exactly one region, and no other vertex is in any. -/
def Solution.Shares (s : Solution) (g : Game) : Prop :=
  ∀ v, ((s.region .even).contains v = true ∨ (s.region .odd).contains v = true ↔
      g.contains v = true) ∧
    ¬ ((s.region .even).contains v = true ∧ (s.region .odd).contains v = true)

/-- The solution fits the game: this is what `Solution.check` decides. -/
structure Solution.Fits (s : Solution) (g : Game) : Prop where
  shares : s.Shares g
  sound : ∀ p, (s.of p).Sound g p

/-- The solution is one: both territories are winning. -/
structure Solution.Solves (s : Solution) (g : Game) : Prop where
  shares : s.Shares g
  winning : ∀ p, (s.of p).Winning g p

end ParityGames
