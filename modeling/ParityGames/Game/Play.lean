import ParityGames.Game.Basic

/-!
# Plays

A play is an infinite walk along edges between active vertices. It is won by the player whom its
greatest priority favours among those that it meets infinitely often.
-/

namespace ParityGames

namespace Game

/-- An edge between active vertices. -/
def Edge (g : Game) (u v : Nat) : Prop := g.contains u = true ∧ v ∈ g.successors u

/-- An infinite walk along edges. -/
def IsPlay (g : Game) (play : Nat → Nat) : Prop := ∀ i, g.Edge (play i) (play (i + 1))

/-- The player makes the given moves wherever it has one. -/
def Follows (g : Game) (p : Player) (moves : SortedMap Nat) (play : Nat → Nat) : Prop :=
  ∀ i w, g.owner (play i) = p → moves.get? (play i) = some w → play (i + 1) = w

/-- The greatest priority that a walk meets infinitely often. -/
def IsLimitPriority (g : Game) (play : Nat → Nat) (priority : Nat) : Prop :=
  (∀ i, ∃ j, i ≤ j ∧ g.priorityOf (play j) = priority) ∧
    ∃ i, ∀ j, i ≤ j → g.priorityOf (play j) ≤ priority

/-- The greatest priority that a walk meets infinitely often favours the player. -/
def WonBy (g : Game) (p : Player) (play : Nat → Nat) : Prop :=
  ∃ priority, g.IsLimitPriority play priority ∧ Player.ofPriority priority = p

end Game

end ParityGames
