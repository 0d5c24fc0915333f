import ParityGames.Game.Basic
import ParityGames.Improvement.Profile

/-!
# States of strategy improvement

The moves of both players and the profiles of the plays they lead to. The moves of player even are
the strategy that is improved; those of player odd are its best response to the strategy that was
valued last.
-/

namespace ParityGames

structure Improvement where
  game : Game
  /-- The priorities of active vertices. -/
  priorities : VertexTable Nat
  moves : VertexTable Nat
  profiles : VertexTable Profile

namespace Improvement

def start (g : Game) : Improvement where
  game := g
  priorities := g.activePriorities.foldl
    (fun t p => (g.verticesWithPriority p).foldl (fun t v => t.put v p) t)
    (VertexTable.fill 0 g.vertexCount)
  moves := g.vertices.foldl
    (fun t v =>
      match (g.successors v).head? with
      | some w => t.put v w
      | none => t)
    (VertexTable.fill 0 g.vertexCount)
  profiles := VertexTable.fill default g.vertexCount

def move (s : Improvement) (v : Nat) : Nat := s.moves.getD v 0

def profile (s : Improvement) (v : Nat) : Profile := s.profiles.getD v default

def relevance (s : Improvement) (v : Nat) : Relevance := ⟨s.priorities.getD v 0, v⟩

def reward (s : Improvement) (v : Nat) : Reward := Reward.ofRelevance (s.relevance v)

def winner (s : Improvement) (v : Nat) : Player := (s.relevance (s.profile v).head).winner

/-- Where a play can go from `u` if player even keeps to its moves. -/
def successors (s : Improvement) (u : Nat) : List Nat :=
  match s.game.owner u with
  | .even => [s.move u]
  | .odd => s.game.successors u

def predecessors (s : Improvement) (v : Nat) : List Nat :=
  (s.game.predecessors v).filter fun u => s.game.owner u = .odd || s.move u = v

def setProfile (s : Improvement) (v : Nat) (profile : Profile) : Improvement :=
  { s with profiles := s.profiles.put v profile }

def settle (s : Improvement) (v next distance : Nat) : Improvement :=
  { s with
    moves := s.moves.put v next
    profiles := s.profiles.put v { s.profile v with distance := distance } }

def meet (s : Improvement) (v met : Nat) : Improvement :=
  s.setProfile v { s.profile v with before := (s.profile v).before ++ [met] }

/-- How good moving from `u` to `v` is for player even. The distance does not count where `u` is
the head of its own cycle. -/
def preference (s : Improvement) (u v : Nat) : Preference where
  head := s.reward (s.profile v).head
  before := (s.profile v).before.map s.reward ++ [.neutral]
  distance :=
    if (s.profile u).head = u then .ignored
    else
      match s.winner v with
      | .even => .shorter (s.profile v).distance
      | .odd => .longer (s.profile v).distance

end Improvement

end ParityGames
