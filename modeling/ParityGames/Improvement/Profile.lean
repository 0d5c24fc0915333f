import ParityGames.Player
import ParityGames.Data.Ranking

/-!
# Relevance, rewards and profiles

The orders of strategy improvement. A vertex is more relevant than another if its priority is
greater, or its number where the priorities are equal. Meeting a vertex is a reward for player even
if its priority is even and a penalty if it is odd, the larger the more relevant the vertex is. A
profile sums up a play, and a preference says how good the profile is for player even.
-/

namespace ParityGames

structure Relevance where
  priority : Nat
  vertex : Nat
deriving DecidableEq, Repr, Inhabited

namespace Relevance

def cmp (a b : Relevance) : Ordering :=
  (compare a.priority b.priority).then (compare a.vertex b.vertex)

def winner (r : Relevance) : Player := Player.ofPriority r.priority

end Relevance

/-- How good it is for player even to meet a vertex. -/
inductive Reward where
  | loss (r : Relevance)
  | neutral
  | gain (r : Relevance)
deriving DecidableEq, Repr, Inhabited

namespace Reward

def ofRelevance (r : Relevance) : Reward :=
  match r.winner with
  | .even => .gain r
  | .odd => .loss r

/-- Losses come before gains; greater losses come first, and greater gains last. -/
def cmp : Reward → Reward → Ordering
  | .loss a, .loss b => Relevance.cmp b a
  | .loss _, _ => .lt
  | _, .loss _ => .gt
  | .neutral, .neutral => .eq
  | .neutral, .gain _ => .lt
  | .gain _, .neutral => .gt
  | .gain a, .gain b => Relevance.cmp a b

end Reward

/-- A play from a vertex on which both players keep to their moves. -/
structure Profile where
  /-- The most relevant vertex of the cycle in which the play ends. -/
  head : Nat
  /-- The vertices more relevant than `head` that are met before it, the most relevant first. -/
  before : List Nat
  /-- How many vertices are met before `head`. -/
  distance : Nat
deriving DecidableEq, Repr, Inhabited

/-- The distance to the head of a cycle as player even sees it. -/
inductive Distance where
  /-- The play starts from the head of its cycle. -/
  | ignored
  /-- A play that is lost had better take long. -/
  | longer (steps : Nat)
  /-- A play that is won had better be short. -/
  | shorter (steps : Nat)
deriving DecidableEq, Repr

def Distance.cmp : Distance → Distance → Ordering
  | .ignored, .ignored => .eq
  | .ignored, _ => .lt
  | _, .ignored => .gt
  | .longer a, .longer b => compare a b
  | .longer _, .shorter _ => .lt
  | .shorter _, .longer _ => .gt
  | .shorter a, .shorter b => compare b a

structure Preference where
  head : Reward
  /-- The rewards met before the head, with a neutral one behind them. -/
  before : List Reward
  distance : Distance
deriving DecidableEq, Repr

/-- The head decides first, then the rewards before it, and then the distance. -/
def Preference.cmp (a b : Preference) : Ordering :=
  ((Reward.cmp a.head b.head).then (List.compareLex Reward.cmp a.before b.before)).then
    (Distance.cmp a.distance b.distance)

end ParityGames
