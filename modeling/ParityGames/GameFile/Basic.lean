import ParityGames.Player

/-!
# Game files

What a game file says: two optional headers and one row per vertex. Vertices go by the ids that the
file gives them, in any order and with gaps.
-/

namespace ParityGames

structure GameRow where
  id : Nat
  priority : Nat
  player : Player
  /-- The ids of the successors, in the order of the file. -/
  successors : List Nat
  name? : Option String
deriving DecidableEq, Repr

structure GameFile where
  /-- The greatest id, as the file announces it. -/
  maxId? : Option Nat
  /-- The id of the vertex where plays start. -/
  start? : Option Nat
  rows : List GameRow
deriving DecidableEq, Repr

end ParityGames
