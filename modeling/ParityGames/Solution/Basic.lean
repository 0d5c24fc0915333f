import ParityGames.Player
import ParityGames.Data.SortedMap
import ParityGames.VertexSet.Request

/-!
# Territories and solutions

A territory is a region of a player together with moves at vertices of it. A solution gives both
players a territory. Neither type promises anything about a game; `Solution.check` asks for that.
-/

namespace ParityGames

structure Territory where
  region : VertexSet
  /-- The move chosen at a vertex. -/
  moves : SortedMap Nat
deriving DecidableEq

namespace Territory

def empty (capacity : Nat) : Territory := ⟨VertexSet.empty capacity, SortedMap.empty⟩

instance : Inhabited Territory := ⟨empty 0⟩

/-- Enter moves at the vertices that have none. -/
def fillMoves (moves : SortedMap Nat) (more : List (Nat × Nat)) : SortedMap Nat :=
  more.foldl (fun moves move => moves.insertIfNew move.1 move.2) moves

/-- Unite two territories. Where both have a move, that of the first stays. -/
def merge (t other : Territory) : Except Fault Territory := do
  let region ← t.region.unite other.region
  return ⟨region, fillMoves t.moves other.moves.entries⟩

theorem get?_fillMoves (moves : SortedMap Nat) (more : List (Nat × Nat)) (v : Nat) :
    (fillMoves moves more).get? v = (moves.get? v).or (more.lookup v) := by
  induction more generalizing moves with
  | nil => simp [fillMoves]
  | cons move rest ih =>
      obtain ⟨source, target⟩ := move
      rw [show fillMoves moves ((source, target) :: rest) =
        fillMoves (moves.insertIfNew source target) rest from rfl, ih,
        SortedMap.get?_insertIfNew, List.lookup_cons]
      by_cases h : v = source
      · subst h
        cases moves.get? v <;> simp
      · have : (v == source) = false := by simpa using h
        simp [h, this]

end Territory

structure Solution where
  even : Territory
  odd : Territory
deriving DecidableEq

namespace Solution

def empty (capacity : Nat) : Solution := ⟨Territory.empty capacity, Territory.empty capacity⟩

instance : Inhabited Solution := ⟨empty 0⟩

def of (s : Solution) : Player → Territory
  | .even => s.even
  | .odd => s.odd

def put (s : Solution) (p : Player) (t : Territory) : Solution :=
  match p with
  | .even => { s with even := t }
  | .odd => { s with odd := t }

def ofWinner (p : Player) (won lost : Territory) : Solution :=
  match p with
  | .even => ⟨won, lost⟩
  | .odd => ⟨lost, won⟩

def mergeInto (s : Solution) (p : Player) (t : Territory) : Except Fault Solution := do
  return s.put p (← (s.of p).merge t)

def region (s : Solution) (p : Player) : VertexSet := (s.of p).region

def moves (s : Solution) (p : Player) : SortedMap Nat := (s.of p).moves

/-- The player whose region has `v`, player even first. -/
def winner? (s : Solution) (v : Nat) : Option Player :=
  Player.both.find? fun p => (s.region p).contains v

@[simp] theorem of_put (s : Solution) (p : Player) (t : Territory) : (s.put p t).of p = t := by
  cases p <;> rfl

@[simp] theorem of_opponent_put (s : Solution) (p : Player) (t : Territory) :
    (s.put p t).of p.opponent = s.of p.opponent := by
  cases p <;> rfl

end Solution

end ParityGames
