import ParityGames.VertexSet.Request
import ParityGames.Game.Basic

/-!
# Parts of games, and changes of priority

A part of a game has fewer active vertices over the same arena. Both ways to take one, keeping a
set and removing a set, keep the index of active priorities exact, and so does a change of the
priority of a vertex.
-/

namespace ParityGames

namespace Game

def countIn (counts : SortedMap Nat) (priority : Nat) : SortedMap Nat :=
  counts.alter priority fun count => some (count.getD 0 + 1)

/-- Count one vertex of a priority less; a priority without vertices is dropped. -/
def countOut (counts : SortedMap Nat) (priority : Nat) : SortedMap Nat :=
  counts.alter priority fun
    | some (count + 2) => some (count + 1)
    | _ => none

def restrict (g : Game) (active : VertexSet) : Game :=
  { g with
    active := active
    counts := active.toList.foldl (fun counts v => countIn counts (g.priorityOf v))
      SortedMap.empty }

/-- The part of the game on the active vertices of `keep`. -/
def subgame (g : Game) (keep : VertexSet) : Except Fault Game := do
  return g.restrict (← keep.intersect g.active)

def deactivate (g : Game) (v : Nat) : Game :=
  { g with
    active := g.active.remove v
    counts := countOut g.counts (g.priorityOf v) }

def difference (g : Game) (dropped : VertexSet) : Game :=
  (dropped.toList.filter g.contains).foldl deactivate g

/-- Give an active vertex a priority. It becomes the last vertex of that priority. -/
def setPriority (g : Game) (v priority : Nat) : Except GameError Game :=
  if g.contains v then
    let old := g.priorityOf v
    let without := g.buckets.alter old fun bucket =>
      let rest := (bucket.getD []).erase v
      if rest.isEmpty then none else some rest
    .ok { g with
      priorities := g.priorities.put v priority
      buckets := without.alter priority fun bucket => some (bucket.getD [] ++ [v])
      counts := countIn (countOut g.counts old) priority }
  else .error (.inactiveVertex v)

end Game

end ParityGames
