import ParityGames.Game.Basic
import ParityGames.Solution.Basic

/-!
# Attractors

The vertices from which a player can force the play into a set of targets, with the moves that do
so. The search goes backwards from the targets: a vertex of the player joins with the first edge
into the region that is met, a vertex of the opponent once all of its edges lead there.
-/

namespace ParityGames

namespace Attractor

structure State where
  region : VertexSet
  moves : SortedMap Nat
  /-- For an opponent's vertex that was met, how many of its edges were not. -/
  unmet : VertexTable (Option Nat)
  /-- Vertices of the region whose predecessors were not looked at, the next one first. -/
  pending : List Nat

def State.join (s : State) (v : Nat) : State :=
  { s with region := s.region.insert v, pending := v :: s.pending }

def start (g : Game) (targets : List Nat) : State :=
  (targets.filter g.contains).foldl
    (fun s v => if s.region.contains v then s else s.join v)
    { region := VertexSet.empty g.vertexCount
      moves := SortedMap.empty
      unmet := VertexTable.fill none g.vertexCount
      pending := [] }

def meetEdge (g : Game) (p : Player) (v : Nat) (s : State) (u : Nat) : Except Fault State :=
  if s.region.contains u then .ok s
  else if g.owner u = p then .ok { s.join u with moves := s.moves.insert u v }
  else
    match (s.unmet.getD u none).getD (g.successors u).length with
    | 0 => .error .counterUnderflow
    | count + 1 =>
        let s := { s with unmet := s.unmet.put u (some count) }
        .ok (if count = 0 then s.join u else s)

/-- Look at the edges into the pending vertices. Every vertex is pending once, so the number of
vertices is fuel enough. -/
def search (g : Game) (p : Player) : Nat → State → Except Fault State
  | fuel, s =>
      match s.pending, fuel with
      | [], _ => .ok s
      | _ :: _, 0 => .error .unfinished
      | v :: rest, fuel + 1 => do
          search g p fuel (← (g.predecessors v).foldlM (meetEdge g p v) { s with pending := rest })

end Attractor

/-- The region from which `p` forces the play into an active target, and the moves of `p` outside
of the targets. The order of the targets decides which of several moves is chosen: the search
goes on from the vertex that joined last. -/
def attractor (g : Game) (p : Player) (targets : List Nat) : Except Fault Territory := do
  let s ← Attractor.search g p g.vertexCount (Attractor.start g targets)
  return ⟨s.region, s.moves⟩

/-- The attractor of a set, its elements taken in increasing order. -/
def attractorOfSet (g : Game) (p : Player) (targets : VertexSet) : Except Fault Territory :=
  attractor g p targets.toList

end ParityGames
