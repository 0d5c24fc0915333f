import ParityGames.Player
import ParityGames.Data.SortedMap
import ParityGames.VertexSet.Basic
import ParityGames.Game.Incoming

/-!
# Parity games

A game is an arena, a priority for every vertex of it, and the set of vertices that are still
active. Vertices keep their numbers when others become inactive, so tables made for a game fit
every part of it. Two indexes go along: the vertices of every priority, active or not, and the
number of active vertices of every priority.
-/

namespace ParityGames

/-- Who moves where. Rows are strictly increasing. -/
structure Arena where
  owners : VertexTable Player
  successors : VertexTable (List Nat)
  incoming : Incoming
deriving DecidableEq

structure Game where
  arena : Arena
  priorities : VertexTable Nat
  /-- The vertices of every priority, in the order in which they received it. -/
  buckets : SortedMap (List Nat)
  active : VertexSet
  /-- How many active vertices have a priority; priorities without any are left out. -/
  counts : SortedMap Nat
deriving DecidableEq

inductive GameError where
  /-- A play that reaches the vertex cannot go on. -/
  | noSuccessors (v : Nat)
  /-- An edge leads to a vertex that was never added. -/
  | unknownVertex (source target : Nat)
  /-- The vertex is not active. -/
  | inactiveVertex (v : Nat)
deriving DecidableEq, Repr

def GameError.message : GameError → String
  | .noSuccessors v => s!"vertex {v} has no successors"
  | .unknownVertex source target => s!"edge from vertex {source} to unknown vertex {target}"
  | .inactiveVertex v => s!"vertex {v} is not part of the game"

namespace Game

/-- The number of vertices, inactive ones included. -/
def vertexCount (g : Game) : Nat := g.arena.owners.length

/-- The number of active vertices. -/
def size (g : Game) : Nat := g.active.size

def isEmpty (g : Game) : Bool := g.counts.isEmpty

/-- Whether `v` is active. -/
def contains (g : Game) (v : Nat) : Bool := g.active.contains v

def vertices (g : Game) : List Nat := g.active.toList

def owner (g : Game) (v : Nat) : Player := g.arena.owners.getD v .even

/-- The priority of `v`, active or not. -/
def priorityOf (g : Game) (v : Nat) : Nat := g.priorities.getD v 0

/-- The priority of `v` if it is active. -/
def priority? (g : Game) (v : Nat) : Option Nat :=
  if g.contains v then some (g.priorityOf v) else none

/-- The active successors of `v`, in increasing order. -/
def successors (g : Game) (v : Nat) : List Nat :=
  (g.arena.successors.getD v []).filter g.contains

def predecessors (g : Game) (v : Nat) : List Nat :=
  (g.arena.incoming.of v).filter g.contains

def maxPriority? (g : Game) : Option Nat := g.counts.lastKey?

def activePriorities (g : Game) : List Nat := g.counts.keys

/-- The active vertices of a priority, in the order in which they received it. -/
def verticesWithPriority (g : Game) (priority : Nat) : List Nat :=
  ((g.buckets.get? priority).getD []).filter g.contains

def countWithPriority (g : Game) (priority : Nat) : Nat := (g.counts.get? priority).getD 0

/-- The edges between active vertices, by source and then by target. -/
def edges (g : Game) : List (Nat × Nat) :=
  g.vertices.flatMap fun u => (g.successors u).map fun v => (u, v)

def edgeCount (g : Game) : Nat := g.edges.length

/-- Whether every active vertex has an active successor. -/
def isTotal (g : Game) : Bool := g.vertices.all fun v => !(g.successors v).isEmpty

/-- The incoming edges of the game with inactive vertices taken out. -/
def activeIncoming (g : Game) : Incoming := Incoming.ofEdges g.vertexCount g.edges

/-- Refuse a number that is no vertex of the arena. -/
def locate (g : Game) (v : Nat) : Except Fault Nat :=
  if v < g.vertexCount then .ok v else .error .outsideTable

def listing (g : Game) : String :=
  Text.listing "[" "]" (g.vertices.map fun v =>
    Text.listing "(" ")" [toString v, toString (g.priorityOf v), (g.owner v).sign,
      Text.numberList (g.successors v)])

end Game

end ParityGames
