import ParityGames.Data.Ranking
import ParityGames.Game.Basic

/-!
# Building games

A builder collects vertices and edges. Building the game puts every row of targets in order,
drops repeated edges, and refuses a vertex without an edge or with an edge to a vertex that was
never added; the first such vertex is reported, with the least such target.
-/

namespace ParityGames

/-- A vertex that was added, with the edges added from it so far. -/
structure Draft where
  owner : Player
  priority : Nat
  /-- The targets of the edges, the latest first. -/
  targets : List Nat
deriving DecidableEq, Repr, Inhabited

structure GameBuilder where
  drafts : VertexTable Draft
deriving DecidableEq

namespace GameBuilder

def empty : GameBuilder := ⟨⟨#[]⟩⟩

/-- Add a vertex; its number is the number of vertices added before. -/
def addVertex (b : GameBuilder) (owner : Player) (priority : Nat) : GameBuilder :=
  ⟨(b.drafts.push ⟨owner, priority, []⟩).2⟩

/-- Add an edge from a vertex that was added before; its target may come later. -/
def addEdge (b : GameBuilder) (source target : Nat) : Except Fault GameBuilder := do
  let draft ← b.drafts.read source
  return ⟨b.drafts.put source { draft with targets := target :: draft.targets }⟩

def row (count v : Nat) (targets : List Nat) : Except GameError (List Nat) :=
  let sorted := Ranking.distinct targets
  if sorted.isEmpty then .error (.noSuccessors v)
  else
    match sorted.find? (fun target => count ≤ target) with
    | some target => .error (.unknownVertex v target)
    | none => .ok sorted

def bucketsOf (priorities : VertexTable Nat) : SortedMap (List Nat) :=
  priorities.entries.foldl
    (fun buckets entry =>
      buckets.alter entry.2 fun bucket => some (bucket.getD [] ++ [entry.1]))
    SortedMap.empty

def edgesOf (rows : VertexTable (List Nat)) : List (Nat × Nat) :=
  rows.entries.flatMap fun entry => entry.2.map fun target => (entry.1, target)

/-- The game of all vertices added, every one of them active. -/
def build (b : GameBuilder) : Except GameError Game := do
  let count := b.drafts.length
  let rows ← b.drafts.entries.mapM fun entry => row count entry.1 entry.2.targets
  let successors := VertexTable.ofList rows
  let priorities := b.drafts.map (·.priority)
  let buckets := bucketsOf priorities
  return {
    arena := {
      owners := b.drafts.map (·.owner)
      successors := successors
      incoming := Incoming.ofEdges count (edgesOf successors) }
    priorities := priorities
    buckets := buckets
    active := VertexSet.full count
    counts := buckets.mapValues List.length }

end GameBuilder

end ParityGames
