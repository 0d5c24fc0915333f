import ParityGames.Game.Basic

/-!
# Schedules

The order in which vertices are tried. A schedule hands out one vertex after another and is told
which of them changed; it ends once no other vertex can change. One kind goes round all vertices
until a whole round brought no change, the other keeps a queue of the vertices whose successors
changed.
-/

namespace ParityGames

inductive Policy where
  /-- Go round all vertices. -/
  | linear
  /-- Go back to the predecessors of changed vertices. -/
  | predecessor
deriving DecidableEq, Repr

inductive Schedule where
  /-- The vertices, the position of the next one, and how many were handed out since the last
  change. -/
  | round (vertices : VertexTable Nat) (position unchanged : Nat)
  /-- The waiting vertices in order, and the set of them. -/
  | queue (incoming : Incoming) (waiting : List Nat) (queued : VertexSet)

namespace Schedule

def start (g : Game) : Policy → Schedule
  | .linear => .round (VertexTable.ofList g.vertices) 0 0
  | .predecessor => .queue g.activeIncoming g.vertices g.active

/-- The next vertex, or none once no vertex can change. -/
def next : Schedule → Option Nat × Schedule
  | .round vertices position unchanged =>
      if unchanged < vertices.length then
        (some (vertices.getD position 0),
          .round vertices ((position + 1) % vertices.length) (unchanged + 1))
      else (none, .round vertices position unchanged)
  | .queue incoming waiting queued =>
      match waiting with
      | [] => (none, .queue incoming [] queued)
      | v :: rest => (some v, .queue incoming rest (queued.remove v))

/-- Put a vertex at the end of the queue unless it waits there. -/
def enqueue (state : List Nat × VertexSet) (u : Nat) : List Nat × VertexSet :=
  if state.2.contains u then state else (state.1 ++ [u], state.2.insert u)

def lifted (s : Schedule) (v : Nat) : Schedule :=
  match s with
  | .round vertices position _ => .round vertices position 0
  | .queue incoming waiting queued =>
      let state := (incoming.of v).foldl enqueue (waiting, queued)
      .queue incoming state.1 state.2

/-- Take note that `v` changed. Only a queue has to find the vertex. -/
def notify (s : Schedule) (v : Nat) : Except Fault Schedule :=
  match s with
  | .round .. => .ok (s.lifted v)
  | .queue incoming .. =>
      if v < incoming.sources.length then .ok (s.lifted v) else .error .outsideTable

end Schedule

end ParityGames
