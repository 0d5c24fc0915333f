import ParityGames.Data.Ranking
import ParityGames.Improvement.State

/-!
# Valuation

The best response of player odd to the moves of player even, and the profiles of the plays that
follow both. Heads of cycles are tried from the best for player odd on. The vertices that can still
reach a head form its component; there the edges of player odd are cut until only best plays are
left, first by the vertices more relevant than the head, one after the other, then by the distance.
-/

namespace ParityGames

/-- Search backwards from a vertex. Every vertex is looked at once, so the capacity is fuel
enough. -/
def reachFrom (sources : Nat → List Nat) : Nat → List Nat → VertexSet → VertexSet
  | fuel, pending, seen =>
      match pending, fuel with
      | [], _ => seen
      | _ :: _, 0 => seen
      | v :: rest, fuel + 1 =>
          let (pending, seen) := (sources v).foldl
            (fun (pending, seen) u =>
              if seen.contains u then (pending, seen) else (u :: pending, seen.insert u))
            (rest, seen)
          reachFrom sources fuel pending seen

/-- The vertices from which `start` is reached, where `sources` gives the predecessors of a
vertex. -/
def reach (capacity start : Nat) (sources : Nat → List Nat) : VertexSet :=
  reachFrom sources capacity [start] ((VertexSet.empty capacity).insert start)

/-- The vertices whose plays end in the cycle with head `head`. -/
structure Component where
  state : Improvement
  head : Nat
  members : VertexSet
  /-- The successors that a member may still move to. -/
  live : VertexTable (List Nat)

namespace Component

def start (s : Improvement) (head : Nat) (members : VertexSet) : Component where
  state := s
  head := head
  members := members
  live := members.toList.foldl
    (fun t v => t.put v ((s.successors v).filter members.contains))
    (VertexTable.fill [] s.game.vertexCount)

def liveSuccessors (c : Component) (v : Nat) : List Nat := c.live.getD v []

def livePredecessors (c : Component) (v : Nat) : List Nat :=
  (c.state.predecessors v).filter fun u =>
    c.members.contains u && (c.liveSuccessors u).contains v

/-- The members that reach `target` along live edges without passing through `avoided`. -/
def liveBasin (c : Component) (target avoided : Nat) : VertexSet :=
  reach c.state.game.vertexCount target fun v =>
    (c.livePredecessors v).filter fun u => u ≠ avoided

/-- Keep only the live edges of some vertices that lead into a set. -/
def restrictLive (c : Component) (vertices : List Nat) (allowed : VertexSet) : Component :=
  { c with
    live := vertices.foldl
      (fun t v => t.put v ((t.getD v []).filter allowed.contains)) c.live }

def noteMeeting (c : Component) (vertices : List Nat) (u : Nat) : Component :=
  { c with state := vertices.foldl (fun s v => s.meet v u) c.state }

/-- Player odd keeps away from `u` where it can still reach the head without it; the other members
have to pass through `u`. -/
def evade (c : Component) (u : Nat) : Component :=
  let safe := c.liveBasin c.head u
  let c := c.noteMeeting (c.members.toList.filter fun v => !safe.contains v) u
  c.restrictLive (safe.toList ++ [u]) safe

/-- The members that can reach `u` before the head do so. -/
def pursue (c : Component) (u : Nat) : Component :=
  let toward := c.liveBasin u c.head
  let c := c.noteMeeting toward.toList u
  c.restrictLive (toward.toList.filter fun v => v ≠ u) toward

def headMove (c : Component) : Except Fault Nat :=
  match c.liveSuccessors c.head with
  | [] => .error .cycleLostEdges
  | w :: _ => .ok w

/-- A member that is settled next, its move, and its distance from the head. -/
structure Arrival where
  vertex : Nat
  move : Nat
  distance : Nat

/-- Take one live successor of `u` as settled; the last one settles `u`. -/
def countDown (state : VertexTable Nat × List Nat) (u : Nat) :
    Except Fault (VertexTable Nat × List Nat) :=
  match state.1.getD u 0 with
  | 0 => .error .counterUnderflow
  | count + 1 =>
      .ok (state.1.put u count, if count = 0 then state.2 ++ [u] else state.2)

/-- Settle the members in the order of arrival; a member arrives when all of its live successors
are settled. -/
def settleLateFrom : Nat → Component → VertexTable Nat → List Arrival → Except Fault Component
  | fuel, c, unsettled, arrivals =>
      match arrivals, fuel with
      | [], _ => .ok c
      | _ :: _, 0 => .error .unfinished
      | a :: rest, fuel + 1 => do
          let c := { c with state := c.state.settle a.vertex a.move a.distance }
          let sources := (c.livePredecessors a.vertex).filter fun u => u ≠ c.head
          let (unsettled, settled) ← sources.foldlM countDown (unsettled, [])
          settleLateFrom fuel c unsettled
            (rest ++ settled.map fun u => ⟨u, a.vertex, a.distance + 1⟩)

/-- Player odd delays the arrival at the head of an even cycle. -/
def settleLate (c : Component) : Except Fault Component := do
  let first ← c.headMove
  let unsettled := c.members.toList.foldl
    (fun t v => t.put v (c.liveSuccessors v).length)
    (VertexTable.fill 0 c.state.game.vertexCount)
  settleLateFrom (c.state.game.vertexCount + 1) c unsettled [⟨c.head, first, 0⟩]

def settleSoonFrom : Nat → Component → VertexSet → List Arrival → Except Fault Component
  | fuel, c, seen, arrivals =>
      match arrivals, fuel with
      | [], _ => .ok c
      | _ :: _, 0 => .error .unfinished
      | a :: rest, fuel + 1 =>
          if seen.contains a.vertex then settleSoonFrom fuel c seen rest
          else
            let c := { c with state := c.state.settle a.vertex a.move a.distance }
            settleSoonFrom fuel c (seen.insert a.vertex)
              (rest ++ (c.livePredecessors a.vertex).map fun u =>
                ⟨u, a.vertex, a.distance + 1⟩)

/-- Player odd arrives at the head of an odd cycle as soon as it can. A vertex arrives once for
every live edge from it at most. -/
def settleSoon (c : Component) : Except Fault Component := do
  let first ← c.headMove
  let n := c.state.game.vertexCount
  settleSoonFrom (n * n + 1) c (VertexSet.empty n) [⟨c.head, first, 0⟩]

def byRelevance (c : Component) : List Nat :=
  Ranking.sortBy
    (fun a b => Relevance.cmp (c.state.relevance b) (c.state.relevance a) ≠ .gt)
    c.members.toList

def evaluate (c : Component) : Except Fault Component :=
  let order := c.byRelevance
  let rank := c.state.relevance c.head
  let reset := { c with
    state := order.foldl
      (fun s v => s.setProfile v { s.profile v with head := c.head, before := [] }) c.state }
  let above := order.takeWhile fun u => Relevance.cmp (c.state.relevance u) rank = .gt
  let cut := above.foldl
    (fun c u =>
      match (c.state.relevance u).winner with
      | .even => c.evade u
      | .odd => c.pursue u)
    reset
  match rank.winner with
  | .even => cut.settleLate
  | .odd => cut.settleSoon

end Component

namespace Improvement

/-- The vertices without a profile that reach `w` through accepted ones. -/
def basin (s : Improvement) (evaluated : VertexSet) (w : Nat) (accept : Nat → Bool) :
    VertexSet :=
  reach s.game.vertexCount w fun v =>
    (s.predecessors v).filter fun u => !evaluated.contains u && accept u

/-- Whether a play can come back to `w` through vertices that are not more relevant. -/
def headsCycle (s : Improvement) (evaluated : VertexSet) (w : Nat) : Bool :=
  let below := s.basin evaluated w fun v =>
    Relevance.cmp (s.relevance v) (s.relevance w) ≠ .gt
  (s.successors w).any below.contains

/-- Evaluate the component of `w` if `w` is the head of a cycle. -/
def tryHead (state : Improvement × VertexSet) (w : Nat) :
    Except Fault (Improvement × VertexSet) := do
  let (s, evaluated) := state
  if evaluated.contains w || !s.headsCycle evaluated w then return (s, evaluated)
  else
    let members := s.basin evaluated w fun _ => true
    let c ← (Component.start s w members).evaluate
    return (c.state, evaluated.union members)

/-- The active vertices, the best heads for player odd first. -/
def heads (s : Improvement) : List Nat :=
  Ranking.sortBy (fun a b => Reward.cmp (s.reward a) (s.reward b) ≠ .gt) s.game.vertices

/-- Find the best response of player odd to the moves of player even, and the profiles. -/
def valuation (s : Improvement) : Except Fault Improvement := do
  let (s, _) ← s.heads.foldlM tryHead (s, VertexSet.empty s.game.vertexCount)
  return s

end Improvement

end ParityGames
