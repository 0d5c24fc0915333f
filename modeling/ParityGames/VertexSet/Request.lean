import ParityGames.VertexSet.Basic
import ParityGames.Text.Layout

/-!
# Checked requests on vertex sets

The operations of vertex sets for callers that may break their conditions: an element has to be
below the capacity, and two sets that are combined have to share one capacity. A request that is
refused leaves the set as it was; only `extend` keeps what it inserted before it was refused.
-/

namespace ParityGames

namespace VertexSet

def checkCapacity (capacity : Nat) : Except Fault Unit :=
  if capacity < capacityBound then .ok () else .error .capacityOverflow

def create (capacity : Nat) : Except Fault VertexSet := do
  checkCapacity capacity
  return empty capacity

def createFull (capacity : Nat) : Except Fault VertexSet := do
  checkCapacity capacity
  return full capacity

/-- Put `v` in, and tell whether it was absent. -/
def add (s : VertexSet) (v : Nat) : Except Fault (VertexSet × Bool) :=
  if v < s.capacity then .ok (s.insert v, !s.contains v) else .error .outsideTable

def take (s : VertexSet) (v : Nat) : Except Fault (VertexSet × Bool) :=
  if v < s.capacity then .ok (s.remove v, s.contains v) else .error .outsideTable

/-- Put the vertices in one after the other, up to the first that is refused. -/
def extend (s : VertexSet) : List Nat → VertexSet × Option Fault
  | [] => (s, none)
  | v :: rest =>
      match s.add v with
      | .ok (next, _) => next.extend rest
      | .error fault => (s, some fault)

def createOf (capacity : Nat) (vertices : List Nat) : Except Fault VertexSet := do
  let s ← create capacity
  match s.extend vertices with
  | (t, none) => return t
  | (_, some fault) => throw fault

def combine (operation : VertexSet → VertexSet → VertexSet) (s t : VertexSet) :
    Except Fault VertexSet :=
  if s.capacity = t.capacity then .ok (operation s t) else .error .capacityMismatch

def unite (s t : VertexSet) : Except Fault VertexSet := combine union s t

def subtract (s t : VertexSet) : Except Fault VertexSet := combine difference s t

def intersect (s t : VertexSet) : Except Fault VertexSet := combine inter s t

def apart (s t : VertexSet) : Except Fault Bool :=
  if s.capacity = t.capacity then .ok (s.disjoint t) else .error .unequalCapacities

theorem combine_of_eq {operation : VertexSet → VertexSet → VertexSet} {s t : VertexSet}
    (h : s.capacity = t.capacity) : combine operation s t = .ok (operation s t) :=
  if_pos h

theorem combine_of_ne {operation : VertexSet → VertexSet → VertexSet} {s t : VertexSet}
    (h : s.capacity ≠ t.capacity) : combine operation s t = .error .capacityMismatch :=
  if_neg h

def listing (s : VertexSet) : String :=
  Text.listing "\x7b" "\x7d" (s.toList.map toString)

end VertexSet

end ParityGames
