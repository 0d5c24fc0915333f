import ParityGames.Attractor
import ParityGames.Game.Projection
import ParityGames.Run

/-!
# Priority promotion

Regions are grown from the greatest priority down. A region that its player can hold in the game
below it is promoted to the lowest region to which the opponent can escape, and the regions in
between are dissolved; if there is no escape at all, the region is a dominion. The attractor of a
dominion is split off, and what remains is solved in the same way.
-/

namespace ParityGames

namespace Promotion

structure State where
  /-- The priority of the region of a vertex. -/
  labels : VertexTable (Option Nat)
  /-- The move chosen at a vertex for the player of its region. -/
  moves : VertexTable (Option Nat)
  /-- The priority at which the next region is grown. -/
  priority : Nat

namespace State

def label (s : State) (v : Nat) : Option Nat := s.labels.getD v none

def move (s : State) (v : Nat) : Option Nat := s.moves.getD v none

/-- The vertices that are in no region above the current one. -/
def below (s : State) (g : Game) : List Nat :=
  g.vertices.filter fun v =>
    match s.label v with
    | some r => r ≤ s.priority
    | none => true

/-- The vertices of the current region, and the free ones of its priority. -/
def targets (s : State) (g h : Game) : List Nat :=
  h.vertices.filter fun v =>
    match s.label v with
    | some r => r = s.priority
    | none => g.priority? v = some s.priority

def enter (s : State) (z : Territory) : State :=
  { s with
    labels := z.region.toList.foldl (fun t v => t.put v (some s.priority)) s.labels
    moves := z.moves.entries.foldl (fun t move => t.put move.1 (some move.2)) s.moves }

/-- Give the player's vertices of the region a move inside of it where they have none. -/
def complete (s : State) (g h : Game) (p : Player) (z : VertexSet) : State :=
  { s with
    moves := (z.toList.filter fun v => g.owner v = p).foldl
      (fun t v =>
        match t.getD v none with
        | some w => if z.contains w then t else t.put v ((h.successors v).find? z.contains)
        | none => t.put v ((h.successors v).find? z.contains))
      s.moves }

/-- Dissolve the regions below `target` outside of `z`, and take `z` into the region at
`target`. -/
def promote (s : State) (g : Game) (z : VertexSet) (target : Nat) : State :=
  let dissolved := g.vertices.filter fun v =>
    !z.contains v && (match s.label v with | some r => r < target | none => false)
  { labels := z.toList.foldl (fun t v => t.put v (some target))
      (dissolved.foldl (fun t v => t.put v none) s.labels)
    moves := dissolved.foldl (fun t v => t.put v none) s.moves
    priority := target }

def territory (s : State) (g : Game) (p : Player) (z : VertexSet) : Territory :=
  ⟨z, SortedMap.ofList ((z.toList.filter fun v => g.owner v = p).filterMap fun v =>
    (s.move v).map fun w => (v, w))⟩

end State

/-- Some vertex of the player has no way to stay in the region. -/
def isOpen (g h : Game) (p : Player) (z : VertexSet) : Bool :=
  (z.toList.filter fun v => g.owner v = p).any fun v => !(h.successors v).any z.contains

/-- Some vertex of the opponent has a way out of the region. -/
def isLeaky (g h : Game) (p : Player) (z : VertexSet) : Bool :=
  (z.toList.filter fun v => g.owner v ≠ p).any fun v => (h.successors v).any fun w => !z.contains w

def nextPriority? (h : Game) (z : VertexSet) : Option Nat :=
  ((h.vertices.filter fun v => !z.contains v).filterMap h.priority?).max?

def escape? (s : State) (g : Game) (p : Player) (z : VertexSet) : Option Nat :=
  (((z.toList.filter fun v => g.owner v ≠ p).flatMap g.successors).filter
    (fun w => !z.contains w)).filterMap s.label |>.min?

inductive Step where
  /-- The region cannot be held; the next lower one is grown. -/
  | descend (s : State)
  /-- The region was promoted. -/
  | promote (vertices : Nat) (s : State)
  /-- The region is a dominion. -/
  | closed (t : Territory)

def step (g : Game) (s : State) : Except Fault Step := do
  let p := Player.ofPriority s.priority
  let h ← g.subgame (VertexSet.ofList g.vertexCount (s.below g))
  let z ← attractor h p (s.targets g h)
  let s := s.enter z
  let z := z.region
  if isOpen g h p z || isLeaky g h p z then
    match nextPriority? h z with
    | some next => return .descend { s with priority := next }
    | none => throw .openRegionWithoutRest
  else
    let s := s.complete g h p z
    match escape? s g p z with
    | none => return .closed (s.territory g p z)
    | some target => return .promote z.size (s.promote g z target)

def search (g : Game) : Nat → State → Nat → Run (Player × Territory × Nat)
  | 0, _, _ => Run.fail .unfinished
  | fuel + 1, s, promotions => do
      Run.check
      match ← step g s with
      | .descend next => search g fuel next promotions
      | .promote vertices next =>
          Run.write (.promoted s.priority vertices next.priority)
          search g fuel next (promotions + 1)
      | .closed t => return (Player.ofPriority s.priority, t, promotions)

/-- A bound on the steps of a search: no arrangement of regions comes back, and a vertex is in
one of at most as many regions as there are vertices, or in none. -/
def searchBound (g : Game) : Nat := Nat.pow (g.vertexCount + 2) (g.vertexCount + 2)

def startAt (g : Game) (priority : Nat) : State :=
  { labels := VertexTable.fill none g.vertexCount
    moves := VertexTable.fill none g.vertexCount
    priority := priority }

/-- Split off dominions until nothing is left. Every dominion has a vertex, so the number of
active vertices is fuel enough. -/
def collect : Nat → Game → Solution → Nat → Run (Solution × Nat)
  | fuel, rest, solution, promotions =>
      match rest.maxPriority?, fuel with
      | none, _ => return (solution, promotions)
      | some _, 0 => Run.fail .unfinished
      | some top, fuel + 1 => do
          Run.check
          let (p, dominion, promotions) ←
            search rest (searchBound rest) (startAt rest top) promotions
          let attracted ← attractorOfSet rest p dominion.region
          let won ← attracted.merge dominion
          Run.write (.dominion won.region.size p)
          collect fuel (rest.difference won.region) (← solution.mergeInto p won) promotions

def solve (g : Game) : Run Solution := do
  if !g.isTotal then Run.fail (.notTotal .promotion)
  let (solution, promotions) ← collect g.size g (Solution.empty g.vertexCount) 0
  Run.write (.promotionDone g.size promotions)
  return solution

end Promotion

end ParityGames
