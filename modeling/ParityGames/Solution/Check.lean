import ParityGames.Game.Basic
import ParityGames.Solution.Basic

/-!
# Checking solutions

A solution fits a game if its regions share out the active vertices, and if every player has a
move exactly at its own vertices of its region, along an edge and without leaving the region. The
check reports the first flaw it meets. It does not ask whether the moves win.

A solution keeps its moves in no order of their own, so the last pass, which looks for moves that
should not be there, takes them in any order. `checkIn` is the check in a given order of the moves,
and `check` the one that runs, by increasing vertices.
-/

namespace ParityGames

inductive Flaw where
  | overlap (v : Nat)
  | unclassified (v : Nat)
  | inactive (v : Nat)
  | missingMove (p : Player) (v : Nat)
  | illegalMove (p : Player) (v target : Nat)
  | leavesRegion (p : Player) (v target : Nat)
  | strayMove (p : Player) (v : Nat)
deriving DecidableEq, Repr

def Flaw.message : Flaw → String
  | .overlap v => s!"vertex {v} is in both regions"
  | .unclassified v => s!"vertex {v} is in no region"
  | .inactive v => s!"vertex {v} is not part of the game"
  | .missingMove p v => s!"{p.name} has no move at vertex {v}"
  | .illegalMove p v target =>
      s!"{p.name} moves from vertex {v} to {target}, which is not a successor"
  | .leavesRegion p v target =>
      s!"{p.name} moves from vertex {v} to {target}, outside of its region"
  | .strayMove p v =>
      s!"{p.name} has a move at vertex {v}, which it does not own in its region"

namespace Solution

/-- An active vertex that is in both regions or in none. -/
def sharingFlaw? (s : Solution) (g : Game) : Option Flaw :=
  g.vertices.findSome? fun v =>
    match (s.region .even).contains v, (s.region .odd).contains v with
    | true, true => some (.overlap v)
    | false, false => some (.unclassified v)
    | _, _ => none

def inactiveFlaw? (t : Territory) (g : Game) : Option Flaw :=
  (t.region.toList.find? fun v => !g.contains v).map .inactive

def moveFlawAt? (t : Territory) (g : Game) (p : Player) (v : Nat) : Option Flaw :=
  match t.moves.get? v with
  | none => some (.missingMove p v)
  | some target =>
      if !(g.successors v).contains target then some (.illegalMove p v target)
      else if !t.region.contains target then some (.leavesRegion p v target)
      else none

def moveFlaw? (t : Territory) (g : Game) (p : Player) : Option Flaw :=
  (t.region.toList.filter fun v => g.owner v = p).findSome? (moveFlawAt? t g p)

/-- An order in which each player's moves are looked through. -/
structure MoveOrder (s : Solution) where
  keys : Player → List Nat
  perm : ∀ p, (keys p).Perm (s.moves p).keys

def MoveOrder.increasing (s : Solution) : s.MoveOrder :=
  ⟨fun p => (s.moves p).keys, fun _ => List.Perm.refl _⟩

/-- A move at a vertex that is not the player's own or not in its region. Asking for the owner of
a number outside the arena is a fault. -/
def strayMove? (t : Territory) (g : Game) (p : Player) : List Nat → Except Fault (Option Nat)
  | [] => .ok none
  | v :: rest => do
      let v ← g.locate v
      if g.owner v ≠ p ∨ t.region.contains v = false then return some v
      strayMove? t g p rest

/-- The first flaw of a player's territory, with the moves looked through at the vertices as they
are listed. -/
def territoryFlaw? (s : Solution) (g : Game) (p : Player) (vertices : List Nat) :
    Except Fault (Option Flaw) := do
  let t := s.of p
  match (inactiveFlaw? t g).or (moveFlaw? t g p) with
  | some flaw => return some flaw
  | none => return (← strayMove? t g p vertices).map (.strayMove p)

/-- The first flaw of a solution, or none if it fits the game. -/
def checkIn (s : Solution) (order : s.MoveOrder) (g : Game) : Except Fault (Option Flaw) := do
  match s.sharingFlaw? g with
  | some flaw => return some flaw
  | none =>
      match ← s.territoryFlaw? g .even (order.keys .even) with
      | some flaw => return some flaw
      | none => s.territoryFlaw? g .odd (order.keys .odd)

def check (s : Solution) (g : Game) : Except Fault (Option Flaw) :=
  s.checkIn (.increasing s) g

end Solution

end ParityGames
