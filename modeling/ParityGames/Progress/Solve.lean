import ParityGames.Game.Projection
import ParityGames.Progress.Measure
import ParityGames.Progress.Schedule
import ParityGames.Run
import ParityGames.Solution.Basic

/-!
# Small progress measures

Every vertex gets the least measure that pays for the bad priorities on the way, as far as the
number of vertices of every priority allows. Vertices are lifted, one at a time, until no lift
succeeds. Those that stay below the top are won, with the moves to the successors that ask for
least. The measures for player even are found first; the vertices they leave at the top belong to
player odd, who gets its moves from measures of its own on them.
-/

namespace ParityGames

structure ProgressMeasures where
  game : Game
  player : Player
  /-- The largest value of every counter: how many vertices have the priority, or zero if the
  priority favours the player. -/
  bounds : List Nat
  measures : VertexTable Measure

namespace ProgressMeasures

def boundsFor (g : Game) (p : Player) (length : Nat) : List Nat :=
  (List.range length).map fun priority =>
    if Player.ofPriority priority = p then 0 else g.countWithPriority priority

/-- The number of counters for a game: one for every priority up to the greatest. -/
def counterCount (g : Game) : Except Fault Nat :=
  match g.maxPriority? with
  | none => .ok 0
  | some d => if d + 1 < numberBound then .ok (d + 1) else .error .additionOverflow

def start (g : Game) (p : Player) : Except Fault ProgressMeasures := do
  let length ← counterCount g
  checkStorage length 8
  return {
    game := g
    player := p
    bounds := boundsFor g p length
    measures := VertexTable.fill (Measure.zero length) g.vertexCount }

def measure (m : ProgressMeasures) (v : Nat) : Measure := m.measures.getD v .top

/-- The least measure that `v` needs in order to move to `w`. -/
def demand (m : ProgressMeasures) (v w : Nat) : Measure :=
  match m.game.priority? v with
  | none => .top
  | some priority =>
      (m.measure w).raise m.bounds priority (Player.ofPriority priority ≠ m.player)

/-- What the owner of `v` makes of its successors, and the successor it takes: the first of those
that ask for least if the player owns `v`, else the last of those that ask for most. -/
def lift (m : ProgressMeasures) (v : Nat) : Measure × Option Nat :=
  let options := (m.game.successors v).map fun w => (m.demand v w, w)
  let best :=
    if m.game.owner v = m.player then Ranking.firstLeast (fun a b => Measure.cmp a.1 b.1) options
    else Ranking.lastGreatest (fun a b => Measure.cmp a.1 b.1) options
  match best with
  | some (measure, w) => (measure, some w)
  | none => (.top, none)

def lifted? (m : ProgressMeasures) (v : Nat) : Option ProgressMeasures :=
  let (lifted, _) := m.lift v
  if Measure.cmp lifted (m.measure v) = .gt then
    some { m with measures := m.measures.put v lifted }
  else none

def liftAll : Nat → ProgressMeasures → Schedule → Nat → Run (ProgressMeasures × Nat)
  | fuel, m, schedule, lifts =>
      match schedule.next, fuel with
      | (none, _), _ => return (m, lifts)
      | (some _, _), 0 => Run.fail .unfinished
      | (some v, schedule), fuel + 1 => do
          Run.check
          if (m.measure v).isTop then liftAll fuel m schedule lifts
          else
            match m.lifted? v with
            | some m => liftAll fuel m (schedule.lifted v) (lifts + 1)
            | none => liftAll fuel m schedule lifts

/-- A bound on the lifts that succeed: every measure only grows. -/
def liftBound (m : ProgressMeasures) : Nat :=
  m.game.size * m.bounds.foldr (fun bound rest => (bound + 1) * rest) 1

/-- A bound on the vertices handed out: between two lifts, and after the last, no vertex comes
twice. -/
def turnBound (m : ProgressMeasures) : Nat :=
  (m.liftBound + 1) * (m.game.vertexCount + 1)

/-- The vertices below the top, with the moves that justify their measures, and the others. -/
def split (m : ProgressMeasures) : Territory × VertexSet :=
  m.game.vertices.foldl
    (fun (won, lost) v =>
      if (m.measure v).isTop then (won, lost.insert v)
      else
        let moves :=
          if m.game.owner v = m.player then
            match (m.lift v).2 with
            | some w => won.moves.insert v w
            | none => won.moves
          else won.moves
        (⟨won.region.insert v, moves⟩, lost))
    (Territory.empty m.game.vertexCount, VertexSet.empty m.game.vertexCount)

/-- The territory of a player, and the vertices that its measures leave at the top. -/
def winnings (policy : Policy) (g : Game) (p : Player) : Run (Territory × VertexSet) := do
  let m ← start g p
  let (m, lifts) ← liftAll m.turnBound m (Schedule.start g policy) 0
  Run.write (.lifted lifts p g.size)
  return m.split

def solve (policy : Policy) (g : Game) : Run Solution := do
  if !g.isTotal then Run.fail (.notTotal .progressMeasures)
  let (even, lost) ← winnings policy g .even
  let rest ← g.subgame lost
  let (odd, left) ← winnings policy rest .odd
  if !left.isEmpty then Run.fail .measuresDisagree
  Run.write (.measuresDone even.region.size odd.region.size)
  return ⟨even, odd⟩

end ProgressMeasures

end ParityGames
