import ParityGames.Progress.Solve
import ParityGames.Proofs.Game.Alike
import ParityGames.Proofs.Run.Lockstep

/-! # Progress measures on alike games

Progress measures read the priorities of active vertices, and count the vertices of a priority
without listing them. So the same vertices are lifted to the same measures in alike games.
-/

namespace ParityGames

namespace ProgressMeasures

open Run

variable {g g' : Game} {m : ProgressMeasures}

def onGame (m : ProgressMeasures) (g' : Game) : ProgressMeasures := { m with game := g' }

theorem start_alike (h : g.Alike g') (p : Player) :
    start g' p = (start g p).map fun m => m.onGame g' := by
  have hcount : counterCount g = counterCount g' := by
    unfold counterCount
    rw [h.maxPriority?]
  have hbounds : boundsFor g p = boundsFor g' p := by
    unfold boundsFor
    rw [h.countWithPriority]
  unfold start
  rw [← hcount, ← hbounds, ← h.vertexCount]
  cases counterCount g with
  | error cause => rfl
  | ok length =>
      simp only [ok_bind]
      cases checkStorage length 8 <;> rfl

theorem game_of_start {p : Player} (made : start g p = .ok m) : m.game = g := by
  obtain ⟨length, -, made⟩ := bind_eq_ok_iff.1 made
  obtain ⟨_, -, made⟩ := bind_eq_ok_iff.1 made
  cases made
  rfl

/-! ## Lifting -/

theorem demand_onGame (h : m.game.Alike g') : (m.onGame g').demand = m.demand := by
  funext v w
  simp only [demand, onGame, measure, ← h.priority?]
  rfl

theorem lift_onGame (h : m.game.Alike g') : (m.onGame g').lift = m.lift := by
  funext v
  simp only [lift, demand_onGame h]
  simp only [onGame, ← h.owner, ← h.successors]

theorem lifted?_onGame (h : m.game.Alike g') (v : Nat) :
    (m.onGame g').lifted? v = (m.lifted? v).map fun m => m.onGame g' := by
  have hmeasure : (m.onGame g').measure v = m.measure v := rfl
  simp only [lifted?, lift_onGame h, hmeasure]
  by_cases hgt : Measure.cmp (m.lift v).1 (m.measure v) = .gt
  · rw [if_pos hgt, if_pos hgt]
    rfl
  · rw [if_neg hgt, if_neg hgt]
    rfl

theorem game_of_lifted {v : Nat} {n : ProgressMeasures} (hlift : m.lifted? v = some n) :
    n.game = m.game := by
  simp only [lifted?] at hlift
  split at hlift
  · cases hlift
    rfl
  · cases hlift

def SameLifts (g' : Game) (result result' : ProgressMeasures × Nat) : Prop :=
  result.1.game.Alike g' ∧ result' = (result.1.onGame g', result.2)

theorem liftAll_lockstep (fuel : Nat) (h : m.game.Alike g') (schedule : Schedule) (lifts : Nat) :
    (liftAll fuel m schedule lifts).Lockstep (SameLifts g')
      (liftAll fuel (m.onGame g') schedule lifts) := by
  induction fuel generalizing m schedule lifts with
  | zero =>
      unfold liftAll
      obtain ⟨v?, schedule⟩ := schedule.next
      cases v? with
      | none => exact .value ⟨h, rfl⟩
      | some v => exact .stop _
  | succ fuel ih =>
      unfold liftAll
      obtain ⟨v?, schedule⟩ := schedule.next
      cases v? with
      | none => exact .value ⟨h, rfl⟩
      | some v =>
          refine .bind_left check fun _ => ?_
          rw [show (m.onGame g').measure v = m.measure v from rfl, lifted?_onGame h]
          split
          · exact ih h schedule lifts
          · cases hlift : m.lifted? v with
            | none => exact ih h schedule lifts
            | some n => exact ih (game_of_lifted hlift ▸ h) _ _

/-! ## The run -/

theorem split_onGame (h : m.game.Alike g') : (m.onGame g').split = m.split := by
  simp only [split, lift_onGame h]
  simp only [onGame, measure, ← h.owner, ← h.vertices, ← h.vertexCount]
  rfl

theorem turnBound_onGame (h : m.game.Alike g') : (m.onGame g').turnBound = m.turnBound := by
  simp only [turnBound, liftBound, onGame, ← h.size, ← h.vertexCount]

theorem schedule_alike (h : g.Alike g') (policy : Policy) :
    Schedule.start g policy = Schedule.start g' policy := by
  rw [h.eq_withIndex]
  cases policy <;> rfl

theorem winnings_alike (h : g.Alike g') (policy : Policy) (p : Player) :
    winnings policy g p = winnings policy g' p := by
  unfold winnings
  rw [start_alike h, ← schedule_alike h, ← h.size]
  cases hstart : start g p with
  | error cause => rfl
  | ok m =>
      have hm : m.game.Alike g' := game_of_start hstart ▸ h
      simp only [Except.map, liftM_eq_attempt, attempt_ok, pure_bind, turnBound_onGame hm]
      refine ((liftAll_lockstep _ hm _ 0).bind ?_).eq
      rintro ⟨m, lifts⟩ _ ⟨hm, rfl⟩
      refine .bind_left (write _) fun _ => ?_
      rw [split_onGame hm]
      exact .refl _

theorem solve_alike (h : g.Alike g') (policy : Policy) : solve policy g = solve policy g' := by
  refine Lockstep.eq ?_
  unfold solve
  rw [← h.isTotal, ← winnings_alike h]
  dsimp only
  split
  · exact .stop _
  · refine .bind_left _ fun ⟨even, lost⟩ => ?_
    obtain ⟨cause, hrest, hrest'⟩ | ⟨rest, rest', hrest, hrest', halike⟩ := h.subgame lost
    · rw [hrest, hrest']
      exact .stop _
    · rw [hrest, hrest']
      simp only [liftM_eq_attempt, attempt_ok, pure_bind, winnings_alike halike]
      exact .refl _

end ProgressMeasures

end ParityGames
