import ParityGames.Solver
import ParityGames.Proofs.Improvement.Alike
import ParityGames.Proofs.Progress.Alike
import ParityGames.Proofs.Promotion.Alike
import ParityGames.Proofs.Solver.Agreement
import ParityGames.Proofs.Zielonka.Alike

/-! # Solvers on alike games

What a solver makes of a game depends on the arena, the active vertices and their priorities, and
not on how the game was made. Only the moves that Zielonka's algorithm chooses may differ.
-/

namespace ParityGames

namespace Solver

variable {g g' : Game}

theorem run_alike (h : g.Alike g') {solver : Solver} (hsolver : solver ≠ .zielonka) :
    solver.run g = solver.run g' := by
  cases solver with
  | zielonka => exact absurd rfl hsolver
  | promotion => exact Promotion.solve_alike h
  | progressMeasures policy => exact ProgressMeasures.solve_alike h policy
  | improvement limit? => exact Improvement.solve_alike h limit?

theorem zielonka_alike (h : g.Alike g') (htotal : g.isTotal = true) :
    ∃ s s', (zielonka.run g).outcome = .ok s ∧ (zielonka.run g').outcome = .ok s' ∧
      s.SameRegions s' := by
  obtain ⟨s, hrun, -⟩ := Zielonka.solve_holds h.coherent htotal
  obtain ⟨s', hrun', hregions⟩ := (Zielonka.solve_lockstep h htotal).outcome hrun
  exact ⟨s, s', hrun, hrun', hregions⟩

/-- All solvers but Zielonka's algorithm do the same on two total games with the same owners, edges,
active vertices and priorities of these. Zielonka's algorithm comes to solutions with the same
regions, and writes the same records under every token. Without a limit, and with room for its
counters, every solver comes to a solution. -/
theorem history_irrelevant (hg : g.Reachable) (hg' : g'.Reachable)
    (howners : g.arena.owners = g'.arena.owners)
    (hsuccessors : g.arena.successors = g'.arena.successors) (hactive : g.active = g'.active)
    (hpriority : ∀ v, g.priority? v = g'.priority? v) (htotal : g.isTotal = true) :
    (∀ solver : Solver, solver ≠ .zielonka → solver.run g = solver.run g') ∧
    (∃ s s', (zielonka.run g).outcome = .ok s ∧ (zielonka.run g').outcome = .ok s' ∧
      s.SameRegions s') ∧
    (∀ raised : Run.Moment → Bool,
      ((zielonka.run g).report raised).2 = ((zielonka.run g').report raised).2) ∧
    ∀ solver ∈ all none, solver.HasRoom g → ∃ s, (solver.run g).outcome = .ok s := by
  have h := hg.alike hg' howners hsuccessors hactive hpriority
  refine ⟨fun solver hsolver => run_alike h hsolver, zielonka_alike h htotal, fun raised => ?_,
    fun solver hsolver hroom => ?_⟩
  · exact (Zielonka.solve_lockstep h htotal).follow raised _
  · obtain ⟨s, hrun, -⟩ := run_holds hsolver hg htotal hroom
    exact ⟨s, hrun⟩

/-- The duel without the vertex 1, made in two ways. The second gave the vertex 1 another priority
before, and gave the vertex 4 its priority once more. -/
def detour : Except GameError (Game × Game) := do
  let whole ← duel.build
  let short ← whole.setPriority 3 4
  let long ← whole.setPriority 1 7
  let long ← long.setPriority 3 4
  let long ← long.setPriority 4 4
  return (short.difference (VertexSet.ofList 5 [1]), long.difference (VertexSet.ofList 5 [1]))

theorem reachable_of_detour (made : detour = .ok (g, g')) : g.Reachable ∧ g'.Reachable := by
  obtain ⟨whole, hwhole, made⟩ := bind_eq_ok_iff.1 made
  obtain ⟨short, hshort, made⟩ := bind_eq_ok_iff.1 made
  obtain ⟨first, hfirst, made⟩ := bind_eq_ok_iff.1 made
  obtain ⟨second, hsecond, made⟩ := bind_eq_ok_iff.1 made
  obtain ⟨third, hthird, made⟩ := bind_eq_ok_iff.1 made
  cases made
  exact ⟨.difference _ (.setPriority (.build hwhole) hshort),
    .difference _ (.setPriority (.setPriority (.setPriority (.build hwhole) hfirst) hsecond)
      hthird)⟩

/-- The vertices of the greatest priority are listed in different orders, and the inactive vertex
has different priorities. -/
theorem history_irrelevant_detour : ∃ g g', detour = .ok (g, g') ∧
    g.verticesWithPriority 4 = [4, 3] ∧ g'.verticesWithPriority 4 = [3, 4] ∧
    g.priorityOf 1 = 1 ∧ g'.priorityOf 1 = 7 ∧
    (progressMeasures .linear).run g = (progressMeasures .linear).run g' ∧
    ∃ s s', (zielonka.run g).outcome = .ok s ∧ (zielonka.run g').outcome = .ok s' ∧
      s.SameRegions s' := by
  have hindexes : (detour.toOption.any fun (g, g') => decide (
      g.verticesWithPriority 4 = [4, 3] ∧ g'.verticesWithPriority 4 = [3, 4] ∧
      g.priorityOf 1 = 1 ∧ g'.priorityOf 1 = 7)) = true := by
    decide +kernel
  have hgames : (detour.toOption.any fun (g, g') => decide (
      g.arena.owners = g'.arena.owners ∧ g.arena.successors = g'.arena.successors ∧
      g.active = g'.active ∧ g.vertexCount = 5 ∧ (∀ v : Nat, v < 5 → g.priority? v = g'.priority? v) ∧
      g.isTotal = true)) = true := by
    decide +kernel
  cases hmade : detour with
  | error e =>
      rw [hmade] at hgames
      cases hgames
  | ok pair =>
      obtain ⟨g, g'⟩ := pair
      simp only [hmade, Except.toOption, Option.any_some, decide_eq_true_eq] at hindexes hgames
      obtain ⟨hlisted, hlisted', hleft, hright⟩ := hindexes
      obtain ⟨howners, hsuccessors, hactive, hcount, hpriority, htotal⟩ := hgames
      obtain ⟨hg, hg'⟩ := reachable_of_detour hmade
      have hoff : ∀ v, ¬ v < 5 → g.priority? v = g'.priority? v := by
        intro v hv
        have hout : g.contains v = false := by
          simpa using mt hg.coherent.contains_lt (hcount ▸ hv)
        have hout' : g'.contains v = false := by rwa [Game.contains, ← hactive]
        rw [Game.priority?, Game.priority?, hout, hout']
        rfl
      obtain ⟨hsame, hregions, -, -⟩ := history_irrelevant hg hg' howners hsuccessors hactive
        (fun v => if hv : v < 5 then hpriority v hv else hoff v hv) htotal
      exact ⟨g, g', rfl, hlisted, hlisted', hleft, hright, hsame _ (by decide), hregions⟩

end Solver

end ParityGames
