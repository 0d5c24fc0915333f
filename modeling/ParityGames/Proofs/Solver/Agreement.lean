import ParityGames.Solver
import ParityGames.Proofs.Improvement.Rounds
import ParityGames.Proofs.Improvement.Solved
import ParityGames.Proofs.Progress.Solved
import ParityGames.Proofs.Promotion.Solved

/-! # All solvers come to the same regions

Every solver that is allowed enough steps comes to a solution of a total game. A vertex is won by
one player only, so that the regions are the same for all of them.
-/

namespace ParityGames

variable {g : Game} {p : Player} {s : Solution}

/-- What a player cannot be driven out of is total by itself. -/
theorem Game.Dominion.isTotal_part {part : Game} {region : Set Nat} {move : Nat → Option Nat}
    (h : g.Dominion p region move) (htotal : g.isTotal = true) (hof : part.PartOf g)
    (hpart : ∀ v, part.contains v = true ↔ v ∈ region) : part.isTotal = true := by
  rw [Game.isTotal_iff]
  intro v hv
  have hmem := (hpart v).1 hv
  suffices ∃ w ∈ region, w ∈ g.successors v by
    obtain ⟨w, hw, hedge⟩ := this
    exact ⟨w, (hof.mem_successors (h.active w hw)).2 ⟨hedge, (hpart w).2 hw⟩⟩
  by_cases howner : g.owner v = p
  · obtain ⟨w, hw, -, hedge⟩ := h.keeps v hmem howner
    exact ⟨w, hw, hedge⟩
  · obtain ⟨w, hedge⟩ := Game.isTotal_iff.1 htotal v (h.active v hmem)
    exact ⟨w, h.traps v hmem howner w hedge, hedge⟩

/-- There is one way to share out a game into two regions that their players can hold. -/
theorem Solution.Holds.region_eq {s' : Solution} (h : s.Holds g) (h' : s'.Holds g) (p : Player) :
    s.region p = s'.region p := by
  have hsub : ∀ {s s' : Solution}, s.Holds g → s'.Holds g → ∀ v,
      (s.region p).contains v = true → (s'.region p).contains v = true := by
    intro s s' h h' v hv
    apply (h'.covers p v ((h.holds p).dominion.active v hv)).resolve_right
    exact (h.holds p).dominion.disjoint (h'.holds p.opponent).dominion hv
  apply VertexSet.ext ((h.holds p).capacity.trans (h'.holds p).capacity.symm)
  intro v
  exact Bool.eq_iff_iff.2 ⟨hsub h h' v, hsub h' h v⟩

namespace ProgressMeasures

theorem winnings_whole (hg : g.Coherent) (htotal : g.isTotal = true) (hroom : HasRoom g)
    (policy : Policy) {move : Nat → Option Nat}
    (hwhole : g.Dominion p {v | g.contains v = true} move) :
    ∃ t lost, (winnings policy g p).outcome = .ok (t, lost) ∧ t.Holds g p ∧
      lost.isEmpty = true ∧ ∀ v, g.contains v = true → t.region.contains v = true := by
  obtain ⟨t, lost, hrun, ht, -, hlost, hgreatest⟩ := winnings_spec hg htotal hroom policy p
  have hall := hgreatest _ _ hwhole
  refine ⟨t, lost, hrun, ht, VertexSet.isEmpty_iff.2 fun v => ?_, hall⟩
  rw [hlost]
  cases hv : g.contains v with
  | false => rfl
  | true => simp [hall v hv]

theorem solve_holds (policy : Policy) (hg : g.Coherent) (htotal : g.isTotal = true)
    (hroom : HasRoom g) : ∃ s, (solve policy g).outcome = .ok s ∧ s.Holds g := by
  obtain ⟨even, lost, hrun, heven, hcapacity, hlost, hgreatest⟩ :=
    winnings_spec hg htotal hroom policy .even
  obtain ⟨s, hs⟩ := Zielonka.exists_holds hg htotal
  have hodd := (hs.holds .odd).dominion
  obtain ⟨rest, hsub, hcoherent, hof, hcontains⟩ := Game.subgame_spec hg hcapacity
  have hrest : ∀ v, rest.contains v = true ↔ v ∈ (s.of .odd).area := by
    intro v
    rw [hcontains, Bool.and_eq_true, lost_eq_odd hs heven hlost hgreatest]
    exact and_iff_left_of_imp (hodd.active v)
  have hactive : ∀ v, rest.contains v = true → g.contains v = true :=
    fun v hv => hodd.active v ((hrest v).1 hv)
  have hwhole := hodd.to_part hof hrest
  rw [← Set.ext hrest (a := {v | rest.contains v = true})] at hwhole
  obtain ⟨odd, left, hrun', hoddHolds, hempty, hall⟩ := winnings_whole hcoherent
    (hodd.isTotal_part htotal hof hrest) (hroom.of_part hg hcoherent hof hactive) policy hwhole
  have hoddWhole : odd.Holds g .odd := by
    refine hoddHolds.of_part hof hactive fun v hv howner w hw => (hrest w).2 ?_
    exact hodd.traps v ((hrest v).1 (hoddHolds.dominion.active v hv)) howner w hw
  refine ⟨⟨even, odd⟩, ?_, @Solution.Holds.ofWinner g .even even odd heven hoddWhole fun v hv => ?_⟩
  · simp only [solve, htotal, Bool.not_true, Bool.false_eq_true, if_false, Run.outcome_bind,
      Run.outcome_write, Run.outcome_pure, Run.liftM_eq_attempt, Run.attempt_ok, hrun, hsub,
      hrun', hempty, ok_bind]
  · by_cases hin : even.region.contains v = true
    · exact Or.inl hin
    · refine Or.inr (hall v ?_)
      rw [hcontains, hlost, hv]
      simpa using hin

end ProgressMeasures

theorem Zielonka.solve_holds (hg : g.Coherent) (htotal : g.isTotal = true) :
    ∃ s, (solve g).outcome = .ok s ∧ s.Holds g := by
  obtain ⟨s, calls, hrun, hs⟩ := solveWithin_holds (g.size + 1) g 0 hg htotal (by omega)
  refine ⟨s, ?_, hs⟩
  simp only [solve, htotal, Bool.not_true, Bool.false_eq_true, if_false, Run.outcome_bind,
    Run.outcome_write, Run.outcome_pure, hrun, ok_bind]

theorem Promotion.solve_holds (hg : g.Coherent) (htotal : g.isTotal = true) :
    ∃ s, (solve g).outcome = .ok s ∧ s.Holds g := by
  obtain ⟨s, count, hcollect, hs⟩ :=
    collect_spec g.size 0 (collected_start hg htotal) (Nat.le_refl _)
  refine ⟨s, ?_, hs⟩
  simp only [solve, htotal, Bool.not_true, Bool.false_eq_true, if_false, Run.outcome_bind,
    Run.outcome_write, Run.outcome_pure, hcollect, ok_bind]

namespace Improvement

theorem Rounds.solution_holds {s t : Improvement} {n : Nat} (h : s.Rounds n t) (hs : s.Ready) :
    t.solution.Holds s.game := by
  induction h with
  | @stable s t hrun hstable => exact (hs.valued hrun).solution_holds hstable
  | @improve s s' t n hround _ ih =>
      obtain ⟨hready, hgame⟩ := hround.ready hs
      rw [← hgame]
      exact ih hready

theorem solve_holds (hg : g.Reachable) (htotal : g.isTotal = true) :
    ∃ s, (solve none g).outcome = .ok s ∧ s.Holds g := by
  have hready := start_ready hg htotal
  obtain ⟨n, t, hrounds, hlt⟩ := exists_rounds hready
  have hgame : (start g).game = g := rfl
  have hrun := hrounds.outcome (hgame ▸ hlt) 0
  refine ⟨t.solution, ?_, hgame ▸ hrounds.solution_holds hready⟩
  simp only [solve, htotal, Bool.not_true, Bool.false_eq_true, if_false, Run.outcome_bind,
    Run.outcome_write, Run.outcome_pure, hrun, ok_bind]

end Improvement

namespace Solver

/-- There is room for the counters of the solver, if it is one that counts. -/
def HasRoom (solver : Solver) (g : Game) : Prop :=
  ∀ policy, solver = .progressMeasures policy → ProgressMeasures.HasRoom g

theorem run_holds {solver : Solver} (hsolver : solver ∈ Solver.all none) (hg : g.Reachable)
    (htotal : g.isTotal = true) (hroom : solver.HasRoom g) :
    ∃ s, (solver.run g).outcome = .ok s ∧ s.Holds g := by
  simp only [all, List.mem_cons, List.not_mem_nil, or_false] at hsolver
  rcases hsolver with rfl | rfl | rfl | rfl | rfl
  · exact Zielonka.solve_holds hg.coherent htotal
  · exact Promotion.solve_holds hg.coherent htotal
  · exact ProgressMeasures.solve_holds .predecessor hg.coherent htotal (hroom _ rfl)
  · exact ProgressMeasures.solve_holds .linear hg.coherent htotal (hroom _ rfl)
  · exact Improvement.solve_holds hg htotal

end Solver

end ParityGames
