import ParityGames.Proofs.Solver.Cancelled

/-! # How solvers end

On a total game every solver comes to territories that hold, unless it runs into the limit that it
was given or into counters that cannot be stored. None of them takes the game for one with a dead
end.
-/

namespace ParityGames

open Run

variable {g : Game}

namespace Improvement

/-- A limit does not change the solution, it only keeps the rounds beyond it from being made. -/
theorem solve_limited (hg : g.Reachable) (htotal : g.isTotal = true) :
    ∃ rounds s, s.Holds g ∧ (solve none g).outcome = .ok s ∧
      ∀ limit, (solve (some limit) g).outcome =
        if limit < rounds then .error (.iterationLimit limit) else .ok s := by
  have hready := start_ready hg htotal
  obtain ⟨n, t, hrounds, hlt⟩ := exists_rounds hready
  have hgame : (start g).game = g := rfl
  rw [hgame] at hlt
  have hrun := hrounds.outcome hlt 0
  refine ⟨n, t.solution, hgame ▸ hrounds.solution_holds hready, ?_, fun limit => ?_⟩
  · simp only [solve, htotal, Bool.not_true, Bool.false_eq_true, if_false, outcome_bind,
      outcome_write, outcome_pure, hrun, ok_bind]
  · have hlimited := hrounds.outcome_limited hlt (Nat.zero_le limit)
    rw [Nat.zero_add] at hlimited
    simp only [solve, htotal, Bool.not_true, Bool.false_eq_true, if_false, outcome_bind,
      outcome_write, outcome_pure, hlimited]
    split <;> rfl

end Improvement

theorem ProgressMeasures.fault_of_start {p : Player} {cause : Fault}
    (h : ProgressMeasures.start g p = .error cause) :
    cause = .capacityOverflow ∨ cause = .additionOverflow := by
  unfold ProgressMeasures.start counterCount checkStorage at h
  split at h
  · simp only [ok_bind] at h
    split at h <;> cases h
    exact Or.inl rfl
  · split at h
    · simp only [ok_bind] at h
      split at h <;> cases h
      exact Or.inl rfl
    · cases h
      exact Or.inr rfl

namespace Solver

inductive Ends (solver : Solver) (g : Game) : Except Stop Solution → Prop
  | solved {s : Solution} (hs : s.Holds g) : Ends solver g (.ok s)
  | limited {limit : Nat} (hsolver : solver = .improvement (some limit)) :
      Ends solver g (.error (.iterationLimit limit))
  | cramped {cause : Fault} (hroom : ¬solver.HasRoom g)
      (hcause : cause = .capacityOverflow ∨ cause = .additionOverflow) :
      Ends solver g (.error (.fault cause))

theorem run_ends (solver : Solver) (hg : g.Reachable) (htotal : g.isTotal = true) :
    solver.Ends g (solver.run g).outcome := by
  cases solver with
  | zielonka =>
      obtain ⟨s, hrun, hs⟩ := Zielonka.solve_holds hg.coherent htotal
      rw [Solver.run, hrun]
      exact .solved hs
  | promotion =>
      obtain ⟨s, hrun, hs⟩ := Promotion.solve_holds hg.coherent htotal
      rw [Solver.run, hrun]
      exact .solved hs
  | progressMeasures policy =>
      by_cases hroom : ProgressMeasures.HasRoom g
      · obtain ⟨s, hrun, hs⟩ := ProgressMeasures.solve_holds policy hg.coherent htotal hroom
        rw [Solver.run, hrun]
        exact .solved hs
      · obtain ⟨cause, hstart⟩ := ProgressMeasures.start_of_no_room hroom .even
        rw [Solver.run, ProgressMeasures.solve_of_start_error policy htotal hstart]
        exact .cramped (fun h => hroom (h policy rfl)) (ProgressMeasures.fault_of_start hstart)
  | improvement limit? =>
      obtain ⟨rounds, s, hs, hrun, hlimited⟩ := Improvement.solve_limited hg htotal
      cases limit? with
      | none =>
          rw [Solver.run, hrun]
          exact .solved hs
      | some limit =>
          rw [Solver.run, hlimited]
          split
          · exact .limited rfl
          · exact .solved hs

theorem holds_of_outcome {solver : Solver} {s : Solution} (hg : g.Reachable)
    (htotal : g.isTotal = true) (hrun : (solver.run g).outcome = .ok s) : s.Holds g := by
  have hends := solver.run_ends hg htotal
  rw [hrun] at hends
  cases hends with
  | solved hs => exact hs

/-- Whatever its token does, no solver says of a total game that it is not total. -/
theorem report_ne_notTotal (solver : Solver) (hg : g.Reachable) (htotal : g.isTotal = true)
    (raised : Moment → Bool) (method : Method) :
    ((solver.run g).report raised).1 ≠ .error (.fault (.notTotal method)) := by
  intro hreport
  rcases ((solver.run_uncancelled g).allOrNothing raised).result with hcancelled | hsame
  · cases hreport.symm.trans hcancelled
  · rw [hsame, report_never _ _ fun _ => rfl] at hreport
    have hends := solver.run_ends hg htotal
    rw [show (solver.run g).outcome = _ from hreport] at hends
    cases hends with
    | cramped _ hcause => rcases hcause with hcause | hcause <;> cases hcause

end Solver

end ParityGames
