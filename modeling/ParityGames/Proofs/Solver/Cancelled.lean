import ParityGames.Solver
import ParityGames.Proofs.Game.Index
import ParityGames.Proofs.Run.Followed
import ParityGames.Proofs.Solver.Agreement

/-! # Cancelling solvers

No solver ends as cancelled by itself, and on a game with an active vertex every solver polls before
it writes a record. Progress measures set up their counters before that, which fails if there are
too many of them.
-/

namespace ParityGames

open Run

variable {g : Game}

/-! ## No solver cancels itself -/

theorem Zielonka.solveWithin_uncancelled (fuel : Nat) (g : Game) (depth : Nat) :
    (solveWithin fuel g depth).Uncancelled := by
  induction fuel generalizing g depth with
  | zero => exact uncancelled_fail _
  | succ fuel ih =>
      unfold solveWithin
      refine uncancelled_check.bind fun _ => ?_
      split
      · exact uncancelled_pure _
      · refine (uncancelled_attempt _).bind fun a => (uncancelled_write _).bind fun _ => ?_
        refine (ih _ _).bind fun ⟨rest, calls⟩ => ?_
        dsimp only
        split
        · exact (uncancelled_attempt _).bind fun won => uncancelled_pure _
        · refine (uncancelled_attempt _).bind fun b => (uncancelled_write _).bind fun _ => ?_
          refine (ih _ _).bind fun ⟨rest, more⟩ => ?_
          exact (uncancelled_attempt _).bind fun lost => (uncancelled_attempt _).bind fun lost =>
            uncancelled_pure _

theorem Promotion.search_uncancelled (g : Game) (fuel : Nat) (s : State) (promotions : Nat) :
    (search g fuel s promotions).Uncancelled := by
  induction fuel generalizing s promotions with
  | zero => exact uncancelled_fail _
  | succ fuel ih =>
      unfold search
      refine uncancelled_check.bind fun _ => (uncancelled_attempt _).bind fun step => ?_
      cases step with
      | descend next => exact ih _ _
      | promote vertices next => exact (uncancelled_write _).bind fun _ => ih _ _
      | closed t => exact uncancelled_pure _

theorem Promotion.collect_uncancelled (fuel : Nat) (rest : Game) (solution : Solution)
    (promotions : Nat) : (collect fuel rest solution promotions).Uncancelled := by
  induction fuel generalizing rest solution promotions with
  | zero =>
      unfold collect
      split
      · exact uncancelled_pure _
      · exact uncancelled_fail _
      · contradiction
  | succ fuel ih =>
      unfold collect
      split
      · exact uncancelled_pure _
      · contradiction
      · rename_i hfuel
        cases hfuel
        refine uncancelled_check.bind fun _ => (search_uncancelled _ _ _ _).bind fun result => ?_
        obtain ⟨p, dominion, promotions⟩ := result
        refine (uncancelled_attempt _).bind fun attracted => (uncancelled_attempt _).bind fun won => ?_
        refine (uncancelled_write _).bind fun _ => (uncancelled_attempt _).bind fun solution => ?_
        exact ih _ _ _

theorem ProgressMeasures.liftAll_uncancelled (fuel : Nat) (m : ProgressMeasures)
    (schedule : Schedule) (lifts : Nat) : (liftAll fuel m schedule lifts).Uncancelled := by
  induction fuel generalizing m schedule lifts with
  | zero =>
      unfold liftAll
      split
      · exact uncancelled_pure _
      · exact uncancelled_fail _
      · contradiction
  | succ fuel ih =>
      unfold liftAll
      split
      · exact uncancelled_pure _
      · contradiction
      · rename_i hfuel
        cases hfuel
        refine uncancelled_check.bind fun _ => ?_
        split
        · exact ih _ _ _
        · split
          · exact ih _ _ _
          · exact ih _ _ _

theorem Improvement.stabilise_uncancelled (limit? : Option Nat) (fuel : Nat) (s : Improvement)
    (iterations : Nat) : (stabilise limit? fuel s iterations).Uncancelled := by
  induction fuel generalizing s iterations with
  | zero => exact uncancelled_fail _
  | succ fuel ih =>
      unfold stabilise
      refine uncancelled_check.bind fun _ => (uncancelled_attempt _).bind fun valued => ?_
      split
      · exact uncancelled_pure _
      · refine (uncancelled_write _).bind fun _ => ?_
        split
        · split
          · exact uncancelled_limit _
          · exact ih _ _
        · exact ih _ _

theorem ProgressMeasures.winnings_uncancelled (policy : Policy) (g : Game) (p : Player) :
    (winnings policy g p).Uncancelled := by
  unfold winnings
  refine (uncancelled_attempt _).bind fun m => (liftAll_uncancelled _ _ _ _).bind fun result => ?_
  exact (uncancelled_write _).bind fun _ => uncancelled_pure _

theorem Zielonka.solve_uncancelled (g : Game) : (solve g).Uncancelled := by
  unfold solve
  dsimp only
  split
  · exact uncancelled_fail (.notTotal .zielonka)
  · refine (solveWithin_uncancelled _ _ _).bind fun result => ?_
    exact (uncancelled_write _).bind fun _ => uncancelled_pure _

theorem Promotion.solve_uncancelled (g : Game) : (solve g).Uncancelled := by
  unfold solve
  dsimp only
  split
  · exact uncancelled_fail (.notTotal .promotion)
  · refine (collect_uncancelled _ _ _ _).bind fun result => ?_
    exact (uncancelled_write _).bind fun _ => uncancelled_pure _

theorem ProgressMeasures.solve_uncancelled (policy : Policy) (g : Game) :
    (solve policy g).Uncancelled := by
  unfold solve
  dsimp only
  split
  · exact uncancelled_fail (.notTotal .progressMeasures)
  · refine (winnings_uncancelled _ _ _).bind fun even => (uncancelled_attempt _).bind fun rest => ?_
    refine (winnings_uncancelled _ _ _).bind fun odd => ?_
    split
    · exact uncancelled_fail .measuresDisagree
    · exact (uncancelled_write _).bind fun _ => uncancelled_pure _

theorem Improvement.solve_uncancelled (limit? : Option Nat) (g : Game) :
    (solve limit? g).Uncancelled := by
  unfold solve
  dsimp only
  split
  · exact uncancelled_fail (.notTotal .improvement)
  · refine (stabilise_uncancelled _ _ _ _).bind fun result => ?_
    exact (uncancelled_write _).bind fun _ => uncancelled_pure _

theorem Solver.run_uncancelled (solver : Solver) (g : Game) : (solver.run g).Uncancelled := by
  cases solver with
  | zielonka => exact Zielonka.solve_uncancelled g
  | promotion => exact Promotion.solve_uncancelled g
  | progressMeasures policy => exact ProgressMeasures.solve_uncancelled policy g
  | improvement limit? => exact Improvement.solve_uncancelled limit? g

/-! ## Every solver polls first -/

theorem Zielonka.solve_pollsFirst (htotal : g.isTotal = true) : (solve g).PollsFirst := by
  simp only [solve, htotal, Bool.not_true, Bool.false_eq_true, if_false]
  exact PollsFirst.bind ⟨_, rfl⟩ _

theorem Game.Coherent.exists_vertices (hg : g.Coherent) (hne : g.isEmpty = false) :
    ∃ v rest, g.vertices = v :: rest := by
  refine List.exists_cons_of_ne_nil fun hnil => ?_
  rw [hg.isEmpty_iff.2 (by rw [g.size_eq_length, hnil, List.length_nil])] at hne
  cases hne

theorem Promotion.solve_pollsFirst (hg : g.Coherent) (htotal : g.isTotal = true)
    (hne : g.isEmpty = false) : (solve g).PollsFirst := by
  obtain ⟨v, rest, hvertices⟩ := hg.exists_vertices hne
  obtain ⟨top, hmax⟩ := hg.exists_maxPriority ⟨v, by simp [← Game.mem_vertices, hvertices]⟩
  have hsize : g.size = rest.length + 1 := by rw [g.size_eq_length, hvertices, List.length_cons]
  have hcollect : (collect g.size g (Solution.empty g.vertexCount) 0).PollsFirst := by
    unfold collect
    rw [hmax, hsize]
    exact ⟨_, rfl⟩
  simp only [solve, htotal, Bool.not_true, Bool.false_eq_true, if_false]
  exact hcollect.bind _

theorem Improvement.solve_pollsFirst (limit? : Option Nat) (htotal : g.isTotal = true) :
    (solve limit? g).PollsFirst := by
  simp only [solve, htotal, Bool.not_true, Bool.false_eq_true, if_false]
  exact PollsFirst.bind ⟨_, rfl⟩ _

namespace ProgressMeasures

/-- A schedule hands out the vertices from the first one on. -/
theorem next_start {v : Nat} {rest : List Nat} (hvertices : g.vertices = v :: rest)
    (policy : Policy) : ∃ schedule, (Schedule.start g policy).next = (some v, schedule) := by
  cases policy with
  | linear =>
      refine ⟨.round (VertexTable.ofList g.vertices)
        ((0 + 1) % (VertexTable.ofList g.vertices).length) (0 + 1), ?_⟩
      simp [Schedule.start, Schedule.next, hvertices, VertexTable.getD_ofList]
  | predecessor =>
      refine ⟨.queue g.activeIncoming rest (g.active.remove v), ?_⟩
      simp [Schedule.start, Schedule.next, hvertices]

theorem solve_pollsFirst (policy : Policy) (hg : g.Coherent) (htotal : g.isTotal = true)
    (hne : g.isEmpty = false) (hroom : HasRoom g) : (solve policy g).PollsFirst := by
  obtain ⟨v, rest, hvertices⟩ := hg.exists_vertices hne
  obtain ⟨m, hstart, -⟩ := start_spec hg hroom .even
  obtain ⟨schedule, hnext⟩ := next_start hvertices policy
  have hturns : 0 < m.turnBound := Nat.mul_pos (Nat.succ_pos _) (Nat.succ_pos _)
  obtain ⟨fuel, hfuel⟩ := Nat.exists_eq_succ_of_ne_zero (Nat.ne_of_gt hturns)
  have hlift : (liftAll m.turnBound m (Schedule.start g policy) 0).PollsFirst := by
    unfold liftAll
    rw [hnext, hfuel]
    exact ⟨_, rfl⟩
  have hwinnings : (winnings policy g .even).PollsFirst := by
    unfold winnings
    rw [hstart]
    exact hlift.bind _
  simp only [solve, htotal, Bool.not_true, Bool.false_eq_true, if_false]
  exact hwinnings.bind _

theorem start_of_no_room (hroom : ¬HasRoom g) (p : Player) :
    ∃ cause, start g p = .error cause := by
  simp only [HasRoom, not_forall] at hroom
  obtain ⟨d, hmax, hlarge⟩ := hroom
  unfold start counterCount
  rw [hmax]
  simp only
  split
  · exact ⟨.capacityOverflow, by rw [ok_bind, checkStorage, if_neg hlarge]; rfl⟩
  · exact ⟨.additionOverflow, rfl⟩

theorem solve_of_start_error (policy : Policy) (htotal : g.isTotal = true) {cause : Fault}
    (hstart : start g .even = .error cause) : solve policy g = Run.fail cause := by
  simp only [solve, htotal, Bool.not_true, Bool.false_eq_true, if_false, winnings, hstart]
  rfl

theorem solve_of_no_room (policy : Policy) (htotal : g.isTotal = true) (hroom : ¬HasRoom g) :
    ∃ cause, solve policy g = Run.fail cause := by
  obtain ⟨cause, hstart⟩ := start_of_no_room hroom .even
  exact ⟨cause, solve_of_start_error policy htotal hstart⟩

end ProgressMeasures

namespace Solver

open ProgressMeasures

theorem run_pollsFirst {solver : Solver} (hg : g.Coherent) (htotal : g.isTotal = true)
    (hne : g.isEmpty = false) (hroom : solver.HasRoom g) : (solver.run g).PollsFirst := by
  cases solver with
  | zielonka => exact Zielonka.solve_pollsFirst htotal
  | promotion => exact Promotion.solve_pollsFirst hg htotal hne
  | progressMeasures policy =>
      exact ProgressMeasures.solve_pollsFirst policy hg htotal hne (hroom policy rfl)
  | improvement limit? => exact Improvement.solve_pollsFirst limit? htotal

theorem run_of_no_room {solver : Solver} (htotal : g.isTotal = true) (hroom : ¬solver.HasRoom g) :
    ∃ cause, solver.run g = Run.fail cause := by
  simp only [HasRoom, not_forall] at hroom
  obtain ⟨policy, rfl, hroom⟩ := hroom
  exact solve_of_no_room policy htotal hroom

/-- Under every token a solver comes to its result with all of its records, or a poll that found the
token raised cancels it, and then it would be cancelled as well if the token had been raised earlier.
A token that is raised before the start cancels it before the first record, unless there is no room
for its counters. -/
theorem cancelled_or_finished (solver : Solver) (hg : g.Reachable) (htotal : g.isTotal = true) :
    (∀ raised, (solver.run g).AllOrNothing raised) ∧
    (∀ raised earlier : Moment → Bool, (∀ m, raised m = true → earlier m = true) →
      ((solver.run g).report raised).1 = .error .cancelled →
      ((solver.run g).report earlier).1 = .error .cancelled) ∧
    (g.isEmpty = false → ∀ raised : Moment → Bool, raised ⟨0, 0⟩ = true →
      (solver.HasRoom g → (solver.run g).report raised = (.error .cancelled, [])) ∧
      (¬solver.HasRoom g → ∃ cause, (solver.run g).report raised = (.error (.fault cause), []))) := by
  have hall := (solver.run_uncancelled g).allOrNothing
  refine ⟨hall, fun raised earlier hearlier hcancelled => ?_, fun hne raised hraised => ⟨?_, ?_⟩⟩
  · obtain ⟨m, hm, hraised⟩ := (hall raised).cancelled_iff.1 hcancelled
    exact (hall earlier).cancelled_iff.2 ⟨m, hm, hearlier m hraised⟩
  · intro hroom
    exact (run_pollsFirst hg.coherent htotal hne hroom).report hraised
  · intro hroom
    obtain ⟨cause, hrun⟩ := run_of_no_room htotal hroom
    exact ⟨cause, by rw [hrun]; rfl⟩

theorem cancelled_or_finished_duel : ∃ g, duel.build = .ok g ∧
    ((Solver.zielonka.run g).AllOrNothing fun moment => decide (2 ≤ moment.polls)) ∧
    ((progressMeasures .linear).run g).report (fun _ => true) = (.error .cancelled, []) := by
  obtain ⟨g, hmade, htotal, hmax⟩ := duel_total
  obtain ⟨hzielonka, -, -⟩ := cancelled_or_finished .zielonka (.build hmade) htotal
  obtain ⟨-, -, hraised⟩ :=
    cancelled_or_finished (.progressMeasures .linear) (.build hmade) htotal
  have hne : g.isEmpty = false := by
    have hshape : (duel.build.toOption.any fun g => !g.isEmpty) = true := by decide +kernel
    simpa [hmade, Except.toOption] using hshape
  refine ⟨g, hmade, hzielonka _, (hraised hne _ rfl).1 fun policy _ d hd => ?_⟩
  cases hmax.symm.trans hd
  decide

/-- One vertex with a priority that asks for more counters than can be stored. -/
def steep : GameBuilder := ⟨VertexTable.ofList [⟨.even, 2 ^ 60, [0]⟩]⟩

/-- A token that is raised from the start does not cancel progress measures there: they fail
before they poll. -/
theorem steep_not_cancelled : ∃ g, steep.build = .ok g ∧ g.Reachable ∧ g.isTotal = true ∧
    g.isEmpty = false ∧
    ((progressMeasures .predecessor).run g).report (fun _ => true) ≠ (.error .cancelled, []) := by
  obtain ⟨g, hmade, htotal, hne, hmax⟩ : ∃ g, steep.build = .ok g ∧ g.isTotal = true ∧
      g.isEmpty = false ∧ g.maxPriority? = some (2 ^ 60) :=
    ⟨_, rfl, by decide, by decide +kernel, by decide +kernel⟩
  have hroom : ¬ProgressMeasures.HasRoom g := fun hroom => absurd (hroom _ hmax) (by decide)
  obtain ⟨cause, hrun⟩ := solve_of_no_room .predecessor htotal hroom
  refine ⟨g, hmade, .build hmade, htotal, hne, ?_⟩
  rw [Solver.run, hrun]
  exact fun hsame => nomatch hsame

end Solver

end ParityGames
