import ParityGames.Proofs.Promotion.Termination

/-! # Priority promotion solves every total game

What is collected when nothing is left covers the game.
-/

namespace ParityGames

namespace Promotion

variable {g : Game}

theorem Collected.finished {rest : Game} {s : Solution} (hs : Collected g rest s)
    (hempty : ∀ v, rest.contains v = false) : s.Holds g := by
  refine @Solution.Holds.ofWinner g .even s.even s.odd (hs.holds .even) (hs.holds .odd)
    fun v hv => ?_
  by_contra hout
  rw [not_or, Bool.not_eq_true, Bool.not_eq_true] at hout
  have hin : rest.contains v = true := by
    refine (hs.contains v).2 ⟨hv, fun p => ?_⟩
    cases p with
    | even => exact hout.1
    | odd => exact hout.2
  rw [hempty v] at hin
  cases hin

theorem collect_spec (fuel : Nat) {rest : Game} {s : Solution} (promotions : Nat)
    (hs : Collected g rest s) (hfuel : rest.size ≤ fuel) :
    ∃ s' count, (collect fuel rest s promotions).outcome = .ok (s', count) ∧ s'.Holds g := by
  obtain ⟨n, t, hrounds, hend, hle⟩ := @Collected.exists_rounds g ⟨rest, s, promotions⟩ hs
  have ht := hs.rounds hrounds
  exact ⟨t.solution, t.promotions, hs.outcome hrounds hend (Nat.le_trans hle hfuel),
    ht.finished (ht.coherent.maxPriority_none hend)⟩

/-- The solver comes to a solution of every total game. -/
theorem promotion_solves (hg : g.Reachable) (htotal : g.isTotal = true) :
    ∃ s, (solve g).outcome = .ok s ∧ s.Solves g := by
  obtain ⟨s, count, hcollect, hs⟩ :=
    collect_spec g.size 0 (collected_start hg.coherent htotal) (Nat.le_refl _)
  refine ⟨s, ?_, hs.solves⟩
  simp only [solve, htotal, Bool.not_true, Bool.false_eq_true, if_false, Run.outcome_bind,
    Run.outcome_write, Run.outcome_pure, hcollect, ok_bind]

theorem promotion_solves_duel :
    ∃ g, duel.build = .ok g ∧ ∃ s, (solve g).outcome = .ok s ∧ s.Solves g := by
  obtain ⟨g, hmade, htotal, -⟩ := duel_total
  exact ⟨g, hmade, promotion_solves (.build hmade) htotal⟩

end Promotion

end ParityGames
