import ParityGames.Proofs.Solver.Endings

/-! # Solving winning regions again

The opponent cannot leave a winning region, so the region is a total game by itself, and its player
still wins all of it. Every solver says so, unless it is stopped by its limit or has no room for its
counters.
-/

namespace ParityGames

variable {g part : Game} {p : Player} {s : Solution}

theorem Solution.Holds.region_of_whole {move : Nat → Option Nat} (h : s.Holds g)
    (hwhole : g.Dominion p {v | g.contains v = true} move) (v : Nat) :
    (s.region p).contains v = g.contains v ∧ (s.region p.opponent).contains v = false := by
  have hlost : (s.region p.opponent).contains v = false := by
    by_contra hv
    have hv : (s.region p.opponent).contains v = true := by simpa using hv
    have hactive := (h.holds p.opponent).dominion.active v hv
    exact hwhole.disjoint (h.holds p.opponent).dominion hactive hv
  refine ⟨Bool.eq_iff_iff.2 ⟨(h.holds p).dominion.active v, fun hv => ?_⟩, hlost⟩
  refine (h.covers p v hv).resolve_right fun hopponent => ?_
  exact Bool.false_ne_true (hlost.symm.trans hopponent)

/-- The part of a game on a region that its player can hold: a total game of which the player holds
everything. -/
theorem Solution.Holds.exists_part (h : s.Holds g) (hg : g.Coherent) (htotal : g.isTotal = true)
    (p : Player) : ∃ part move, g.subgame (s.region p) = .ok part ∧ part.Coherent ∧ part.PartOf g ∧
      (∀ v, part.contains v = (s.region p).contains v) ∧ part.isTotal = true ∧
      part.Dominion p {v | part.contains v = true} move := by
  have hdominion := (h.holds p).dominion
  obtain ⟨part, made, hcoherent, hof, hcontains⟩ := Game.subgame_spec hg (h.holds p).capacity
  have hpart : ∀ v, part.contains v = (s.region p).contains v := by
    intro v
    refine (hcontains v).trans ?_
    cases hv : (s.of p).region.contains v with
    | false => exact (Bool.false_and _).trans hv.symm
    | true => exact ((Bool.true_and _).trans (hdominion.active v hv)).trans hv.symm
  have hmem : ∀ v, part.contains v = true ↔ v ∈ (s.of p).area := fun v => by rw [hpart]; rfl
  have hwhole := hdominion.to_part hof hmem
  rw [← Set.ext hmem (a := {v | part.contains v = true})] at hwhole
  exact ⟨part, _, made, hcoherent, hof, hpart, hdominion.isTotal_part htotal hof hmem, hwhole⟩

namespace Solver

theorem HasRoom.of_part {solver : Solver} (hroom : solver.HasRoom g) (hg : g.Coherent)
    (hpart : part.Coherent) (hof : part.PartOf g)
    (hsub : ∀ v, part.contains v = true → g.contains v = true) : solver.HasRoom part :=
  fun policy hsolver => (hroom policy hsolver).of_part hg hpart hof hsub

/-- The winning region of a player is a total game. Every solver that comes to a solution of it gives
it all to the same player, and only a limit or a lack of room can keep a solver from that. -/
theorem regions_resolve {solver : Solver} (hg : g.Reachable) (htotal : g.isTotal = true)
    (hrun : (solver.run g).outcome = .ok s) (p : Player) :
    ∃ part, g.subgame (s.region p) = .ok part ∧ part.isTotal = true ∧ ∀ again : Solver,
      (again.HasRoom g → again.HasRoom part) ∧
      ((∃ s', (again.run part).outcome = .ok s' ∧ s'.region p = s.region p ∧
          ∀ v, (s'.region p.opponent).contains v = false) ∨
        (∃ limit, again = .improvement (some limit) ∧
          (again.run part).outcome = .error (.iterationLimit limit)) ∨
        (¬again.HasRoom part ∧ ((again.run part).outcome = .error (.fault .capacityOverflow) ∨
          (again.run part).outcome = .error (.fault .additionOverflow)))) := by
  have hs := holds_of_outcome hg htotal hrun
  obtain ⟨part, move, made, hcoherent, hof, hpart, hparttotal, hwhole⟩ :=
    hs.exists_part hg.coherent htotal p
  have hsub : ∀ v, part.contains v = true → g.contains v = true := fun v hv =>
    (hs.holds p).dominion.active v ((hpart v).symm.trans hv)
  refine ⟨part, made, hparttotal, fun again =>
    ⟨fun hroom => hroom.of_part hg.coherent hcoherent hof hsub, ?_⟩⟩
  have hends := again.run_ends (.subgame hg made) hparttotal
  generalize houtcome : (again.run part).outcome = outcome at hends
  cases hends with
  | @solved s' hs' =>
      refine Or.inl ⟨s', rfl, ?_, fun v => (hs'.region_of_whole hwhole v).2⟩
      refine VertexSet.ext ?_ fun v => ((hs'.region_of_whole hwhole v).1).trans (hpart v)
      exact ((hs'.holds p).capacity.trans hof.vertexCount).trans (hs.holds p).capacity.symm
  | @limited limit hsolver => exact Or.inr (Or.inl ⟨limit, hsolver, rfl⟩)
  | @cramped cause hroom hcause =>
      refine Or.inr (Or.inr ⟨hroom, ?_⟩)
      rcases hcause with rfl | rfl
      · exact Or.inl rfl
      · exact Or.inr rfl

theorem regions_resolve_duel : ∃ g, duel.build = .ok g ∧ ∃ s part,
    (zielonka.run g).outcome = .ok s ∧ (s.region .odd).toList = [1, 3] ∧
      g.subgame (s.region .odd) = .ok part ∧ part.isTotal = true ∧
      ∃ s', (promotion.run part).outcome = .ok s' ∧ s'.region .odd = s.region .odd ∧
        ∀ v, (s'.region .even).contains v = false := by
  obtain ⟨g, hmade, htotal, -⟩ := duel_total
  obtain ⟨s, hrun, -⟩ := Zielonka.solve_holds (Game.Reachable.build hmade).coherent htotal
  have hregion : (duel.build.toOption.any fun g =>
      (zielonka.run g).outcome.toOption.any fun s => (s.region .odd).toList = [1, 3]) = true := by
    decide +kernel
  rw [← Solver.run] at hrun
  simp only [hmade, Except.toOption, Option.any_some, hrun, decide_eq_true_eq] at hregion
  obtain ⟨part, made, hpart, hagain⟩ := regions_resolve (.build hmade) htotal hrun .odd
  refine ⟨g, hmade, s, part, hrun, hregion, made, hpart, ?_⟩
  rcases (hagain .promotion).2 with hsolved | ⟨_, hsolver, -⟩ | ⟨hroom, -⟩
  · exact hsolved
  · cases hsolver
  · refine absurd (fun policy hsolver => ?_) hroom
    cases hsolver

/-- A vertex that can stay below or go up to a priority that asks for more counters than can be
stored. -/
def cliff : GameBuilder :=
  ⟨VertexTable.ofList [⟨.even, 1, [0, 1]⟩, ⟨.even, 2 ^ 60, [1]⟩]⟩

/-- Player even wins everything there, yet neither strategy improvement without a round to make nor
progress measures come to a solution of its region. -/
theorem cliff_not_resolved : ∃ g, cliff.build = .ok g ∧ g.Reachable ∧ g.isTotal = true ∧ ∃ s part,
    (zielonka.run g).outcome = .ok s ∧ g.subgame (s.region .even) = .ok part ∧
      (∀ s', ((improvement (some 0)).run part).outcome ≠ .ok s') ∧
      ∀ s', ((progressMeasures .predecessor).run part).outcome ≠ .ok s' := by
  obtain ⟨g, hmade, htotal⟩ : ∃ g, cliff.build = .ok g ∧ g.isTotal = true :=
    ⟨_, rfl, by decide +kernel⟩
  have hg := Game.Reachable.build hmade
  obtain ⟨s, hrun, hs⟩ := Zielonka.solve_holds hg.coherent htotal
  obtain ⟨part, -, made, -, -, -, hpart, -⟩ := hs.exists_part hg.coherent htotal .even
  have hstops : (cliff.build.toOption.any fun g =>
      (zielonka.run g).outcome.toOption.any fun s =>
        (g.subgame (s.region .even)).toOption.any fun part =>
          decide (part.maxPriority? = some (2 ^ 60)) &&
            ((improvement (some 0)).run part).outcome.toOption.isNone) = true := by
    decide +kernel
  rw [← Solver.run] at hrun
  simp only [hmade, Except.toOption, Option.any_some, hrun, made, Bool.and_eq_true,
    decide_eq_true_eq] at hstops
  refine ⟨g, hmade, hg, htotal, s, part, hrun, made, fun s' hsolved => ?_, fun s' hsolved => ?_⟩
  · rw [hsolved] at hstops
    cases hstops.2
  · have hroom : ¬ProgressMeasures.HasRoom part := fun hroom =>
      absurd (hroom _ hstops.1) (by decide)
    obtain ⟨cause, hfail⟩ := ProgressMeasures.solve_of_no_room .predecessor hpart hroom
    rw [Solver.run, hfail] at hsolved
    cases hsolved

end Solver

end ParityGames
