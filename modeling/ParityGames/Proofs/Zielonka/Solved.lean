import ParityGames.Solver.Zielonka
import ParityGames.Proofs.Attractor.Holding

/-! # Zielonka's algorithm solves every total game

Every call returns territories that hold and share out the active vertices. If the opponent wins
nothing in what the attractor of the top leaves, a play either meets the top infinitely often or
stays in the rest in the end. Otherwise what the opponent wins there is a dominion of the whole
game, since the player cannot leave it.
-/

namespace ParityGames

namespace Zielonka

variable {g part : Game} {p : Player}

theorem get?_completeTop (g : Game) (p : Player) (top : List Nat) (won : Territory) (v : Nat) :
    (completeTop g p top won).moves.get? v =
      (won.moves.get? v).or
        (if v ∈ top ∧ g.owner v = p then (g.successors v).head? else none) := by
  have hlookup := lookup_graph (fun v => (g.successors v).head?)
    (top.filter fun v => g.owner v = p) v
  simp only [completeTop, Territory.get?_fillMoves, hlookup, List.mem_filter, decide_eq_true_eq]

/-- The player wins all of what its attractor `a` of the top vertices leaves, and `won` unites
both. -/
structure Topped (g part : Game) (p : Player) (d : Nat) (a rest won : Territory) : Prop where
  attractor : a.IsAttractor g p {v | v ∈ g.verticesWithPriority d ∧ g.contains v = true}
  partOf : part.PartOf g
  contains : ∀ v, part.contains v = true ↔ g.contains v = true ∧ a.region.contains v = false
  wins : rest.Holds part p
  all : ∀ v, part.contains v = true → rest.region.contains v = true
  unites : won.Unites rest a

namespace Topped

variable {d : Nat} {a rest won : Territory} {v w : Nat}

theorem region_iff (h : Topped g part p d a rest won) (v : Nat) :
    won.region.contains v = true ↔ g.contains v = true := by
  rw [h.unites.contains, Bool.or_eq_true]
  constructor
  · intro hv
    rcases hv with hv | hv
    · exact ((h.contains v).1 (h.wins.dominion.active v hv)).1
    · exact h.attractor.active hv
  · intro hv
    by_cases hin : a.region.contains v = true
    · exact Or.inr hin
    · exact Or.inl (h.all v ((h.contains v).2 ⟨hv, by simpa using hin⟩))

theorem get?_moves (h : Topped g part p d a rest won) (v : Nat) :
    (completeTop g p (g.verticesWithPriority d) won).moves.get? v =
      ((rest.moves.get? v).or (a.moves.get? v)).or
        (if v ∈ g.verticesWithPriority d ∧ g.owner v = p then (g.successors v).head?
          else none) := by
  rw [get?_completeTop, h.unites.moves]

theorem get?_rest_of_mem (h : Topped g part p d a rest won) (hv : a.region.contains v = true) :
    rest.moves.get? v = none := by
  apply Option.eq_none_iff_forall_ne_some.2
  intro w hw
  have hin := h.wins.dominion.active v ((h.wins.hasMove v).1 ⟨w, hw⟩).1
  rw [((h.contains v).1 hin).2] at hv
  cases hv

theorem move_rest (h : Topped g part p d a rest won) (hw : rest.moves.get? v = some w) :
    (completeTop g p (g.verticesWithPriority d) won).moves.get? v = some w := by
  simp [h.get?_moves, hw]

theorem move_attracted (h : Topped g part p d a rest won) (hw : a.moves.get? v = some w) :
    (completeTop g p (g.verticesWithPriority d) won).moves.get? v = some w := by
  rw [h.get?_moves, h.get?_rest_of_mem ((h.attractor.hasMove v).1 ⟨w, hw⟩).1, hw]
  rfl

theorem move_top (h : Topped g part p d a rest won) (hg : g.Coherent)
    (hv : v ∈ g.verticesWithPriority d) (howner : g.owner v = p) :
    (completeTop g p (g.verticesWithPriority d) won).moves.get? v = (g.successors v).head? := by
  have hactive := (hg.mem_verticesWithPriority.1 hv).1
  rw [h.get?_moves, h.get?_rest_of_mem (h.attractor.of_target ⟨hv, hactive⟩),
    h.attractor.move_of_target ⟨hv, hactive⟩, if_pos ⟨hv, howner⟩]
  rfl

theorem dominion (h : Topped g part p d a rest won) (hg : g.Coherent) (htotal : g.isTotal = true)
    (hmax : g.maxPriority? = some d) (hd : Player.ofPriority d = p) :
    g.Dominion p won.area (completeTop g p (g.verticesWithPriority d) won).moves.get? := by
  obtain ⟨rank, hattracts⟩ := h.attractor.attracts
  refine Game.Attracts.dominion_of_top hd (hattracts.congr fun v hv hnot howner => ?_)
    h.region_iff (fun v hv => (hg.mem_verticesWithPriority.1 hv.1).2)
    (hg.maxPriority_some hmax).2 (fun v hv howner => ?_) h.partOf (fun v => ?_)
    (h.wins.dominion.congr fun v hv howner => ?_)
    fun v hv hout => h.all v ((h.contains v).2 ⟨(h.region_iff v).1 hv, by simpa using hout⟩)
  · obtain ⟨w, hw⟩ := (h.attractor.hasMove v).2 ⟨hv, hnot, howner⟩
    rw [h.move_attracted hw, hw]
  · obtain ⟨w, hw⟩ := (Game.isTotal_iff.1 htotal) v hv.2
    obtain ⟨x, hx⟩ := Option.isSome_iff_exists.1 (List.isSome_head?.2 (List.ne_nil_of_mem hw))
    exact ⟨x, (h.move_top hg hv.1 howner).trans hx, List.mem_of_head? hx⟩
  · rw [h.contains, Territory.mem_area, h.region_iff]
    simp
  · obtain ⟨w, hw⟩ := (h.wins.hasMove v).2 ⟨hv, howner⟩
    rw [h.move_rest hw, hw]

/-- With any moves at the top vertices the player wins the whole game. -/
theorem holds (h : Topped g part p d a rest won) (hg : g.Coherent) (htotal : g.isTotal = true)
    (hmax : g.maxPriority? = some d) (hd : Player.ofPriority d = p) :
    (completeTop g p (g.verticesWithPriority d) won).Holds g p := by
  have hdominion := h.dominion hg htotal hmax hd
  refine {
    capacity := h.unites.capacity.trans (h.wins.capacity.trans h.partOf.vertexCount)
    dominion := hdominion
    hasMove := fun v => ⟨?_, ?_⟩ }
  · rintro ⟨w, hw⟩
    rw [h.get?_moves, Option.or_eq_some_iff, Option.or_eq_some_iff] at hw
    rcases hw with (hw | ⟨-, hw⟩) | ⟨-, hw⟩
    · obtain ⟨hv, howner⟩ := (h.wins.hasMove v).1 ⟨w, hw⟩
      exact ⟨by simp [completeTop, h.unites.contains, hv], by rwa [h.partOf.owner] at howner⟩
    · obtain ⟨hv, -, howner⟩ := (h.attractor.hasMove v).1 ⟨w, hw⟩
      exact ⟨by simp [completeTop, h.unites.contains, hv], howner⟩
    · by_cases htop : v ∈ g.verticesWithPriority d ∧ g.owner v = p
      · exact ⟨(h.region_iff v).2 (hg.mem_verticesWithPriority.1 htop.1).1, htop.2⟩
      · rw [if_neg htop] at hw
        cases hw
  · rintro ⟨hv, howner⟩
    obtain ⟨w, -, hw, -⟩ := hdominion.keeps v hv howner
    exact ⟨w, hw⟩

end Topped

/-- The two territories of the case in which the opponent wins something below the top. -/
theorem holds_of_setback {b taken lost final : Territory} {rest : Solution}
    (htaken : taken.Holds g p.opponent)
    (hb : b.IsAttractor g p.opponent
      {v | taken.region.contains v = true ∧ g.contains v = true})
    (hof : part.PartOf g)
    (hpart : ∀ v, part.contains v = (g.contains v && !b.region.contains v))
    (hrest : rest.Holds part) (hlost : lost.Unites (rest.of p.opponent) b)
    (hfinal : final.Unites lost taken) :
    (Solution.ofWinner p (rest.of p) final).Holds g := by
  have hpartOf : ∀ v, part.contains v = true ↔ g.contains v = true ∧ b.region.contains v = false :=
    fun v => by simp [hpart]
  obtain ⟨c, -, hc⟩ := Territory.merge_spec (hb.capacity.trans htaken.capacity.symm)
  obtain ⟨hcHolds, hcContains⟩ := htaken.attracted hb hc
  have hother := hrest.holds p.opponent
  have hunites : final.Unites c (rest.of p.opponent) := by
    refine (hfinal.assoc hlost hc).comm ?_ fun v => ?_
    · exact hother.capacity.trans (hof.vertexCount.trans hcHolds.capacity.symm)
    · cases hv : (rest.of p.opponent).region.contains v with
      | false => exact Or.inl (hother.moves_eq_none hv)
      | true =>
          have hout := ((hpartOf v).1 (hother.dominion.active v hv)).2
          exact Or.inr (hcHolds.moves_eq_none ((hcContains v).trans hout))
  have hfinalHolds : final.Holds g p.opponent := by
    refine hcHolds.union hof (fun v hv => ?_) hother (fun v _ _ w hw => ?_) hunites
    · rw [hcContains]
      exact (hpartOf v).1 hv
    · rw [hcContains, hpartOf]
      cases b.region.contains w with
      | false => exact Or.inl ⟨Game.contains_of_mem_successors hw, rfl⟩
      | true => exact Or.inr rfl
  apply Solution.Holds.ofWinner ((hrest.holds p).of_rest hb hof hpart) hfinalHolds
  intro v hv
  cases hin : b.region.contains v with
  | true => exact Or.inr (by rw [hunites.contains, hcContains, hin, Bool.true_or])
  | false =>
      have hshared := hrest.covers p v ((hpartOf v).2 ⟨hv, hin⟩)
      rw [hunites.contains, Bool.or_eq_true]
      exact hshared.imp_right Or.inr

theorem solveWithin_holds (fuel : Nat) (g : Game) (depth : Nat) (hg : g.Coherent)
    (htotal : g.isTotal = true) (hfuel : g.size < fuel) :
    ∃ s calls, (solveWithin fuel g depth).outcome = .ok (s, calls) ∧ s.Holds g := by
  induction fuel generalizing g depth with
  | zero => omega
  | succ fuel ih =>
      unfold solveWithin
      simp only [Run.outcome_bind, Run.outcome_check, ok_bind]
      cases hmax : g.maxPriority? with
      | none =>
          refine ⟨Solution.empty g.vertexCount, 1, rfl, @Solution.Holds.ofWinner _ .even _ _
            (Territory.holds_empty g _) (Territory.holds_empty g _) fun v hv => ?_⟩
          rw [hg.maxPriority_none hmax v] at hv
          cases hv
      | some d =>
          simp only [Run.liftM_eq_attempt]
          generalize hd : Player.ofPriority d = p
          obtain ⟨a, hattractor, ha⟩ := attractor_spec hg p (g.verticesWithPriority d)
          obtain ⟨hcoherent, hof, hpart⟩ := Game.difference_spec hg a.region
          obtain ⟨⟨top, htop, hpriority⟩, -⟩ := hg.maxPriority_some hmax
          have hsize := ha.size_lt ⟨hg.mem_verticesWithPriority.2 ⟨htop, hpriority⟩, htop⟩ hpart
          obtain ⟨rest, calls, hrun, hrest⟩ := ih (g.difference a.region) (depth + 1) hcoherent
            (ha.total_rest hof hpart htotal) (by omega)
          simp only [hattractor, Run.attempt_ok, Run.outcome_bind, Run.outcome_pure,
            Run.outcome_write, ok_bind, hrun]
          have hp := hrest.holds p
          have hq := hrest.holds p.opponent
          split
          · rename_i hnone
            -- The opponent wins nothing below the top, so the player wins everything.
            obtain ⟨won, hmerge, hwon⟩ := Territory.merge_spec
              (hp.capacity.trans (hof.vertexCount.trans ha.capacity.symm))
            have hall : ∀ v, (g.difference a.region).contains v = true →
                (rest.of p).region.contains v = true := by
              intro v hv
              apply (hrest.covers p v hv).resolve_right
              simp [VertexSet.isEmpty_iff.1 hnone v]
            have htopped : Topped g _ p d a (rest.of p) _ :=
              ⟨ha, hof, fun v => by simp [hpart], hp, hall, hwon⟩
            have hholds := htopped.holds hg htotal hmax hd
            simp only [hmerge, Run.attempt_ok, Run.outcome_bind, Run.outcome_pure, ok_bind]
            refine ⟨_, _, rfl, Solution.Holds.ofWinner hholds (Territory.holds_empty g _) ?_⟩
            exact fun v hv => Or.inl ((htopped.region_iff v).2 hv)
          · rename_i hsome
            -- What the opponent wins below the top it wins in the whole game, with its attractor.
            obtain ⟨b, hattractor', hb⟩ :=
              attractorOfSet_spec hg p.opponent (rest.of p.opponent).region
            obtain ⟨hcoherent', hof', hpart'⟩ := Game.difference_spec hg b.region
            have htaken : (rest.of p.opponent).Holds g p.opponent :=
              hq.of_rest (by rwa [Player.opponent_opponent]) hof hpart
            obtain ⟨v, hv⟩ : ∃ v, (rest.of p.opponent).region.contains v = true := by
              simpa [VertexSet.isEmpty_iff] using hsome
            have hsize' := hb.size_lt ⟨hv, htaken.dominion.active v hv⟩ hpart'
            obtain ⟨rest', more, hrun', hrest'⟩ := ih (g.difference b.region) (depth + 1)
              hcoherent' (hb.total_rest hof' hpart' htotal) (by omega)
            obtain ⟨lost, hmerge, hlost⟩ := Territory.merge_spec
              ((hrest'.holds p.opponent).capacity.trans (hof'.vertexCount.trans hb.capacity.symm))
            obtain ⟨final, hmerge', hfinal⟩ := Territory.merge_spec (hlost.capacity.trans
              ((hrest'.holds p.opponent).capacity.trans
                (hof'.vertexCount.trans htaken.capacity.symm)))
            simp only [hattractor', hmerge, hmerge', Run.attempt_ok, Run.outcome_bind,
              Run.outcome_pure, Run.outcome_write, ok_bind, hrun']
            exact ⟨_, _, rfl, holds_of_setback htaken hb hof' hpart' hrest' hlost hfinal⟩

/-- Total games are determined. -/
theorem exists_holds (hg : g.Coherent) (htotal : g.isTotal = true) :
    ∃ s : Solution, s.Holds g := by
  obtain ⟨s, -, -, hs⟩ := solveWithin_holds (g.size + 1) g 0 hg htotal (by omega)
  exact ⟨s, hs⟩

/-- The solver comes to a solution of every total game. -/
theorem recursion_solves (hg : g.Reachable) (htotal : g.isTotal = true) :
    ∃ s, (solve g).outcome = .ok s ∧ s.Solves g := by
  obtain ⟨s, calls, hrun, hs⟩ := solveWithin_holds (g.size + 1) g 0 hg.coherent htotal (by omega)
  refine ⟨s, ?_, hs.solves⟩
  simp only [solve, htotal, Bool.not_true, Bool.false_eq_true, if_false, Run.outcome_bind,
    Run.outcome_write, Run.outcome_pure, hrun, ok_bind]

theorem recursion_solves_duel :
    ∃ g, duel.build = .ok g ∧ ∃ s, (solve g).outcome = .ok s ∧ s.Solves g := by
  obtain ⟨g, hmade, htotal, -⟩ := duel_total
  exact ⟨g, hmade, recursion_solves (.build hmade) htotal⟩

end Zielonka

end ParityGames
