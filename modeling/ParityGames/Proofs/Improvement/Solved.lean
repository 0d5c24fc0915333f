import ParityGames.Proofs.Improvement.Ready
import ParityGames.Proofs.Play.Holding

/-! # Strategy improvement solves the game

When no vertex has a better move, the vertices with good heads and those with bad heads are the two
winning regions, and the moves of player even and the response of player odd are winning.
-/

namespace ParityGames

namespace Improvement

variable {s : Improvement} {g : Game} {choice : Nat → Nat}

def assign (s : Improvement) (solution : Solution) (v : Nat) : Solution :=
  let won := solution.of (s.winner v)
  solution.put (s.winner v) ⟨won.region.insert v,
    if s.game.owner v = s.winner v then won.moves.insert v (s.move v) else won.moves⟩

theorem solution_eq (s : Improvement) :
    s.solution = s.game.vertices.foldl s.assign (Solution.empty s.game.vertexCount) := rfl

/-- The vertices so far with their winners, and their moves where the winner owns them. -/
structure Assigned (s : Improvement) (done : Nat → Prop) (solution : Solution) : Prop where
  capacity : ∀ p, (solution.of p).region.capacity = s.game.vertexCount
  region : ∀ p v, (solution.of p).region.contains v = true ↔ done v ∧ s.winner v = p
  moves : ∀ p v w, (solution.of p).moves.get? v = some w ↔
    done v ∧ s.winner v = p ∧ s.game.owner v = p ∧ s.move v = w

theorem Assigned.assign {done : Nat → Prop} {solution : Solution} {v : Nat}
    (h : s.Assigned done solution) (hv : v < s.game.vertexCount) :
    s.Assigned (fun u => done u ∨ u = v) (s.assign solution v) := by
  have hother : ∀ p, p ≠ s.winner v → (s.assign solution v).of p = solution.of p := by
    intro p hp
    rw [Player.eq_opponent_of_ne hp]
    exact Solution.of_opponent_put _ _ _
  have hsame : (s.assign solution v).of (s.winner v) =
      ⟨(solution.of (s.winner v)).region.insert v,
        if s.game.owner v = s.winner v then (solution.of (s.winner v)).moves.insert v (s.move v)
        else (solution.of (s.winner v)).moves⟩ := Solution.of_put _ _ _
  refine ⟨fun p => ?_, fun p u => ?_, fun p u w => ?_⟩
  · by_cases hp : p = s.winner v
    · rw [hp, hsame]
      exact (VertexSet.capacity_insert _ _).trans (h.capacity _)
    · rw [hother p hp]
      exact h.capacity p
  · by_cases hp : p = s.winner v
    · rw [hp, hsame]
      show ((solution.of (s.winner v)).region.insert v).contains u = true ↔ _
      rw [VertexSet.contains_insert, Bool.or_eq_true, h.region]
      by_cases hu : u = v
      · simp [hu, h.capacity, hv]
      · simp [hu]
    · rw [hother p hp, h.region]
      by_cases hu : u = v
      · simp [hu, Ne.symm hp]
      · simp [hu]
  · by_cases hp : p = s.winner v
    · rw [hp, hsame]
      show (if s.game.owner v = s.winner v then
        (solution.of (s.winner v)).moves.insert v (s.move v)
        else (solution.of (s.winner v)).moves).get? u = some w ↔ _
      by_cases howner : s.game.owner v = s.winner v
      · rw [if_pos howner, SortedMap.get?_insert]
        by_cases hu : u = v
        · simp [hu, howner]
        · rw [if_neg hu, h.moves]
          simp [hu]
      · rw [if_neg howner, h.moves]
        by_cases hu : u = v
        · simp [hu, howner]
        · simp [hu]
    · rw [hother p hp, h.moves]
      by_cases hu : u = v
      · simp [hu, Ne.symm hp]
      · simp [hu]

theorem solution_assigned (hg : s.game.Coherent) :
    s.Assigned (fun v => s.game.contains v = true) s.solution := by
  have hfold := foldl_induction s.assign s.game.vertices (Solution.empty s.game.vertexCount)
    (fun done solution => s.Assigned (fun v => v ∈ done) solution)
    ⟨fun p => by cases p <;> rfl, fun p v => by cases p <;> simp [Solution.empty, Solution.of,
      Territory.empty], fun p v w => by cases p <;> simp [Solution.empty, Solution.of,
      Territory.empty]⟩ ?_
  · rw [← solution_eq] at hfold
    simpa only [Game.mem_vertices] using hfold
  · intro done v rest solution hitems h
    have hv : v ∈ s.game.vertices := by simp [hitems]
    have hstep := h.assign (hg.contains_lt (Game.mem_vertices.1 hv))
    simpa only [List.mem_append, List.mem_singleton] using hstep

/-- If no vertex has a better move, both territories of the solution hold. -/
theorem Valued.solution_holds (hs : s.Valued g choice) (hstable : s.improve.2 = false) :
    s.solution.Holds g := by
  obtain rfl := hs.keeps.game
  have hassigned := solution_assigned hs.keeps.coherent
  have hmoves : ∀ p v, s.game.contains v = true → s.winner v = p → s.game.owner v = p →
      (s.solution.of p).moves.get? v = some (s.move v) := fun p v hv hwinner howner =>
    (hassigned.moves p v _).2 ⟨hv, hwinner, howner, rfl⟩
  have hdominion : ∀ p, s.game.Dominion p {v | s.game.contains v = true ∧ s.winner v = p}
      (s.solution.of p).moves.get? := by
    intro p
    cases p with
    | even => exact hs.dominion_even (hmoves .even)
    | odd => exact hs.dominion_odd hstable (hmoves .odd)
  have harea : ∀ p, (s.solution.of p).area =
      {v | s.game.contains v = true ∧ s.winner v = p} := fun p => Set.ext (hassigned.region p)
  refine ⟨fun v => ?_, fun p => ⟨hassigned.capacity p, harea p ▸ hdominion p, fun v => ?_⟩⟩
  · have heven := hassigned.region .even v
    have hodd := hassigned.region .odd v
    unfold Solution.region
    rw [heven, hodd]
    cases s.winner v <;> simp
  · rw [hassigned.region]
    constructor
    · rintro ⟨w, hw⟩
      obtain ⟨hv, hwinner, howner, -⟩ := (hassigned.moves p v w).1 hw
      exact ⟨⟨hv, hwinner⟩, howner⟩
    · rintro ⟨⟨hv, hwinner⟩, howner⟩
      exact ⟨_, hmoves p v hv hwinner howner⟩

/-- The valuation keeps the moves of player even. If they are stable then, the solution goes by the
heads, its moves are those of the state, and both players win with them. -/
theorem stable_solves (h : s.Ready) :
    ∃ t, s.valuation = .ok t ∧ t.game = s.game ∧
      (∀ v, s.game.contains v = true → s.game.owner v = .even → t.move v = s.move v) ∧
      (t.improve.2 = false →
        (∀ p v, (t.solution.region p).contains v = true ↔ s.game.contains v = true ∧
          Player.ofPriority (s.game.priorityOf (t.profile v).head) = p) ∧
        (∀ p v w, (t.solution.moves p).get? v = some w ↔
          (t.solution.region p).contains v = true ∧ s.game.owner v = p ∧ t.move v = w) ∧
        t.solution.Solves s.game) := by
  obtain ⟨t, hrun, ht⟩ := valuation_spec h.keeps h.total
  refine ⟨t, hrun, ht.keeps.game, ht.keeps.move, fun hstable => ?_⟩
  have hassigned := solution_assigned (ht.keeps.game ▸ h.reachable.coherent)
  rw [ht.keeps.game] at hassigned
  refine ⟨fun p v => ?_, fun p v w => ?_, (ht.solution_holds hstable).solves⟩
  · refine (hassigned.region p v).trans (and_congr_right fun hv => ?_)
    rw [ht.winner_eq hv]
  · apply (hassigned.moves p v w).trans
    unfold Solution.region
    rw [hassigned.region, ht.keeps.game, and_assoc]

theorem stable_solves_duel : ∃ g, duel.build = .ok g ∧
    ∃ t, ({ start g with moves := VertexTable.ofList [2, 0, 2, 4, 0] } : Improvement).valuation =
        .ok t ∧ t.improve.2 = false ∧ t.solution.Solves g := by
  obtain ⟨g, hmade, htotal, -⟩ := duel_total
  have hedges : (duel.build.toOption.any fun g => decide (g.vertexCount = 5 ∧
      ∀ v ∈ g.vertices, g.owner v = .even →
        (VertexTable.ofList [2, 0, 2, 4, 0]).getD v 0 ∈ g.successors v)) = true := by
    decide +kernel
  have hstable : (duel.build.toOption.any fun g =>
      ({ start g with moves := VertexTable.ofList [2, 0, 2, 4, 0] }
        : Improvement).valuation.toOption.any fun t => !t.improve.2) = true := by
    decide +kernel
  simp only [hmade, Except.toOption, Option.any_some] at hedges hstable
  have hedges := of_decide_eq_true hedges
  have hstart := start_ready (.build hmade) htotal
  have hready : ({ start g with moves := VertexTable.ofList [2, 0, 2, 4, 0] }
      : Improvement).Ready :=
    { hstart with
      length_moves := hedges.1.symm
      move := fun v hv => hedges.2 v (Game.mem_vertices.2 hv) }
  obtain ⟨t, hrun, -, -, hsolves⟩ := stable_solves hready
  simp only [hrun, Option.any_some, Bool.not_eq_true'] at hstable
  exact ⟨g, hmade, t, hrun, hstable, (hsolves hstable).2.2⟩

end Improvement

end ParityGames
