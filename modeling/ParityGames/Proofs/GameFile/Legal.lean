import ParityGames.Proofs.GameFile.Accepted
import ParityGames.Proofs.GameFile.Assembled
import ParityGames.Proofs.GameFile.Refused
import ParityGames.Proofs.Solver.Endings

/-! # Games of files are legal

A row that was read names a successor, and a successor that is known has a row. So the builder has
nothing to object to, and the game of a file is total, with every vertex active. It stays total when
attractors are taken out of it, one after the other.
-/

namespace ParityGames

variable {g rest : Game} {p : Player}

namespace GameFile

variable {file : GameFile} {f : FileGame}

/-- If every row names a successor, the builder has nothing to object to. -/
theorem toGame_ne_game (h : ∀ row ∈ file.rows, row.successors ≠ []) (cause : GameError) :
    file.toGame ≠ .error (.game cause) := by
  intro herror
  cases toGame_eq_error_iff.1 herror with
  | noSuccessors _ _ _ hplace _ hnone => exact h _ (List.mem_of_getElem? hplace) hnone

theorem toGame_whole (h : file.toGame = .ok f) :
    (∀ v, f.game.contains v = true ↔ v < f.game.vertexCount) ∧
      f.ids.length = f.game.vertexCount ∧ f.ids.toList.Nodup := by
  obtain ⟨known, drafts, hknown, hdrafts, -, hbuild, hids⟩ := toGame_spec h
  obtain ⟨-, -, -, hcount, -⟩ := GameBuilder.build_spec hbuild
  rw [VertexTable.length_ofList] at hcount
  refine ⟨fun v => ?_, ?_, ?_⟩
  · rw [GameBuilder.contains_of_build hbuild, VertexTable.length_ofList, hcount]
  · rw [hids, VertexTable.length_ofList, List.length_map, hcount, hdrafts.length_eq]
  · rw [hids]
    exact (vertexOfId_spec hknown).nodup

end GameFile

/-! ## What is left of a game -/

/-- What is left of a game when attractors are taken out of it, each of them made in what was left
before. -/
inductive Game.Leaves (g : Game) : Game → Prop
  | whole : Leaves g g
  | without {rest : Game} {p : Player} {targets : List Nat} {t : Territory} (hrest : Leaves g rest)
      (made : attractor rest p targets = .ok t) : Leaves g (rest.difference t.region)

theorem Game.Leaves.legal (h : g.Leaves rest) (hg : g.Reachable) (htotal : g.isTotal = true) :
    rest.Reachable ∧ rest.isTotal = true := by
  induction h with
  | whole => exact ⟨hg, htotal⟩
  | @without rest p targets t _ made ih =>
      obtain ⟨hreach, hrest⟩ := ih
      have ht := isAttractor_of_attractor hreach.coherent made
      obtain ⟨-, hof, hcontains⟩ := Game.difference_spec hreach.coherent t.region
      exact ⟨.difference t.region hreach, ht.total_rest hof hcontains hrest⟩

namespace GameFile

/-- A text that is read is never refused by the builder, and assembling its game no call is at
fault. The game has its vertices active, an own id for each of them, and a successor for each of
them, also in what attractors leave of it, so that no solver finds a dead end there. -/
theorem read_legal {text : String} {file : GameFile} (hread : GameFile.read text = .ok file) :
    file.assemble.run = .ok file.toGame ∧ (∀ cause, file.toGame ≠ .error (.game cause)) ∧
    ∀ f, file.toGame = .ok f →
      (∀ v, f.game.contains v = true ↔ v < f.game.vertexCount) ∧ f.game.isTotal = true ∧
      f.ids.length = f.game.vertexCount ∧ f.ids.toList.Nodup ∧
      ∀ rest, f.game.Leaves rest →
        rest.isTotal = true ∧ (∀ p targets, ∃ t, attractor rest p targets = .ok t) ∧
        ∀ (solver : Solver) raised method,
          ((solver.run rest).report raised).1 ≠ .error (.fault (.notTotal method)) := by
  have hrows := (accepted_written hread).1.row
  have hassembled : file.assemble.run = .ok file.toGame := by
    rw [assemble_eq]
    rfl
  refine ⟨hassembled, toGame_ne_game fun row hrow => (hrows row hrow).successors_ne_nil,
    fun f hgame => ?_⟩
  have htotal := toGame_total hgame
  obtain ⟨hactive, hlength, hnodup⟩ := toGame_whole hgame
  refine ⟨hactive, htotal, hlength, hnodup, fun rest hleaves => ?_⟩
  obtain ⟨hreach, hrest⟩ := hleaves.legal (toGame_reachable hgame) htotal
  refine ⟨hrest, fun p targets => ?_, fun solver => solver.report_ne_notTotal hreach hrest⟩
  obtain ⟨t, made, -⟩ := attractor_spec hreach.coherent p targets
  exact ⟨t, made⟩

/-- One vertex of the ferry is taken out, and the other one keeps its loop. -/
theorem read_legal_ferry : GameFile.read ferryText = .ok ferry ∧
    ∃ f, ferry.toGame = .ok f ∧ f.ids.toList = [7, 10] ∧
      ∃ t, attractor f.game .even [1] = .ok t ∧ t.region.toList = [1] ∧
        (f.game.difference t.region).isTotal = true ∧ ∀ raised method,
          ((Solver.zielonka.run (f.game.difference t.region)).report raised).1 ≠
            .error (.fault (.notTotal method)) := by
  have hread : GameFile.read ferryText = .ok ferry := by decide +kernel
  have hshape : (ferry.toGame.toOption.any fun f => decide (f.ids.toList = [7, 10]) &&
      (attractor f.game .even [1]).toOption.any fun t => t.region.toList = [1]) = true := by
    decide +kernel
  obtain ⟨-, -, hlegal⟩ := read_legal hread
  cases hgame : ferry.toGame with
  | error e =>
      rw [hgame] at hshape
      cases hshape
  | ok f =>
      obtain ⟨-, -, -, -, hleaves⟩ := hlegal f hgame
      obtain ⟨-, hattractor, -⟩ := hleaves f.game .whole
      obtain ⟨t, made⟩ := hattractor .even [1]
      obtain ⟨hrest, -, hsolver⟩ := hleaves _ (.without .whole made)
      simp only [hgame, made, Except.toOption, Option.any_some, Bool.and_eq_true,
        decide_eq_true_eq] at hshape
      exact ⟨hread, f, rfl, hshape.1, t, made, hshape.2, hrest, hsolver .zielonka⟩

end GameFile

end ParityGames
