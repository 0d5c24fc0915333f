import ParityGames.Proofs.GameFile.Assembled
import ParityGames.Proofs.GameFile.Reading
import ParityGames.Proofs.GameFile.Refused

/-! # Games that portray their files

The game of a file has the rows of the file as its vertices, in their order, with the owners and the
priorities of the rows. An edge leads from one vertex to another if the row of the one lists the id
of the other.
-/

namespace ParityGames

namespace GameFile

variable {file : GameFile} {f : FileGame}

structure Portrays (f : FileGame) (file : GameFile) (v : Nat) (row : GameRow) : Prop where
  owner : f.game.owner v = row.player
  priority : f.game.priority? v = some row.priority
  id : f.ids.toList[v]? = some row.id
  increasing : (f.game.successors v).Pairwise (· < ·)
  mem_successors : ∀ w, w ∈ f.game.successors v ↔
    ∃ id ∈ row.successors, file.declared[w]? = some id

/-- The game has a vertex for every row and no others, and starts where the file says. -/
structure Faithful (f : FileGame) (file : GameFile) : Prop where
  vertexCount : f.game.vertexCount = file.rows.length
  vertices : f.game.vertices = List.range file.rows.length
  portrays : ∀ v row, file.rows[v]? = some row → Portrays f file v row
  ids : f.ids.toList = file.declared
  start : f.start?.map (f.ids.toList[·]?) = file.start?.map some

theorem toGame_faithful (h : file.toGame = .ok f) : Faithful f file := by
  obtain ⟨known, drafts, hknown, hdrafts, hstart, hbuild, hids⟩ := toGame_spec h
  have hlocates : Locates known file.declared := vertexOfId_spec hknown
  have hlength : (VertexTable.ofList drafts).length = file.declared.length := by
    rw [VertexTable.length_ofList, declared, List.length_map, hdrafts.length_eq]
  have hrows : file.declared.length = file.rows.length := List.length_map _
  have htable : f.ids.toList = file.declared := by
    rw [hids, VertexTable.toList, VertexTable.ofList, List.toList_toArray, declared]
  obtain ⟨-, -, -, hcount, -⟩ := GameBuilder.build_spec hbuild
  refine {
    vertexCount := hcount.trans (hlength.trans hrows)
    vertices := by rw [GameBuilder.vertices_of_build hbuild, hlength, hrows]
    portrays := fun v row hrow => ?_
    ids := htable
    start := by rw [htable]; exact startVertex_spec hlocates hstart }
  have hplaces := places_of_drafts hlocates hdrafts hrow
  have hv : v < (VertexTable.ofList drafts).length :=
    (hlength.trans hrows).symm ▸ (List.getElem?_eq_some_iff.1 hrow).1
  have hactive : f.game.contains v = true := (GameBuilder.contains_of_build hbuild v).2 hv
  have hbuilt := (GameBuilder.row_eq_ok_iff.1 (GameBuilder.row_of_build hbuild hv)).1
  exact {
    owner := (GameBuilder.owner_of_build hbuild v).trans hplaces.owner
    priority := by
      rw [Game.priority?, if_pos hactive, GameBuilder.priorityOf_of_build hbuild v,
        hplaces.priority]
    id := by rw [htable, declared, List.getElem?_map, hrow, Option.map_some]
    increasing := ((toGame_reachable h).coherent.row_increasing v).filter _
    mem_successors := fun w => by
      rw [Game.mem_successors, hbuilt, Ranking.mem_distinct, hplaces.mem_targets,
        GameBuilder.contains_of_build hbuild, hlength, and_iff_left_of_imp]
      rintro ⟨successor, -, hplace⟩
      exact (List.getElem?_eq_some_iff.1 hplace).1 }

/-- A file is converted if it is legal, and then the game is what the file says; otherwise what is
wrong in the first place is reported. Calls of a builder come to the same, and none is at fault. -/
theorem conversion_faithful (file : GameFile) :
    file.assemble.run = .ok file.toGame ∧ ((∃ f, file.toGame = .ok f) ↔ file.Legal) ∧
      (∀ f, file.toGame = .ok f → Faithful f file) ∧
      ∀ e, file.toGame = .error e ↔ file.Refused e := by
  refine ⟨?_, exists_toGame_iff, fun _ => toGame_faithful, fun _ => toGame_eq_error_iff⟩
  rw [assemble_eq]
  rfl

/-- A start that is not declared, and a last row that repeats an id and is without successors. -/
def wreck : GameFile :=
  { ferry with start? := some 4, rows := ferry.rows ++ [⟨10, 2, .odd, [], none⟩] }

/-- The ferry is converted. Of all that is wrong with the wreck, the id is reported. -/
theorem conversion_faithful_ferry :
    (∃ f, ferry.toGame = .ok f ∧ Faithful f ferry ∧ f.game.successors 0 = [0, 1]) ∧
      wreck.toGame = .error (.duplicateId 10) := by
  have hlegal : ferry.Legal := {
    distinct := by decide
    known := by decide
    start := by
      intro id hid
      obtain rfl := Option.some.inj hid
      decide
    edges := by decide }
  have hrow : (ferry.toGame.toOption.any fun f => f.game.successors 0 = [0, 1]) = true := by
    decide +kernel
  have hplace : wreck.rows[2]? = some ⟨10, 2, .odd, [], none⟩ := rfl
  have hrefused : wreck.Refused (.duplicateId 10) := .duplicateId hplace (by decide) (by decide)
  obtain ⟨-, hsucceeds, hfaithful, -⟩ := conversion_faithful ferry
  obtain ⟨-, -, -, herror⟩ := conversion_faithful wreck
  obtain ⟨f, hf⟩ := hsucceeds.2 hlegal
  rw [hf] at hrow
  exact ⟨⟨f, hf, hfaithful f hf, by simpa [Except.toOption] using hrow⟩, (herror _).2 hrefused⟩

end GameFile

end ParityGames
