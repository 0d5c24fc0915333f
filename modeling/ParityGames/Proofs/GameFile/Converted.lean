import ParityGames.GameFile.Conversion
import ParityGames.Proofs.Game.Built
import Mathlib.Data.List.Induction

/-! # Games made of files

The game of a file has one vertex for every row, numbered in the order of the rows. Since no id is
declared twice, a vertex is known by the id of its row.
-/

namespace ParityGames

namespace GameFile

variable {rows : List GameRow} {ids : List Nat} {known : SortedMap Nat} {file : GameFile}
  {f : FileGame}

/-! ## The table of the ids -/

/-- The table knows the place of every id, and there is only one. -/
structure Locates (known : SortedMap Nat) (ids : List Nat) : Prop where
  nodup : ids.Nodup
  get? : ∀ id v, known.get? id = some v ↔ ids[v]? = some id

namespace Locates

theorem empty : Locates SortedMap.empty [] := ⟨List.nodup_nil, fun id v => by simp⟩

theorem contains_iff (h : Locates known ids) (id : Nat) : known.contains id = true ↔ id ∈ ids := by
  rw [SortedMap.contains, Option.isSome_iff_exists, List.mem_iff_getElem?]
  exact exists_congr fun v => h.get? id v

theorem concat (h : Locates known ids) {id : Nat} (hnew : id ∉ ids) :
    Locates (known.insert id ids.length) (ids ++ [id]) where
  nodup := by
    rw [List.nodup_append]
    refine ⟨h.nodup, by simp, fun a ha b hb => ?_⟩
    rw [List.mem_singleton.1 hb]
    exact fun heq => hnew (heq ▸ ha)
  get? := by
    intro k v
    have hnone : known.get? id ≠ some v := fun hsome =>
      hnew (List.mem_of_getElem? ((h.get? id v).1 hsome))
    rw [SortedMap.get?_insert]
    rcases Nat.lt_trichotomy v ids.length with hv | rfl | hv
    · rw [List.getElem?_append_left hv, ← h.get? k v]
      by_cases hk : k = id
      · rw [if_pos hk, hk]
        simp only [Option.some.injEq, hnone, iff_false]
        omega
      · rw [if_neg hk]
    · rw [List.getElem?_concat_length]
      by_cases hk : k = id
      · simp [hk]
      · have hout : known.get? k ≠ some ids.length := by simp [h.get?]
        simp [hk, hout, Ne.symm hk]
    · have hout : known.get? k ≠ some v := by
        rw [ne_eq, h.get?, List.getElem?_eq_none (Nat.le_of_lt hv)]
        simp
      rw [List.getElem?_eq_none (by simpa using Nat.succ_le_of_lt hv)]
      by_cases hk : k = id
      · simp only [if_pos hk, Option.some.injEq, reduceCtorEq, iff_false]
        omega
      · simp [hk, hout]

end Locates

theorem vertexOfId_concat (rows : List GameRow) (row : GameRow) :
    vertexOfId (rows ++ [row]) = (vertexOfId rows >>= fun known =>
      if known.contains row.id then .error (.duplicateId row.id)
      else .ok (known.insert row.id rows.length)) := by
  simp only [vertexOfId, List.zipIdx_append, List.foldlM_append, List.zipIdx_singleton,
    List.foldlM_cons, List.foldlM_nil, Nat.zero_add, bind_pure]

theorem vertexOfId_spec (h : vertexOfId rows = .ok known) : Locates known (rows.map (·.id)) := by
  induction rows using List.reverseRecOn generalizing known with
  | nil =>
      cases h
      exact .empty
  | append_singleton rows row ih =>
      rw [vertexOfId_concat] at h
      obtain ⟨before, hbefore, h⟩ := bind_eq_ok_iff.1 h
      have hlocates := ih hbefore
      split at h
      · cases h
      · rename_i hnew
        cases h
        have hconcat := hlocates.concat (mt (hlocates.contains_iff row.id).2 hnew)
        rwa [List.length_map, ← List.map_singleton, ← List.map_append] at hconcat

/-! ## The game -/

/-- The stages of a conversion that comes through. -/
theorem toGame_spec (h : file.toGame = .ok f) : ∃ known drafts, vertexOfId file.rows = .ok known ∧
    List.Forall₂ (fun row made => draft known row = .ok made) file.rows drafts ∧
    startVertex known file.start? = .ok f.start? ∧
    (⟨VertexTable.ofList drafts⟩ : GameBuilder).build = .ok f.game ∧
    f.ids = VertexTable.ofList (file.rows.map (·.id)) := by
  unfold toGame at h
  obtain ⟨known, hknown, h⟩ := bind_eq_ok_iff.1 h
  obtain ⟨drafts, hdrafts, h⟩ := bind_eq_ok_iff.1 h
  obtain ⟨start?, hstart, h⟩ := bind_eq_ok_iff.1 h
  split at h
  · rename_i game hbuild
    cases h
    exact ⟨known, drafts, hknown, mapM_eq_ok hdrafts, hstart, hbuild, rfl⟩
  · cases h

theorem startVertex_spec (h : Locates known ids) {id? v? : Option Nat}
    (hstart : startVertex known id? = .ok v?) : v?.map (ids[·]?) = id?.map some := by
  cases id? with
  | none =>
      cases hstart
      rfl
  | some id =>
      unfold startVertex at hstart
      simp only at hstart
      split at hstart
      · rename_i v hv
        cases hstart
        rw [Option.map_some, (h.get? id v).1 hv, Option.map_some]
      · cases hstart

/-- Every row has a vertex, known by the id of the row, and every vertex is active. -/
structure Names (f : FileGame) (file : GameFile) : Prop where
  nodup : (file.rows.map (·.id)).Nodup
  ids : f.game.vertices.map f.idOf = file.rows.map (·.id)
  start : f.start?.map f.idOf = file.start?
  start_active : ∀ v, f.start? = some v → f.game.contains v = true

theorem toGame_names (h : file.toGame = .ok f) : Names f file := by
  obtain ⟨known, drafts, hknown, hdrafts, hstart, hbuild, hids⟩ := toGame_spec h
  have hlocates := vertexOfId_spec hknown
  have hvertices : f.game.vertices = List.range (file.rows.map (·.id)).length := by
    rw [GameBuilder.vertices_of_build hbuild, VertexTable.length_ofList, List.length_map,
      hdrafts.length_eq]
  have hidOf : ∀ v, f.idOf v = (file.rows.map (·.id))[v]?.getD 0 := by
    intro v
    rw [FileGame.idOf, hids, VertexTable.getD_ofList]
  have hstart := startVertex_spec hlocates hstart
  refine ⟨hlocates.nodup, ?_, ?_, fun v hv => ?_⟩
  · rw [hvertices]
    refine List.ext_getElem (by simp) fun v hv hv' => ?_
    rw [List.getElem_map, List.getElem_range, hidOf, List.getElem?_eq_getElem hv',
      Option.getD_some]
  · cases hv : f.start? with
    | none =>
        rw [hv, Option.map_none] at hstart
        exact (Option.map_eq_none_iff.1 hstart.symm).symm
    | some v =>
        rw [hv, Option.map_some] at hstart
        obtain ⟨id, hid, hplace⟩ := Option.map_eq_some_iff.1 hstart.symm
        rw [hid, Option.map_some, hidOf, ← hplace, Option.getD_some]
  · rw [hv, Option.map_some] at hstart
    obtain ⟨id, -, hplace⟩ := Option.map_eq_some_iff.1 hstart.symm
    have hlt := (List.getElem?_eq_some_iff.1 hplace.symm).1
    rw [← Game.mem_vertices, hvertices]
    exact List.mem_range.2 hlt

theorem toGame_reachable (h : file.toGame = .ok f) : f.game.Reachable := by
  obtain ⟨_, _, -, -, -, hbuild, -⟩ := toGame_spec h
  exact .build hbuild

theorem toGame_total (h : file.toGame = .ok f) : f.game.isTotal = true := by
  obtain ⟨_, _, -, -, -, hbuild, -⟩ := toGame_spec h
  exact GameBuilder.isTotal_of_build hbuild

end GameFile

end ParityGames
