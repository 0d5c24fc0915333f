import ParityGames.Proofs.GameFile.Converted

/-! # Files that are refused

A file is converted if its ids are distinct, its successors and its start are declared, and no row
is without successors. Otherwise what comes first in this order is reported: the first id that was
declared before, the first successor that is not declared, the start, the first row without
successors.
-/

namespace ParityGames

namespace GameFile

variable {file : GameFile} {rows : List GameRow} {row : GameRow} {ids : List Nat} {made : Draft}
  {known : SortedMap Nat} {e : ConversionError}

def declared (file : GameFile) : List Nat := file.rows.map (·.id)

structure Legal (file : GameFile) : Prop where
  distinct : file.declared.Nodup
  known : ∀ row ∈ file.rows, ∀ successor ∈ row.successors, successor ∈ file.declared
  start : ∀ id, file.start? = some id → id ∈ file.declared
  edges : ∀ row ∈ file.rows, row.successors ≠ []

/-- What is wrong with the file in the first place. -/
inductive Refused (file : GameFile) : ConversionError → Prop
  | duplicateId {i : Nat} {row : GameRow} (place : file.rows[i]? = some row)
      (distinct : (file.declared.take i).Nodup) (repeated : row.id ∈ file.declared.take i) :
      Refused file (.duplicateId row.id)
  | unknownSuccessor {i k : Nat} {row : GameRow} {successor : Nat}
      (distinct : file.declared.Nodup) (place : file.rows[i]? = some row)
      (above : ∀ earlier ∈ file.rows.take i, ∀ id ∈ earlier.successors, id ∈ file.declared)
      (listed : row.successors[k]? = some successor)
      (before : ∀ id ∈ row.successors.take k, id ∈ file.declared)
      (undeclared : successor ∉ file.declared) :
      Refused file (.unknownSuccessor row.id successor)
  | unknownStart {id : Nat} (distinct : file.declared.Nodup)
      (known : ∀ row ∈ file.rows, ∀ successor ∈ row.successors, successor ∈ file.declared)
      (start : file.start? = some id) (undeclared : id ∉ file.declared) :
      Refused file (.unknownStart id)
  | noSuccessors {i : Nat} {row : GameRow} (distinct : file.declared.Nodup)
      (known : ∀ row ∈ file.rows, ∀ successor ∈ row.successors, successor ∈ file.declared)
      (start : ∀ id, file.start? = some id → id ∈ file.declared)
      (place : file.rows[i]? = some row)
      (above : ∀ earlier ∈ file.rows.take i, earlier.successors ≠ [])
      (none : row.successors = []) : Refused file (.game (.noSuccessors i))

theorem Refused.not_legal (h : Refused file e) : ¬ file.Legal := by
  intro hlegal
  cases h with
  | @duplicateId i row place distinct repeated =>
      have hlater : file.declared[i]? = some row.id := by simp [declared, place]
      obtain ⟨k, hk, hearlier⟩ := List.mem_take_iff_getElem.1 repeated
      have hlt : i < file.declared.length := (List.getElem?_eq_some_iff.1 hlater).1
      refine List.nodup_iff_getElem?_ne_getElem?.1 hlegal.distinct k i (by omega) hlt ?_
      rw [hlater, ← hearlier, List.getElem?_eq_getElem]
  | unknownSuccessor _ place _ listed _ undeclared =>
      exact undeclared (hlegal.known _ (List.mem_of_getElem? place) _ (List.mem_of_getElem? listed))
  | unknownStart _ _ start undeclared => exact undeclared (hlegal.start _ start)
  | noSuccessors _ _ _ place _ none => exact hlegal.edges _ (List.mem_of_getElem? place) none

/-! ## The stages of a conversion -/

theorem exists_vertexOfId (h : (rows.map (·.id)).Nodup) :
    ∃ known, vertexOfId rows = .ok known := by
  induction rows using List.reverseRecOn with
  | nil => exact ⟨_, rfl⟩
  | append_singleton rows row ih =>
      rw [List.map_append, List.map_singleton] at h
      obtain ⟨hrows, -, hnew⟩ := List.nodup_append.1 h
      obtain ⟨known, hknown⟩ := ih hrows
      have hnot : ¬ known.contains row.id = true := by
        rw [(vertexOfId_spec hknown).contains_iff]
        exact fun hmem => hnew row.id hmem row.id (List.mem_singleton_self _) rfl
      exact ⟨known.insert row.id rows.length, by rw [vertexOfId_concat, hknown, ok_bind, if_neg hnot]⟩

/-- The first id that was declared before is reported. -/
theorem vertexOfId_eq_error_iff : vertexOfId rows = .error e ↔ ∃ i row, rows[i]? = some row ∧
    ((rows.map (·.id)).take i).Nodup ∧ row.id ∈ (rows.map (·.id)).take i ∧
    e = .duplicateId row.id := by
  simp only [← List.map_take]
  induction rows using List.reverseRecOn with
  | nil =>
      constructor
      · intro h
        cases h
      · rintro ⟨i, row, hplace, -⟩
        simp at hplace
  | append_singleton rows last ih =>
      rw [vertexOfId_concat, bind_eq_error_iff, ih,
        exists_place_concat fun (earlier : List GameRow) (row : GameRow) =>
          (earlier.map (·.id)).Nodup ∧ row.id ∈ earlier.map (·.id) ∧ e = .duplicateId row.id]
      refine or_congr_right ⟨?_, ?_⟩
      · rintro ⟨known, hknown, hlast⟩
        have hlocates := vertexOfId_spec hknown
        split at hlast
        · rename_i hin
          cases hlast
          exact ⟨hlocates.nodup, (hlocates.contains_iff last.id).1 hin, rfl⟩
        · cases hlast
      · rintro ⟨hdistinct, hrepeated, rfl⟩
        obtain ⟨known, hknown⟩ := exists_vertexOfId hdistinct
        exact ⟨known, hknown, if_pos (((vertexOfId_spec hknown).contains_iff _).2 hrepeated)⟩

theorem target_eq_ok_iff (h : Locates known ids) {id successor v : Nat} :
    target known id successor = .ok v ↔ ids[v]? = some successor := by
  rw [← h.get?]
  unfold target
  cases known.get? successor <;> simp

theorem exists_target_iff (h : Locates known ids) {id successor : Nat} :
    (∃ v, target known id successor = .ok v) ↔ successor ∈ ids := by
  simp only [target_eq_ok_iff h, List.mem_iff_getElem?]

theorem target_eq_error_iff (h : Locates known ids) {id successor : Nat} :
    target known id successor = .error e ↔
      successor ∉ ids ∧ e = .unknownSuccessor id successor := by
  rw [← h.contains_iff, SortedMap.contains]
  unfold target
  cases known.get? successor <;> simp [eq_comm]

theorem exists_draft_iff (h : Locates known ids) {row : GameRow} :
    (∃ made, draft known row = .ok made) ↔ ∀ successor ∈ row.successors, successor ∈ ids := by
  have htarget : ∀ successor, (∃ v, target known row.id successor = .ok v) ↔ successor ∈ ids :=
    fun successor => exists_target_iff h
  simp only [← htarget, ← exists_mapM_iff]
  constructor
  · rintro ⟨made, hmade⟩
    obtain ⟨targets, htargets, -⟩ := bind_eq_ok_iff.1 hmade
    exact ⟨targets, htargets⟩
  · rintro ⟨targets, htargets⟩
    exact ⟨_, bind_eq_ok_iff.2 ⟨targets, htargets, rfl⟩⟩

/-- The first successor of the row that is not declared is reported. -/
theorem draft_eq_error_iff (h : Locates known ids) {row : GameRow} :
    draft known row = .error e ↔ ∃ k successor, row.successors[k]? = some successor ∧
      (∀ id ∈ row.successors.take k, id ∈ ids) ∧ successor ∉ ids ∧
      e = .unknownSuccessor row.id successor := by
  unfold draft
  rw [bind_eq_error_iff]
  simp only [pure, Except.pure, reduceCtorEq, and_false, exists_false, or_false,
    mapM_eq_error_iff, exists_target_iff h, target_eq_error_iff h]

theorem startVertex_eq_error_iff (h : Locates known ids) {id? : Option Nat} :
    startVertex known id? = .error e ↔ ∃ id, id? = some id ∧ id ∉ ids ∧ e = .unknownStart id := by
  cases id? with
  | none => simp [startVertex]
  | some id =>
      simp only [Option.some.injEq, exists_eq_left', ← h.contains_iff, SortedMap.contains]
      cases hv : known.get? id <;> simp [startVertex, hv, eq_comm]

theorem exists_startVertex_iff (h : Locates known ids) {id? : Option Nat} :
    (∃ start?, startVertex known id? = .ok start?) ↔ ∀ id, id? = some id → id ∈ ids := by
  cases id? with
  | none => simp [startVertex]
  | some id =>
      simp only [Option.some.injEq, forall_eq', ← h.contains_iff, SortedMap.contains]
      cases hv : known.get? id <;> simp [startVertex, hv]

/-! ## The vertices of a file -/

/-- The vertex of a row, with edges exactly to the vertices of the ids that the row lists. -/
structure Places (ids : List Nat) (row : GameRow) (made : Draft) : Prop where
  owner : made.owner = row.player
  priority : made.priority = row.priority
  length : made.targets.length = row.successors.length
  mem_targets : ∀ w, w ∈ made.targets ↔ ∃ successor ∈ row.successors, ids[w]? = some successor

theorem places_of_draft (h : Locates known ids) {row : GameRow} {made : Draft}
    (hmade : draft known row = .ok made) : Places ids row made := by
  obtain ⟨targets, htargets, hpure⟩ := bind_eq_ok_iff.1 hmade
  cases hpure
  exact {
    owner := rfl
    priority := rfl
    length := (mapM_eq_ok htargets).length_eq.symm
    mem_targets := fun w => by simp only [mem_mapM_iff htargets, target_eq_ok_iff h] }

theorem places_of_drafts (h : Locates known ids) {drafts : List Draft}
    (hdrafts : List.Forall₂ (fun row made => draft known row = .ok made) rows drafts) {v : Nat}
    (hrow : rows[v]? = some row) : Places ids row ((VertexTable.ofList drafts).getD v default) := by
  obtain ⟨hv, rfl⟩ := List.getElem?_eq_some_iff.1 hrow
  have hv' : v < drafts.length := hdrafts.length_eq ▸ hv
  rw [VertexTable.getD_ofList, List.getElem?_eq_getElem hv', Option.getD_some]
  exact places_of_draft h (hdrafts.get hv hv')

namespace Places

theorem targets_eq_nil_iff (h : Places ids row made) :
    made.targets = [] ↔ row.successors = [] := by
  rw [← List.length_eq_zero_iff, h.length, List.length_eq_zero_iff]

theorem target_lt (h : Places ids row made) {w : Nat} (hw : w ∈ made.targets) : w < ids.length := by
  obtain ⟨successor, -, hplace⟩ := (h.mem_targets w).1 hw
  exact (List.getElem?_eq_some_iff.1 hplace).1

theorem exists_row_iff (h : Places ids row made) (v : Nat) :
    (∃ sorted, GameBuilder.row ids.length v made.targets = .ok sorted) ↔ row.successors ≠ [] := by
  simp only [GameBuilder.row_eq_ok_iff, exists_eq_left, ne_eq, h.targets_eq_nil_iff]
  exact and_iff_left fun w => h.target_lt

/-- The builder can only object that a row is without successors. -/
theorem row_eq_error_iff (h : Places ids row made) {v : Nat} {cause : GameError} :
    GameBuilder.row ids.length v made.targets = .error cause ↔
      row.successors = [] ∧ cause = .noSuccessors v := by
  rw [GameBuilder.row_eq_error_iff, h.targets_eq_nil_iff]
  refine or_iff_left ?_
  rintro ⟨w, hw, hle, -⟩
  exact absurd (h.target_lt hw) (Nat.not_lt.2 hle)

end Places

theorem build_eq_error_iff (h : Locates known (rows.map (·.id))) {drafts : List Draft}
    (hdrafts : List.Forall₂ (fun row made => draft known row = .ok made) rows drafts)
    {cause : GameError} :
    (⟨VertexTable.ofList drafts⟩ : GameBuilder).build = .error cause ↔
      ∃ i row, rows[i]? = some row ∧ (∀ earlier ∈ rows.take i, earlier.successors ≠ []) ∧
        row.successors = [] ∧ cause = .noSuccessors i := by
  have hlength : (VertexTable.ofList drafts).length = (rows.map (·.id)).length := by
    rw [VertexTable.length_ofList, List.length_map, hdrafts.length_eq]
  have hplaces : ∀ {v row}, rows[v]? = some row → Places (rows.map (·.id)) row
      ((VertexTable.ofList drafts).getD v default) := places_of_drafts h hdrafts
  rw [GameBuilder.build_eq_error_iff, hlength]
  constructor
  · rintro ⟨v, hv, hbefore, herror⟩
    rw [List.length_map] at hv
    have hrow : rows[v]? = some rows[v] := List.getElem?_eq_getElem hv
    obtain ⟨hnone, rfl⟩ := (hplaces hrow).row_eq_error_iff.1 herror
    refine ⟨v, _, hrow, fun earlier hearlier => ?_, hnone, rfl⟩
    obtain ⟨u, hu, rfl⟩ := List.mem_take_iff_getElem.1 hearlier
    exact ((hplaces (List.getElem?_eq_getElem _)).exists_row_iff u).1 (hbefore u (by omega))
  · rintro ⟨i, row, hplace, habove, hnone, rfl⟩
    have hi := (List.getElem?_eq_some_iff.1 hplace).1
    refine ⟨i, by simpa using hi, fun u hu => ?_, (hplaces hplace).row_eq_error_iff.2 ⟨hnone, rfl⟩⟩
    have hlt : u < rows.length := Nat.lt_trans hu hi
    refine ((hplaces (List.getElem?_eq_getElem hlt)).exists_row_iff u).2 (habove _ ?_)
    exact List.mem_take_iff_getElem.2 ⟨u, by omega, rfl⟩

/-! ## The whole conversion -/

theorem toGame_eq_error_iff : file.toGame = .error e ↔ file.Refused e := by
  constructor
  · intro h
    -- Each stage either refuses the file or shows what the next one needs.
    unfold toGame at h
    rcases bind_eq_error_iff.1 h with h | ⟨known, hknown, h⟩
    · obtain ⟨i, row, hplace, hdistinct, hrepeated, rfl⟩ := vertexOfId_eq_error_iff.1 h
      exact .duplicateId hplace hdistinct hrepeated
    have hlocates := vertexOfId_spec hknown
    rcases bind_eq_error_iff.1 h with h | ⟨drafts, hdrafts, h⟩
    · obtain ⟨i, row, hplace, habove, hdraft⟩ := mapM_eq_error_iff.1 h
      obtain ⟨k, successor, hlisted, hbefore, hundeclared, rfl⟩ :=
        (draft_eq_error_iff hlocates).1 hdraft
      exact .unknownSuccessor hlocates.nodup hplace
        (fun earlier hearlier => (exists_draft_iff hlocates).1 (habove earlier hearlier))
        hlisted hbefore hundeclared
    have hdeclared : ∀ row ∈ file.rows, ∀ successor ∈ row.successors,
        successor ∈ file.declared := fun row hrow =>
      (exists_draft_iff hlocates).1 (exists_mapM_iff.1 ⟨drafts, hdrafts⟩ row hrow)
    rcases bind_eq_error_iff.1 h with h | ⟨start?, hstart, h⟩
    · obtain ⟨id, hid, hundeclared, rfl⟩ := (startVertex_eq_error_iff hlocates).1 h
      exact .unknownStart hlocates.nodup hdeclared hid hundeclared
    have hstarts := (exists_startVertex_iff hlocates).1 ⟨start?, hstart⟩
    split at h
    · cases h
    · rename_i cause hcause
      cases h
      obtain ⟨i, row, hplace, habove, hnone, rfl⟩ :=
        (build_eq_error_iff hlocates (mapM_eq_ok hdrafts)).1 hcause
      exact .noSuccessors hlocates.nodup hdeclared hstarts hplace habove hnone
  · intro h
    unfold toGame
    cases h with
    | duplicateId hplace hdistinct hrepeated =>
        rw [vertexOfId_eq_error_iff.2 ⟨_, _, hplace, hdistinct, hrepeated, rfl⟩, error_bind]
    | unknownSuccessor hdistinct hplace habove hlisted hbefore hundeclared =>
        obtain ⟨known, hknown⟩ := exists_vertexOfId hdistinct
        have hlocates := vertexOfId_spec hknown
        have hdraft := (draft_eq_error_iff hlocates).2 ⟨_, _, hlisted, hbefore, hundeclared, rfl⟩
        rw [hknown, ok_bind, mapM_eq_error_iff.2 ⟨_, _, hplace, fun earlier hearlier =>
          (exists_draft_iff hlocates).2 (habove earlier hearlier), hdraft⟩, error_bind]
    | unknownStart hdistinct hdeclared hstart hundeclared =>
        obtain ⟨known, hknown⟩ := exists_vertexOfId hdistinct
        have hlocates := vertexOfId_spec hknown
        obtain ⟨drafts, hdrafts⟩ := exists_mapM_iff.2 fun row hrow =>
          (exists_draft_iff hlocates).2 (hdeclared row hrow)
        rw [hknown, ok_bind, hdrafts, ok_bind,
          (startVertex_eq_error_iff hlocates).2 ⟨_, hstart, hundeclared, rfl⟩, error_bind]
    | noSuccessors hdistinct hdeclared hstart hplace habove hnone =>
        obtain ⟨known, hknown⟩ := exists_vertexOfId hdistinct
        have hlocates := vertexOfId_spec hknown
        obtain ⟨drafts, hdrafts⟩ := exists_mapM_iff.2 fun row hrow =>
          (exists_draft_iff hlocates).2 (hdeclared row hrow)
        obtain ⟨start?, hstart⟩ := (exists_startVertex_iff hlocates).2 hstart
        rw [hknown, ok_bind, hdrafts, ok_bind, hstart, ok_bind]
        simp only [(build_eq_error_iff hlocates (mapM_eq_ok hdrafts)).2 ⟨_, _, hplace, habove, hnone, rfl⟩]
        rfl

theorem exists_toGame_iff : (∃ f, file.toGame = .ok f) ↔ file.Legal := by
  constructor
  · rintro ⟨f, h⟩
    obtain ⟨known, drafts, hknown, hdrafts, hstart, hbuild, -⟩ := toGame_spec h
    have hlocates := vertexOfId_spec hknown
    have hrows : ∀ row ∈ file.rows, row.successors ≠ [] ∧
        ∀ successor ∈ row.successors, successor ∈ file.declared := by
      intro row hrow
      obtain ⟨v, hv, rfl⟩ := List.getElem_of_mem hrow
      have hv' : v < drafts.length := hdrafts.length_eq ▸ hv
      have hplaces := places_of_drafts hlocates hdrafts (List.getElem?_eq_getElem hv)
      have hbuilt := GameBuilder.row_of_build hbuild (v := v) (by simpa using hv')
      rw [VertexTable.length_ofList, ← hdrafts.length_eq, ← List.length_map (·.id)] at hbuilt
      exact ⟨(hplaces.exists_row_iff v).1 ⟨_, hbuilt⟩,
        (exists_draft_iff hlocates).1 ⟨_, hdrafts.get hv hv'⟩⟩
    exact {
      distinct := hlocates.nodup
      known := fun row hrow => (hrows row hrow).2
      start := (exists_startVertex_iff hlocates).1 ⟨_, hstart⟩
      edges := fun row hrow => (hrows row hrow).1 }
  · intro hlegal
    cases h : file.toGame with
    | ok f => exact ⟨f, rfl⟩
    | error e => exact absurd hlegal (toGame_eq_error_iff.1 h).not_legal

end GameFile

end ParityGames
