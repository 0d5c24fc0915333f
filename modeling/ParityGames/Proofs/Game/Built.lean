import ParityGames.Proofs.Game.Views

/-! # Built games

Building is refused for the first vertex without an edge or with an edge to a vertex that was not
added. Every vertex of a built game is active, and its row is never empty: so the game is total.
-/

namespace ParityGames

namespace GameBuilder

variable {b : GameBuilder} {g : Game}

theorem row_eq_ok_iff {count v : Nat} {targets sorted : List Nat} :
    row count v targets = .ok sorted ↔
      sorted = Ranking.distinct targets ∧ targets ≠ [] ∧ ∀ w ∈ targets, w < count := by
  have hempty : (Ranking.distinct targets).isEmpty = true ↔ targets = [] := by
    simp only [List.isEmpty_iff, List.eq_nil_iff_forall_not_mem, Ranking.mem_distinct]
  unfold row
  simp only
  split
  · rename_i hnil
    simp [hempty.1 hnil]
  · rename_i hsome
    split
    · rename_i w hfind
      have hw := List.mem_of_find?_eq_some hfind
      have hle : count ≤ w := by simpa using List.find?_some hfind
      simp only [reduceCtorEq, false_iff, not_and]
      intro _ _ hlt
      exact absurd (hlt w (Ranking.mem_distinct.1 hw)) (by omega)
    · rename_i hfind
      simp only [List.find?_eq_none, Ranking.mem_distinct, decide_eq_true_eq, Nat.not_le] at hfind
      simp only [Except.ok.injEq, ne_eq, mt hempty.2 (by simpa using hsome), not_false_eq_true,
        true_and]
      exact ⟨fun h => ⟨h.symm, hfind⟩, fun h => h.1.symm⟩

theorem row_eq_error_iff {count v : Nat} {targets : List Nat} {e : GameError} :
    row count v targets = .error e ↔ targets = [] ∧ e = .noSuccessors v ∨
      ∃ w ∈ targets, count ≤ w ∧ (∀ x ∈ targets, count ≤ x → w ≤ x) ∧
        e = .unknownVertex v w := by
  have hempty : (Ranking.distinct targets).isEmpty = true ↔ targets = [] := by
    simp only [List.isEmpty_iff, List.eq_nil_iff_forall_not_mem, Ranking.mem_distinct]
  unfold row
  simp only
  split
  · rename_i hnil
    simp [hempty.1 hnil, eq_comm]
  · rename_i hsome
    have hne : targets ≠ [] := mt hempty.2 (by simpa using hsome)
    split
    · rename_i w hfind
      -- in increasing order, the first target that was not added is the least
      obtain ⟨hw, before, after, hsplit, hbefore⟩ := List.find?_eq_some_iff_append.1 hfind
      have hincreasing := Ranking.distinct_increasing targets
      rw [hsplit] at hincreasing
      have hmem : ∀ x, x ∈ targets ↔ x ∈ before ∨ x = w ∨ x ∈ after := by
        intro x
        rw [← Ranking.mem_distinct, hsplit, List.mem_append, List.mem_cons]
      have hle : ∀ x ∈ targets, count ≤ x → w ≤ x := by
        intro x hx hcount
        rcases (hmem x).1 hx with hx | rfl | hx
        · have hlt := hbefore x hx
          simp only [Bool.not_eq_true', decide_eq_false_iff_not] at hlt
          exact absurd hcount hlt
        · exact Nat.le_refl x
        · exact Nat.le_of_lt
            ((List.pairwise_cons.1 (List.pairwise_append.1 hincreasing).2.1).1 x hx)
      have hwmem : w ∈ targets := (hmem w).2 (Or.inr (Or.inl rfl))
      have hcount : count ≤ w := by simpa using hw
      simp only [Except.error.injEq, hne, false_and, false_or]
      constructor
      · rintro rfl
        exact ⟨w, hwmem, hcount, hle, rfl⟩
      · rintro ⟨x, hx, hcountx, hlex, rfl⟩
        rw [Nat.le_antisymm (hle x hx hcountx) (hlex w hwmem hcount)]
    · rename_i hfind
      simp only [List.find?_eq_none, Ranking.mem_distinct, decide_eq_true_eq] at hfind
      simp only [reduceCtorEq, hne, false_and, false_or, false_iff, not_exists]
      rintro w ⟨hw, hcount, -⟩
      exact hfind w hw hcount

/-- The first vertex that is refused decides. -/
theorem build_eq_error_iff {e : GameError} :
    b.build = .error e ↔ ∃ v < b.drafts.length,
      (∀ u < v, ∃ sorted, row b.drafts.length u (b.drafts.getD u default).targets = .ok sorted) ∧
      row b.drafts.length v (b.drafts.getD v default).targets = .error e := by
  have hentry : ∀ v entry, b.drafts.entries[v]? = some entry ↔
      v < b.drafts.length ∧ entry = (v, b.drafts.getD v default) := by
    intro v entry
    simp only [VertexTable.entries_eq b.drafts default, List.getElem?_map, Option.map_eq_some_iff,
      List.getElem?_eq_some_iff, List.length_range, List.getElem_range, exists_prop]
    constructor
    · rintro ⟨_, ⟨hv, rfl⟩, rfl⟩
      exact ⟨hv, rfl⟩
    · rintro ⟨hv, rfl⟩
      exact ⟨v, ⟨hv, rfl⟩, rfl⟩
  have htake : ∀ v, b.drafts.entries.take v =
      (List.range (min v b.drafts.length)).map fun u => (u, b.drafts.getD u default) := by
    intro v
    rw [VertexTable.entries_eq b.drafts default, ← List.map_take, List.take_range]
  unfold build
  rw [bind_eq_error_iff]
  simp only [pure, Except.pure, reduceCtorEq, and_false, exists_false, or_false,
    mapM_eq_error_iff, hentry, htake, List.forall_mem_map, List.mem_range]
  constructor
  · rintro ⟨v, _, ⟨hv, rfl⟩, hbefore, herror⟩
    exact ⟨v, hv, fun u hu => hbefore u (by omega), herror⟩
  · rintro ⟨v, hv, hbefore, herror⟩
    exact ⟨v, _, ⟨hv, rfl⟩, fun u hu => hbefore u (by omega), herror⟩

theorem row_of_build (made : b.build = .ok g) {v : Nat} (hv : v < b.drafts.length) :
    row b.drafts.length v (b.drafts.getD v default).targets = .ok (g.row v) := by
  obtain ⟨rows, hrows, hg⟩ := bind_eq_ok_iff.1 made
  cases hg
  rw [VertexTable.entries_eq b.drafts default] at hrows
  have hforall := mapM_eq_ok hrows
  have hlt : v < rows.length := by
    rw [← hforall.length_eq, List.length_map, List.length_range]
    exact hv
  have hrow := hforall.get (by simpa using hv) hlt
  simp only [List.get_eq_getElem, List.getElem_map, List.getElem_range] at hrow
  rw [hrow, Game.row, VertexTable.getD_ofList, List.getElem?_eq_getElem hlt, Option.getD_some]

theorem owner_of_build (made : b.build = .ok g) (v : Nat) :
    g.owner v = (b.drafts.getD v default).owner := by
  obtain ⟨rows, -, hg⟩ := bind_eq_ok_iff.1 made
  cases hg
  exact VertexTable.getD_map Draft.owner b.drafts v default

theorem priorityOf_of_build (made : b.build = .ok g) (v : Nat) :
    g.priorityOf v = (b.drafts.getD v default).priority := by
  obtain ⟨rows, -, hg⟩ := bind_eq_ok_iff.1 made
  cases hg
  exact VertexTable.getD_map Draft.priority b.drafts v default

theorem contains_of_build (made : b.build = .ok g) (v : Nat) :
    g.contains v = true ↔ v < b.drafts.length := by
  obtain ⟨-, -, -, -, -, -, -, -, -, hactive⟩ := build_spec made
  rw [Game.contains, hactive]
  simp

theorem vertices_of_build (made : b.build = .ok g) :
    g.vertices = List.range b.drafts.length := by
  obtain ⟨-, -, -, -, -, -, -, -, -, hactive⟩ := build_spec made
  simp [Game.vertices, hactive, VertexSet.toList]

theorem isTotal_of_build (made : b.build = .ok g) : g.isTotal = true := by
  rw [Game.isTotal_iff]
  intro v hv
  obtain ⟨hrow, hne, hlt⟩ := row_eq_ok_iff.1 (row_of_build made ((contains_of_build made v).1 hv))
  obtain ⟨w, hw⟩ := List.exists_mem_of_ne_nil _ hne
  refine ⟨w, Game.mem_successors.2 ⟨?_, (contains_of_build made w).2 (hlt w hw)⟩⟩
  rw [hrow]
  exact Ranking.mem_distinct.2 hw

end GameBuilder

end ParityGames
