import ParityGames.Solution.Check
import ParityGames.Solution.Winning
import ParityGames.Proofs.Game.Views
import ParityGames.Proofs.Data.Checked

/-! # Solutions that fit their game

The regions of a solution that shares out a game list its vertices between them. Every part of the
check is silent exactly if its condition holds, so a solution that fits passes.
-/

namespace ParityGames

theorem Game.locate_eq_ok_iff {g : Game} {v u : Nat} :
    g.locate v = .ok u ↔ v < g.vertexCount ∧ v = u := by
  unfold locate
  by_cases hlt : v < g.vertexCount <;> simp [hlt]

namespace Solution

variable {s : Solution} {g : Game} {t : Territory} {p : Player}

/-! ## Sharing out -/

theorem Shares.perm_vertices (h : s.Shares g) :
    ((s.region .even).toList ++ (s.region .odd).toList).Perm g.vertices := by
  have hdisjoint : ∀ v ∈ (s.region .even).toList, ∀ w ∈ (s.region .odd).toList, v ≠ w := by
    intro v hv w hw heq
    rw [heq] at hv
    exact (h w).2 ⟨VertexSet.mem_toList.1 hv, VertexSet.mem_toList.1 hw⟩
  have hnodup : ((s.region .even).toList ++ (s.region .odd).toList).Nodup :=
    List.nodup_append.2 ⟨VertexSet.nodup_toList _, VertexSet.nodup_toList _, hdisjoint⟩
  refine (List.perm_ext_iff_of_nodup hnodup g.active.nodup_toList).2 fun v => ?_
  rw [List.mem_append, VertexSet.mem_toList, VertexSet.mem_toList, VertexSet.mem_toList]
  exact (h v).1

theorem Shares.exists_winner (h : s.Shares g) {v : Nat} (hv : g.contains v = true) :
    ∃ p, s.winner? v = some p ∧ (s.region p).contains v = true := by
  unfold winner? Player.both
  rcases (h v).1.2 hv with heven | hodd
  · exact ⟨.even, by simp [heven], heven⟩
  · have heven : (s.region .even).contains v = false :=
      Bool.eq_false_iff.2 fun heven => (h v).2 ⟨heven, hodd⟩
    exact ⟨.odd, by simp [heven, hodd], hodd⟩

/-! ## Checking -/

theorem sharingFlaw?_eq_none_iff : s.sharingFlaw? g = none ↔
    ∀ v, g.contains v = true →
      ((s.region .even).contains v = true ∨ (s.region .odd).contains v = true) ∧
        ¬ ((s.region .even).contains v = true ∧ (s.region .odd).contains v = true) := by
  rw [sharingFlaw?, List.findSome?_eq_none_iff]
  refine forall_congr' fun v => ?_
  rw [Game.mem_vertices]
  refine imp_congr_right fun _ => ?_
  cases (s.region .even).contains v <;> cases (s.region .odd).contains v <;> simp

theorem inactiveFlaw?_eq_none_iff : inactiveFlaw? t g = none ↔
    ∀ v, t.region.contains v = true → g.contains v = true := by
  simp [inactiveFlaw?]

theorem moveFlawAt?_eq_none_iff {v : Nat} : moveFlawAt? t g p v = none ↔
    ∃ w, t.moves.get? v = some w ∧ w ∈ g.successors v ∧ t.region.contains w = true := by
  unfold moveFlawAt?
  cases t.moves.get? v with
  | none => simp
  | some w =>
      by_cases hedge : w ∈ g.successors v <;> cases hin : t.region.contains w <;>
        simp [hedge, hin]

theorem moveFlaw?_eq_none_iff : moveFlaw? t g p = none ↔
    ∀ v, t.region.contains v = true → g.owner v = p →
      ∃ w, t.moves.get? v = some w ∧ w ∈ g.successors v ∧ t.region.contains w = true := by
  simp only [moveFlaw?, List.findSome?_eq_none_iff, List.mem_filter, VertexSet.mem_toList,
    decide_eq_true_eq, moveFlawAt?_eq_none_iff, and_imp]

theorem strayMove?_eq_none_iff {vertices : List Nat} : strayMove? t g p vertices = .ok none ↔
    ∀ v ∈ vertices, v < g.vertexCount ∧ g.owner v = p ∧ t.region.contains v = true := by
  induction vertices with
  | nil => simp [strayMove?]
  | cons v rest ih =>
      rw [List.forall_mem_cons, ← ih, strayMove?, bind_eq_ok_iff]
      simp only [Game.locate_eq_ok_iff]
      by_cases howner : g.owner v = p
      · cases hin : t.region.contains v with
        | false => simp [howner, hin, pure, Except.pure]
        | true => simp [howner, hin]
      · simp [howner, pure, Except.pure]

theorem MoveOrder.mem_iff (order : s.MoveOrder) {v : Nat} :
    v ∈ order.keys p ↔ v ∈ (s.moves p).keys := (order.perm p).mem_iff

/-- A solution that fits a coherent game passes, in whatever order its moves come. -/
theorem Fits.checkIn (h : s.Fits g) (hg : g.Coherent) (order : s.MoveOrder) :
    s.checkIn order g = .ok none := by
  have hsharing : s.sharingFlaw? g = none := by
    rw [sharingFlaw?_eq_none_iff]
    exact fun v hv => ⟨(h.shares v).1.2 hv, (h.shares v).2⟩
  have hterritory : ∀ p, s.territoryFlaw? g p (order.keys p) = .ok none := by
    intro p
    have hsound := h.sound p
    have hinactive : inactiveFlaw? (s.of p) g = none :=
      inactiveFlaw?_eq_none_iff.2 hsound.active
    have hmove : moveFlaw? (s.of p) g p = none := by
      rw [moveFlaw?_eq_none_iff]
      intro v hv howner
      obtain ⟨w, hw⟩ := (hsound.hasMove v).2 ⟨hv, howner⟩
      exact ⟨w, hw, hsound.stays v w hw⟩
    have hstray : strayMove? (s.of p) g p (order.keys p) = .ok none := by
      rw [strayMove?_eq_none_iff]
      intro v hv
      have hmoves := SortedMap.mem_keys_iff.1 (order.mem_iff.1 hv)
      obtain ⟨hin, howner⟩ := (hsound.hasMove v).1 (Option.isSome_iff_exists.1 hmoves)
      exact ⟨hg.contains_lt (hsound.active v hin), howner, hin⟩
    simp only [territoryFlaw?, hinactive, hmove, hstray]
    rfl
  simp only [Solution.checkIn, hsharing, hterritory]
  rfl

theorem Solves.fits (h : s.Solves g) : s.Fits g := ⟨h.shares, fun p => (h.winning p).toSound⟩

end Solution

end ParityGames
