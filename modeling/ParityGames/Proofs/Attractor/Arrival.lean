import ParityGames.Proofs.Attractor.Least
import Mathlib.Data.Finset.Card
import Mathlib.Data.List.Nodup

/-! # Plays into the target of an attractor

A game need not be total, so a play may end. One that starts in the region of an attractor and
follows the moves does not end before it is in the target, and it is there after at most as many
steps as vertices joined the region besides the targets: every step comes to a vertex that joined
earlier.
-/

namespace ParityGames

namespace Game

variable {g : Game} {p : Player} {target region : Set Nat} {move : Nat → Option Nat}
  {rank : Nat → Nat}

/-- A play in which the player keeps to its moves, step by step. It ends only at a vertex from which
there is no step. -/
structure Runs (g : Game) (p : Player) (move : Nat → Option Nat) (play : Nat → Option Nat) :
    Prop where
  step : ∀ i u v, play i = some u → play (i + 1) = some v → g.Step p move u v
  goes_on : ∀ i u v, play i = some u → g.Step p move u v → ∃ w, play (i + 1) = some w

namespace Attracts

theorem exists_step (h : g.Attracts p target region move rank) {u : Nat} (hu : u ∈ region)
    (hnot : u ∉ target) (hedge : ∃ w, w ∈ g.successors u) : ∃ v, g.Step p move u v := by
  by_cases howner : g.owner u = p
  · obtain ⟨w, -, hmove, hstep, -⟩ := h.own u hu hnot howner
    exact ⟨w, hstep, fun _ x hx => Option.some.inj (hmove.symm.trans hx)⟩
  · obtain ⟨w, hw⟩ := hedge
    exact ⟨w, hw, fun heq => absurd heq howner⟩

/-- The rank of a vertex bounds the number of steps from it to the target, and no vertex on the way
is outside of the region. -/
theorem arrives (h : g.Attracts p target region move rank)
    (hedge : ∀ v ∈ region, v ∉ target → ∃ w, w ∈ g.successors v) {play : Nat → Option Nat}
    (hplay : g.Runs p move play) {i u : Nat} (hi : play i = some u) (hu : u ∈ region) :
    ∃ k w, k ≤ rank u ∧ play (i + k) = some w ∧ w ∈ target ∧
      ∀ j ≤ k, ∃ x ∈ region, play (i + j) = some x := by
  induction hr : rank u using Nat.strong_induction_on generalizing i u with
  | _ r ih =>
      subst hr
      by_cases hin : u ∈ target
      · refine ⟨0, u, Nat.zero_le _, hi, hin, fun j hj => ⟨u, hu, ?_⟩⟩
        rw [Nat.le_zero.1 hj]
        exact hi
      · obtain ⟨v, hv⟩ := h.exists_step hu hin (hedge u hu hin)
        obtain ⟨v, hnext⟩ := hplay.goes_on i u v hi hv
        obtain ⟨hmem, hlt⟩ := h.step hu hin (hplay.step i u v hi hnext)
        obtain ⟨k, w, hk, hw, htarget, hstays⟩ := ih (rank v) hlt hnext hmem rfl
        refine ⟨k + 1, w, by omega, ?_, htarget, fun j hj => ?_⟩
        · rwa [Nat.add_right_comm, Nat.add_assoc] at hw
        · cases j with
          | zero => exact ⟨u, hu, hi⟩
          | succ j =>
              obtain ⟨x, hx, hat⟩ := hstays j (by omega)
              exact ⟨x, hx, by rwa [Nat.add_right_comm, Nat.add_assoc] at hat⟩

end Attracts

end Game

variable {g : Game}

theorem Attractor.size_start (hg : g.Coherent) (targets : List Nat) :
    (start g targets).region.size = (targets.filter g.contains).toFinset.card := by
  obtain ⟨-, -, -, hnodup, hregion, hpending⟩ := start_spec hg targets
  have hperm : (start g targets).region.toList.Perm (start g targets).pending := by
    rw [List.perm_ext_iff_of_nodup (VertexSet.nodup_toList _) hnodup]
    intro v
    rw [VertexSet.mem_toList, hregion]
  have hsame : (targets.filter g.contains).toFinset = (start g targets).pending.toFinset := by
    ext v
    rw [List.mem_toFinset, List.mem_toFinset, hpending]
  rw [VertexSet.size_eq_length_toList, hperm.length_eq, hsame, List.toFinset_card_of_nodup hnodup]

/-- The attractor comes through in every game. Its player has a move exactly at its own vertices of
the region that are no active targets, along an edge into the region. A play that starts in the
region and follows the moves is in an active target after at most as many steps as the region has
other vertices, and neither leaves the region nor ends before. -/
theorem attractor_moves_arrive (hg : g.Reachable) (p : Player) (targets : List Nat) :
    ∃ t, attractor g p targets = .ok t ∧
      (∀ v, (∃ w, t.moves.get? v = some w) ↔
        t.region.contains v = true ∧ g.owner v = p ∧ v ∉ targets.filter g.contains) ∧
      (∀ v w, t.moves.get? v = some w → g.Edge v w ∧ t.region.contains w = true) ∧
      ∀ play v, g.Runs p t.moves.get? play → play 0 = some v → t.region.contains v = true →
        ∃ k w, k + (targets.filter g.contains).toFinset.card ≤ t.region.size ∧
          play k = some w ∧ w ∈ targets.filter g.contains ∧
          ∀ j ≤ k, ∃ x, play j = some x ∧ t.region.contains x = true := by
  obtain ⟨s, done, hmade, -, h⟩ := attractor_ok hg.coherent p targets
  obtain ⟨rank, hrank, hbound⟩ := h.attracts
  have hedge : ∀ v ∈ s.area, v ∉ {v | v ∈ targets ∧ g.contains v = true} →
      ∃ w, w ∈ g.successors v := by
    intro v hv hnot
    exact edge_of_attractor hg.coherent hmade hv fun hin => hnot ⟨hin, hrank.active v hv⟩
  refine ⟨_, hmade, fun v => ?_, fun v w hmove => ?_, fun play v hplay hstart hv => ?_⟩
  · rw [h.hasMove, List.mem_filter, and_comm (a := v ∉ _)]
    rfl
  · obtain ⟨hv, hnot, howner⟩ := (h.hasMove v).1 ⟨w, hmove⟩
    obtain ⟨x, hx, hmove', hstep, -⟩ := hrank.own v hv hnot howner
    obtain rfl : w = x := Option.some.inj (hmove.symm.trans hmove')
    exact ⟨⟨hrank.active v hv, hstep⟩, hx⟩
  · obtain ⟨k, w, hk, hw, htarget, hstays⟩ := hrank.arrives hedge hplay hstart hv
    have hle := hbound v hv
    simp only [Nat.zero_add] at hw hstays
    refine ⟨k, w, ?_, hw, List.mem_filter.2 htarget, fun j hj => ?_⟩
    · rw [← Attractor.size_start hg.coherent]
      exact Nat.le_trans (Nat.add_le_add_right hk _) hle
    · obtain ⟨x, hx, hat⟩ := hstays j hj
      exact ⟨x, hat, hx⟩

/-- In what is left of a duel, the play from `4` to the dead end `0` ends in the target, after the
one step that is allowed for. -/
theorem attractor_moves_arrive_duel : ∃ g, duel.build = .ok g ∧
    ∃ part, g.difference (VertexSet.ofList 5 [1, 2]) = part ∧ part.successors 0 = [] ∧
      ∃ t, attractor part .even [0, 2, 9, 0] = .ok t ∧ t.region.toList = [0, 4] ∧
        part.Runs .even t.moves.get? (fun i => [4, 0][i]?) ∧
        ∃ k w, k + ([0, 2, 9, 0].filter part.contains).toFinset.card ≤ t.region.size ∧
          [4, 0][k]? = some w ∧ w ∈ [0, 2, 9, 0].filter part.contains := by
  obtain ⟨g, hmade, -, -⟩ := duel_total
  have hrun : (duel.build.toOption.any fun g =>
      let part := g.difference (VertexSet.ofList 5 [1, 2])
      decide (part.successors 0 = []) && decide (0 ∈ part.successors 4) &&
        (attractor part .even [0, 2, 9, 0]).toOption.any fun t =>
          decide (t.region.toList = [0, 4]) && decide (t.moves.get? 4 = some 0)) = true := by
    decide +kernel
  obtain ⟨t, ht, -, -, hplays⟩ := attractor_moves_arrive
    (.difference (VertexSet.ofList 5 [1, 2]) (.build hmade)) .even [0, 2, 9, 0]
  simp only [hmade, Except.toOption, Option.any_some, ht, Bool.and_eq_true, decide_eq_true_eq]
    at hrun
  obtain ⟨⟨hend, hedge⟩, hregion, hmove⟩ := hrun
  have hruns : (g.difference (VertexSet.ofList 5 [1, 2])).Runs .even t.moves.get?
      fun i => [4, 0][i]? := by
    constructor
    · intro i u v hu hv
      cases i with
      | zero =>
          cases hu
          cases hv
          exact ⟨hedge, fun _ w hw => Option.some.inj (hmove.symm.trans hw)⟩
      | succ i => simp at hv
    · intro i u v hu hstep
      rcases i with _ | _ | i
      · exact ⟨0, rfl⟩
      · cases hu
        rw [Game.Step, hend] at hstep
        simp at hstep
      · simp at hu
  have hin : t.region.contains 4 = true := by simp [← VertexSet.mem_toList, hregion]
  obtain ⟨k, w, hk, hw, htarget, -⟩ := hplays _ 4 hruns rfl hin
  exact ⟨g, hmade, _, rfl, hend, t, ht, hregion, hruns, k, w, hk, hw, htarget⟩

end ParityGames
