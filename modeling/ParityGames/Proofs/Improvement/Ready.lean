import ParityGames.Proofs.Improvement.Stable

/-! # The states of a run

Every state that strategy improvement starts a valuation with has the priorities of its game and an
active successor as the move of every vertex of player even. The moves of player odd and all
profiles are left over from before and may be anything.
-/

namespace ParityGames

namespace Improvement

variable {s : Improvement} {g : Game} {choice : Nat → Nat} {u v : Nat}

structure Ready (s : Improvement) : Prop where
  reachable : s.game.Reachable
  total : s.game.isTotal = true
  priorities : ∀ v, s.game.contains v = true → s.priorities.getD v 0 = s.game.priorityOf v
  length_moves : s.moves.length = s.game.vertexCount
  length_profiles : s.profiles.length = s.game.vertexCount
  move : ∀ v, s.game.contains v = true → s.game.owner v = .even → s.move v ∈ s.game.successors v

theorem Ready.keeps (h : s.Ready) : s.Keeps s.game s.move where
  coherent := h.reachable.coherent
  chosen := h.move
  game := rfl
  priorities := h.priorities
  length_moves := h.length_moves
  length_profiles := h.length_profiles
  move := fun _ _ _ => rfl

theorem start_priorities (hg : g.Coherent) {v : Nat} (hv : g.contains v = true) :
    (start g).priorities.getD v 0 = g.priorityOf v := by
  have hfold := foldl_induction
    (fun (t : VertexTable Nat) p => (g.verticesWithPriority p).foldl (fun t v => t.put v p) t)
    g.activePriorities (VertexTable.fill 0 g.vertexCount)
    (fun done t => t.length = g.vertexCount ∧
      (g.priorityOf v ∈ done → t.getD v 0 = g.priorityOf v))
    ⟨VertexTable.length_fill _ _, fun hin => nomatch hin⟩ ?_
  · apply hfold.2
    unfold Game.activePriorities
    rw [SortedMap.mem_keys_iff, hg.isSome_counts]
    exact ⟨v, hv, rfl⟩
  · rintro done p rest t hitems ⟨hlength, hentered⟩
    refine ⟨(VertexTable.length_foldl_put _ (fun _ => p) t).trans hlength, fun hin => ?_⟩
    rw [VertexTable.getD_foldl_put _ (fun _ => p), hlength]
    by_cases hp : g.priorityOf v = p
    · rw [if_pos ⟨(hg.mem_verticesWithPriority).2 ⟨hv, hp⟩, hg.contains_lt hv⟩, hp]
    · rw [if_neg fun hboth => hp (hg.mem_verticesWithPriority.1 hboth.1).2]
      rcases List.mem_append.1 hin with hin | hin
      · exact hentered hin
      · exact absurd (List.mem_singleton.1 hin) hp

def enterFirst (g : Game) (t : VertexTable Nat) (v : Nat) : VertexTable Nat :=
  match (g.successors v).head? with
  | some w => t.put v w
  | none => t

theorem start_moves (hg : g.Coherent) (htotal : g.isTotal = true) :
    (start g).moves.length = g.vertexCount ∧
      ∀ v, g.contains v = true → (start g).move v ∈ g.successors v := by
  have hfold := foldl_induction (enterFirst g) g.vertices (VertexTable.fill 0 g.vertexCount)
    (fun done t => t.length = g.vertexCount ∧ ∀ v ∈ done, t.getD v 0 ∈ g.successors v)
    ⟨VertexTable.length_fill _ _, fun v hv => nomatch hv⟩ ?_
  · exact ⟨hfold.1, fun v hv => hfold.2 v (Game.mem_vertices.2 hv)⟩
  · rintro done v rest t hitems ⟨hlength, hdone⟩
    have hv : g.contains v = true := Game.mem_vertices.1 (by simp [hitems])
    obtain ⟨x, hx⟩ := Game.isTotal_iff.1 htotal v hv
    cases hsuccessors : g.successors v with
    | nil =>
        rw [hsuccessors] at hx
        cases hx
    | cons w more =>
        have henter : enterFirst g t v = t.put v w := by
          unfold enterFirst
          rw [hsuccessors]
          rfl
        rw [henter]
        refine ⟨(VertexTable.length_put _ _ _).trans hlength, fun u hu => ?_⟩
        rw [VertexTable.getD_put, hlength]
        by_cases huv : u = v
        · subst huv
          rw [if_pos ⟨rfl, hg.contains_lt hv⟩, hsuccessors]
          exact List.mem_cons_self
        · rw [if_neg fun hboth => huv hboth.1]
          refine hdone u ((List.mem_append.1 hu).resolve_right fun hu => ?_)
          exact huv (List.mem_singleton.1 hu)

theorem start_ready (hg : g.Reachable) (htotal : g.isTotal = true) : (start g).Ready := by
  obtain ⟨hlength, hmoves⟩ := start_moves hg.coherent htotal
  exact {
    reachable := hg
    total := htotal
    priorities := fun v hv => start_priorities hg.coherent hv
    length_moves := hlength
    length_profiles := VertexTable.length_fill _ _
    move := fun v hv _ => hmoves v hv }

/-! ## Switching -/

/-- A better move is an edge, and the old move is worse. -/
theorem betterMove_spec (h : s.betterMove? u = some v) : v ∈ s.game.successors u ∧
    Preference.cmp (s.preference u (s.move u)) (s.preference u v) = .lt := by
  unfold betterMove? at h
  cases hbest : Ranking.lastGreatest (fun a b => Preference.cmp a.1 b.1)
      ((s.game.successors u).map fun v => (s.preference u v, v)) with
  | none =>
      simp only [hbest] at h
      cases h
  | some best =>
      obtain ⟨w, hw, rfl⟩ := List.mem_map.1 (Ranking.lastGreatest_mem hbest)
      simp only [hbest] at h
      split at h
      · rename_i hgt
        rw [← Option.some.inj h]
        exact ⟨hw, Std.OrientedCmp.gt_iff_lt.1 hgt⟩
      · cases h

theorem getD_foldl_betterMove (s : Improvement) (vertices : List Nat) (moves : VertexTable Nat)
    (u : Nat) :
    ((vertices.filterMap fun u => (s.betterMove? u).map fun v => (u, v)).foldl
        (fun t switch => t.put switch.1 switch.2) moves).getD u 0 =
      if u ∈ vertices ∧ u < moves.length then (s.betterMove? u).getD (moves.getD u 0)
      else moves.getD u 0 := by
  induction vertices generalizing moves with
  | nil => simp
  | cons w rest ih =>
      cases hw : s.betterMove? w with
      | none =>
          rw [List.filterMap_cons_none (by rw [hw]; rfl), ih]
          by_cases heq : u = w
          · subst heq
            simp [hw]
          · simp [heq]
      | some v =>
          rw [List.filterMap_cons_some (by rw [hw]; rfl), List.foldl_cons, ih,
            VertexTable.length_put, VertexTable.getD_put]
          by_cases heq : u = w
          · subst heq
            by_cases hlt : u < moves.length <;> simp [hw, hlt]
          · simp [heq]

theorem move_improve (hu : s.game.contains u = true) (howner : s.game.owner u = .even)
    (hlt : u < s.moves.length) :
    s.improve.1.move u = (s.betterMove? u).getD (s.move u) := by
  have hrow := getD_foldl_betterMove s
    (s.game.vertices.filter fun u => s.game.owner u = .even) s.moves u
  rw [if_pos ⟨List.mem_filter.2 ⟨Game.mem_vertices.2 hu, decide_eq_true howner⟩, hlt⟩] at hrow
  exact hrow

theorem length_foldl_switch (switches : List (Nat × Nat)) (moves : VertexTable Nat) :
    (switches.foldl (fun t switch => t.put switch.1 switch.2) moves).length = moves.length := by
  induction switches generalizing moves with
  | nil => rfl
  | cons switch rest ih => rw [List.foldl_cons, ih, VertexTable.length_put]

theorem Ready.valued {t : Improvement} (h : s.Ready) (hrun : s.valuation = .ok t) :
    t.Valued s.game s.move := by
  obtain ⟨t', hrun', ht⟩ := valuation_spec h.keeps h.total
  obtain rfl : t = t' := Except.ok.inj (hrun.symm.trans hrun')
  exact ht

theorem Ready.improve {t : Improvement} (h : s.Ready) (hrun : s.valuation = .ok t) :
    t.improve.1.Ready := by
  have ht := h.valued hrun
  have hgame : t.improve.1.game = s.game := ht.keeps.game
  exact {
    reachable := hgame ▸ h.reachable
    total := hgame ▸ h.total
    priorities := by
      rw [hgame]
      exact ht.keeps.priorities
    length_moves := by
      rw [hgame]
      exact (length_foldl_switch t.switches t.moves).trans ht.keeps.length_moves
    length_profiles := by
      rw [hgame]
      exact ht.keeps.length_profiles
    move := by
      rw [hgame]
      intro v hv howner
      have hlt : v < t.moves.length := ht.keeps.length_moves ▸ ht.keeps.coherent.contains_lt hv
      rw [move_improve (ht.keeps.game ▸ hv) (ht.keeps.game ▸ howner) hlt]
      cases hbetter : t.betterMove? v with
      | none =>
          rw [Option.getD_none, ht.keeps.move v hv howner]
          exact h.move v hv howner
      | some w =>
          have hedge := (betterMove_spec hbetter).1
          rwa [ht.keeps.game] at hedge }

end Improvement

end ParityGames
