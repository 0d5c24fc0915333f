import ParityGames.Proofs.Play.Dominion

/-! # Quasi-dominions

A quasi-dominion is a region that its player wins as long as the play stays in it. The play can be
driven out only at vertices of its greatest priority, and by the opponent's choice also to regions
above. Such regions can be grown by attraction and united with a higher one of the same player, and
one without a way out is a dominion.
-/

namespace ParityGames

namespace Game

variable {g part : Game} {p : Player} {top : Nat} {region above z : Set Nat}
  {move : Nat → Option Nat}

structure QuasiDominion (g : Game) (p : Player) (top : Nat) (region above : Set Nat)
    (move : Nat → Option Nat) : Prop where
  active : ∀ v ∈ region, g.contains v = true
  low : ∀ v ∈ region, g.priorityOf v ≤ top
  own : ∀ v ∈ region, g.owner v = p →
    (∃ w ∈ region, move v = some w ∧ w ∈ g.successors v) ∨ (move v = none ∧ g.priorityOf v = top)
  other : ∀ v ∈ region, g.owner v ≠ p → g.priorityOf v ≠ top → ∀ w ∈ g.successors v,
    w ∈ region ∨ w ∈ above
  wins : ∀ play, g.Obeys p move play → (∀ i, play i ∈ region) → g.WonBy p play

namespace QuasiDominion

theorem empty (g : Game) (p : Player) (top : Nat) (above : Set Nat) (move : Nat → Option Nat) :
    g.QuasiDominion p top ∅ above move where
  active := fun _ hv => hv.elim
  low := fun _ hv => hv.elim
  own := fun _ hv => hv.elim
  other := fun _ hv => hv.elim
  wins := fun _ _ hstay => (hstay 0).elim

theorem congr {other : Nat → Option Nat} (h : g.QuasiDominion p top region above move)
    (hmove : ∀ v ∈ region, other v = move v) : g.QuasiDominion p top region above other where
  active := h.active
  low := h.low
  own := by
    intro v hv howner
    rw [hmove v hv]
    exact h.own v hv howner
  other := h.other
  wins := by
    intro play hplay hstay
    exact h.wins play (hplay.congr fun i _ => (hmove (play i) (hstay i)).symm) hstay

/-- Moves that stay in the region may be added at the greatest priority. -/
theorem complete {other : Nat → Option Nat} (h : g.QuasiDominion p top region above move)
    (hkept : ∀ v ∈ region, ∀ w, move v = some w → other v = some w)
    (hadded : ∀ v ∈ region, g.owner v = p → move v = none →
      ∃ w ∈ region, other v = some w ∧ w ∈ g.successors v) :
    g.QuasiDominion p top region above other where
  active := h.active
  low := h.low
  own := by
    intro v hv howner
    rcases h.own v hv howner with ⟨w, hw, hmove, hedge⟩ | ⟨hnone, -⟩
    · exact Or.inl ⟨w, hw, hkept v hv w hmove, hedge⟩
    · exact Or.inl (hadded v hv howner hnone)
  other := h.other
  wins := by
    intro play hplay hstay
    exact h.wins play (hplay.mono fun i w _ => hkept (play i) (hstay i) w) hstay

/-- A step out of the region that does not lead above starts from the greatest priority. -/
theorem top_of_exit (h : g.QuasiDominion p top region above move) {u v : Nat} (hu : u ∈ region)
    (hstep : g.Step p move u v) (hv : v ∉ region) (hv' : v ∉ above) : g.priorityOf u = top := by
  by_contra hne
  by_cases howner : g.owner u = p
  · rcases h.own u hu howner with ⟨w, hw, hmove, -⟩ | ⟨-, htop⟩
    · exact hv (hstep.2 howner w hmove ▸ hw)
    · exact hne htop
  · rcases h.other u hu howner hne v hstep.1 with hmem | hmem
    · exact hv hmem
    · exact hv' hmem

/-- A play below that does not go above is won, unless from some place on it meets neither the
region nor the greatest priority. -/
theorem won_or_leaves (h : g.QuasiDominion p top region above move)
    (hp : Player.ofPriority top = p) {play : Nat → Nat} (hplay : g.Obeys p move play)
    (hle : ∀ i, g.priorityOf (play i) ≤ top) (hbelow : ∀ i, play i ∉ above) :
    g.WonBy p play ∨ ∃ k, ∀ j, k ≤ j → play j ∉ region ∧ g.priorityOf (play j) ≠ top := by
  by_cases hoften : ∀ i, ∃ j, i ≤ j ∧ g.priorityOf (play j) = top
  · exact Or.inl (wonBy_of_top hp hle hoften)
  push Not at hoften
  obtain ⟨k, hk⟩ := hoften
  by_cases hmeets : ∃ j, k ≤ j ∧ play j ∈ region
  · -- without the greatest priority there is no way out of the region any more
    obtain ⟨j, hj, hmem⟩ := hmeets
    have hstay : ∀ i, tail play j i ∈ region := by
      intro i
      induction i with
      | zero => exact hmem
      | succ i ih =>
          by_contra hout
          exact hk (j + i) (by omega) (h.top_of_exit ih (hplay (j + i)) hout (hbelow _))
    exact Or.inl (h.wins _ (hplay.tail j) hstay).of_tail
  · push Not at hmeets
    exact Or.inr ⟨k, fun j hj => ⟨hmeets j hj, hk j hj⟩⟩

/-- The region grows by what its player attracts to it and to fresh vertices of the greatest
priority, in the part of the game that is not above. -/
theorem attract {fresh : Set Nat} {rank : Nat → Nat}
    (h : g.QuasiDominion p top region above move) (hp : Player.ofPriority top = p)
    (hof : part.PartOf g) (hpart : ∀ v, part.contains v = true ↔ g.contains v = true ∧ v ∉ above)
    (hfresh : ∀ v ∈ fresh, g.priorityOf v = top ∧ move v = none)
    (hz : part.Attracts p (region ∪ fresh) z move rank)
    (hlow : ∀ v ∈ z, g.priorityOf v ≤ top) : g.QuasiDominion p top z above move where
  active := fun v hv => ((hpart v).1 (hz.active v hv)).1
  low := hlow
  own := by
    intro v hv howner
    by_cases htarget : v ∈ region ∪ fresh
    · rcases htarget with hregion | hfree
      · rcases h.own v hregion howner with ⟨w, hw, hmove⟩ | hnone
        · exact Or.inl ⟨w, hz.subset (Or.inl hw), hmove⟩
        · exact Or.inr hnone
      · exact Or.inr ⟨(hfresh v hfree).2, (hfresh v hfree).1⟩
    · obtain ⟨w, hw, hmove, hedge, -⟩ := hz.own v hv htarget (by rwa [hof.owner])
      have hactive := ((hpart w).1 (contains_of_mem_successors hedge)).1
      exact Or.inl ⟨w, hw, hmove, ((hof.mem_successors hactive).1 hedge).1⟩
  other := by
    intro v hv howner hne w hw
    by_cases htarget : v ∈ region ∪ fresh
    · rcases htarget with hregion | hfree
      · exact (h.other v hregion howner hne w hw).imp_left fun hmem => hz.subset (Or.inl hmem)
      · exact absurd (hfresh v hfree).1 hne
    · by_cases habove : w ∈ above
      · exact Or.inr habove
      · have hactive := contains_of_mem_successors hw
        have hedge := (hof.mem_successors hactive).2 ⟨hw, (hpart w).2 ⟨hactive, habove⟩⟩
        exact Or.inl (hz.other v hv htarget (by rwa [hof.owner]) w hedge).1
  wins := by
    intro play hplay hstay
    have hbelow : ∀ i, play i ∉ above := fun i => ((hpart _).1 (hz.active _ (hstay i))).2
    rcases h.won_or_leaves hp hplay (fun i => hlow _ (hstay i)) hbelow with hwon | ⟨k, hk⟩
    · exact hwon
    · -- but the play meets the target again and again
      have hin := hplay.inPart hof fun i => hz.active _ (hstay i)
      obtain ⟨j, hj, htarget⟩ := hz.reaches hin (hstay k)
      rcases htarget with hregion | hfree
      · exact absurd hregion (hk j hj).1
      · exact absurd (hfresh _ hfree).1 (hk j hj).2

/-- A region from which the opponent can escape only to a higher region of the player, or above
it, can be taken into that region. -/
theorem unite {low : Nat} {above' : Set Nat} (h : g.QuasiDominion p top region above move)
    (hp : Player.ofPriority top = p) (hz : g.QuasiDominion p low z above' move) (hle : low ≤ top)
    (hbelow : ∀ v, v ∈ region ∨ v ∈ z → v ∉ above)
    (hown : ∀ v ∈ z, g.owner v = p → ∃ w ∈ z, move v = some w ∧ w ∈ g.successors v)
    (hother : ∀ v ∈ z, g.owner v ≠ p → ∀ w ∈ g.successors v, w ∈ z ∨ w ∈ region ∨ w ∈ above) :
    g.QuasiDominion p top (region ∪ z) above move where
  active := by
    intro v hv
    rcases hv with hv | hv
    · exact h.active v hv
    · exact hz.active v hv
  low := by
    intro v hv
    rcases hv with hv | hv
    · exact h.low v hv
    · exact Nat.le_trans (hz.low v hv) hle
  own := by
    intro v hv howner
    rcases hv with hv | hv
    · rcases h.own v hv howner with ⟨w, hw, hmove⟩ | hnone
      · exact Or.inl ⟨w, Or.inl hw, hmove⟩
      · exact Or.inr hnone
    · obtain ⟨w, hw, hmove⟩ := hown v hv howner
      exact Or.inl ⟨w, Or.inr hw, hmove⟩
  other := by
    intro v hv howner hne w hw
    rcases hv with hv | hv
    · exact (h.other v hv howner hne w hw).imp_left Or.inl
    · rcases hother v hv howner w hw with hmem | hmem | hmem
      · exact Or.inl (Or.inr hmem)
      · exact Or.inl (Or.inl hmem)
      · exact Or.inr hmem
  wins := by
    intro play hplay hstay
    have hlow : ∀ i, g.priorityOf (play i) ≤ top := by
      intro i
      rcases hstay i with hv | hv
      · exact h.low _ hv
      · exact Nat.le_trans (hz.low _ hv) hle
    rcases h.won_or_leaves hp hplay hlow fun i => hbelow _ (hstay i) with hwon | ⟨k, hk⟩
    · exact hwon
    · have hinner : ∀ i, tail play k i ∈ z := fun i =>
        (hstay (k + i)).resolve_left (hk (k + i) (by omega)).1
      exact (hz.wins _ (hplay.tail k) hinner).of_tail

theorem dominion (hz : g.QuasiDominion p top z above move)
    (hown : ∀ v ∈ z, g.owner v = p → ∃ w ∈ z, move v = some w ∧ w ∈ g.successors v)
    (hother : ∀ v ∈ z, g.owner v ≠ p → ∀ w ∈ g.successors v, w ∈ z) :
    g.Dominion p z move where
  active := hz.active
  keeps := hown
  traps := hother
  wins := hz.wins

end QuasiDominion

end Game

end ParityGames
