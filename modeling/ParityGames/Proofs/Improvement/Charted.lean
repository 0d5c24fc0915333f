import ParityGames.Proofs.Improvement.Settling

/-! # Charts of components

What the evaluation of a component leaves in the profiles of its vertices. Along the moves the head
comes closer, a profile differs from the next one by the vertex itself at most, and the standing
changes only where a vertex above the head is left.
-/

namespace ParityGames

open Relation

namespace Improvement

variable {s t : Improvement} {g : Game} {choice : Nat → Nat} {head u v x : Nat}
  {region : Nat → Prop} {above : List Nat}

/-- The profiles and moves in the component of a head, `above` being its vertices above the head,
the greatest rank first. -/
structure Charted (s : Improvement) (g : Game) (choice : Nat → Nat) (head : Nat)
    (region : Nat → Prop) (above : List Nat) : Prop where
  head_mem : region head
  mem_above : ∀ x, x ∈ above ↔ region x ∧ g.rank head < g.rank x
  sorted : above.Pairwise fun x y => g.rank y < g.rank x
  moves : ∀ v, region v → g.Arc choice v (s.move v) ∧ region (s.move v)
  distance : ∀ v, region v → v ≠ head →
    (s.profile v).distance = (s.profile (s.move v)).distance + 1
  listed : ∀ v, region v →
    (s.profile v).before = above.filter fun x => x ∈ (s.profile v).before
  meets : ∀ x ∈ above, ∀ v, region v → v ≠ head →
    (x ∈ (s.profile v).before ↔ x = v ∨ x ∈ (s.profile (s.move v)).before)
  starts : ∀ x ∈ above, x ∉ (s.profile head).before
  leaves : ∀ x ∈ above, x ∉ (s.profile (s.move head)).before

namespace Charted

/-- Whether the play from a vertex meets another before the head. -/
theorem meets_move_iff (h : s.Charted g choice head region above) (hx : x ∈ above)
    (hv : region v) (hne : x ≠ v) :
    x ∈ (s.profile v).before ↔ x ∈ (s.profile (s.move v)).before := by
  by_cases hhead : v = head
  · subst hhead
    exact ⟨fun hmeets => absurd hmeets (h.starts x hx), fun hmeets => absurd hmeets (h.leaves x hx)⟩
  · rw [h.meets x hx v hv hhead]
    exact ⟨fun hor => hor.resolve_left hne, Or.inr⟩

theorem distance_le_of_meets (h : s.Charted g choice head region above) (hx : x ∈ above)
    (hv : region v) (hmeets : x ∈ (s.profile v).before) :
    (s.profile x).distance ≤ (s.profile v).distance := by
  induction hd : (s.profile v).distance using Nat.strongRecOn generalizing v with
  | ind d ih =>
      by_cases hhead : v = head
      · subst hhead
        exact absurd hmeets (h.starts x hx)
      · rcases (h.meets x hx v hv hhead).1 hmeets with rfl | hnext
        · exact Nat.le_of_eq hd
        · have hstep := h.distance v hv hhead
          have hle := ih _ (by omega) (h.moves v hv).2 hnext rfl
          omega

theorem not_meets_move (h : s.Charted g choice head region above) (hv : v ∈ above) :
    v ∉ (s.profile (s.move v)).before := by
  intro hmeets
  obtain ⟨hregion, hrank⟩ := (h.mem_above v).1 hv
  have hne : v ≠ head := by
    rintro rfl
    exact Nat.lt_irrefl _ hrank
  have hle := h.distance_le_of_meets hv (h.moves v hregion).2 hmeets
  have hstep := h.distance v hregion hne
  omega

theorem mem_of_mem_before (h : s.Charted g choice head region above) (hv : region v)
    (hx : x ∈ (s.profile v).before) : x ∈ above := by
  rw [h.listed v hv] at hx
  exact (List.mem_filter.1 hx).1

theorem before_head (h : s.Charted g choice head region above) : (s.profile head).before = [] := by
  rw [List.eq_nil_iff_forall_not_mem]
  intro x hx
  exact h.starts x (h.mem_of_mem_before h.head_mem hx) hx

theorem before_move_head (h : s.Charted g choice head region above) :
    (s.profile (s.move head)).before = [] := by
  rw [List.eq_nil_iff_forall_not_mem]
  intro x hx
  exact h.leaves x (h.mem_of_mem_before (h.moves head h.head_mem).2 hx) hx

theorem mem_before_iff (h : s.Charted g choice head region above) (hv : region v)
    (hne : v ≠ head) : x ∈ (s.profile v).before ↔
      (x = v ∧ g.rank head < g.rank v) ∨ x ∈ (s.profile (s.move v)).before := by
  by_cases hx : x ∈ above
  · have hrank := ((h.mem_above x).1 hx).2
    rw [h.meets x hx v hv hne]
    refine or_congr_left ⟨fun heq => ⟨heq, heq ▸ hrank⟩, fun hboth => hboth.1⟩
  · have hnot : ∀ {w}, region w → x ∉ (s.profile w).before := fun hw hmem =>
      hx (h.mem_of_mem_before hw hmem)
    refine iff_of_false (hnot hv) fun hor => ?_
    rcases hor with ⟨rfl, hrank⟩ | hmem
    · exact hx ((h.mem_above x).2 ⟨hv, hrank⟩)
    · exact hnot (h.moves v hv).2 hmem

theorem not_mem_before_move (h : s.Charted g choice head region above) (hv : region v) :
    v ∉ (s.profile (s.move v)).before := by
  intro hmem
  have habove := h.mem_of_mem_before (h.moves v hv).2 hmem
  exact h.not_meets_move habove hmem

def standing (s : Improvement) (g : Game) (upper : List Nat) (v : Nat) : Nat :=
  g.standing upper fun x => x ∈ (s.profile v).before

theorem standing_move (h : s.Charted g choice head region above) {upper : List Nat}
    (hupper : ∀ x ∈ upper, x ∈ above) (hv : region v) (hnot : v ∉ upper) :
    standing s g upper (s.move v) = standing s g upper v := by
  apply Game.standing_congr
  intro x hx
  have hne : x ≠ v := fun heq => hnot (heq ▸ hx)
  exact decide_eq_decide.2 (h.meets_move_iff (hupper x hx) hv hne).symm

theorem standing_move_lt (h : s.Charted g choice head region above) {upper lower : List Nat}
    (habove : above = upper ++ v :: lower)
    (heven : Player.ofPriority (g.priorityOf v) = .even) :
    standing s g (upper ++ [v]) (s.move v) < standing s g (upper ++ [v]) v := by
  have hmem : v ∈ above := by simp [habove]
  obtain ⟨hregion, hrank⟩ := (h.mem_above v).1 hmem
  have hne : v ≠ head := by
    rintro rfl
    exact Nat.lt_irrefl _ hrank
  have hnot : v ∉ upper := by
    have hsorted := h.sorted
    rw [habove] at hsorted
    intro hv
    exact Nat.lt_irrefl _ ((List.pairwise_append.1 hsorted).2.2 v hv v List.mem_cons_self)
  have hupper := h.standing_move (fun x hx => by simp [habove, hx]) hregion hnot
  have hmeets : v ∈ (s.profile v).before := (h.meets v hmem v hregion hne).2 (Or.inl rfl)
  have hmeets' := h.not_meets_move hmem
  unfold standing at hupper ⊢
  rw [Game.standing_append, Game.standing_append, hupper]
  simp only [Game.standing, Game.digit, heven, hmeets, hmeets', List.length_nil]
  simp

/-- Only the profiles and moves of the component count. -/
theorem congr (h : s.Charted g choice head region above) {region' : Nat → Prop}
    (hregion : ∀ v, region' v ↔ region v)
    (hprofile : ∀ v, region v → t.profile v = s.profile v)
    (hmove : ∀ v, region v → t.move v = s.move v) :
    t.Charted g choice head region' above where
  head_mem := (hregion head).2 h.head_mem
  mem_above := by
    intro x
    rw [hregion, h.mem_above]
  sorted := h.sorted
  moves := by
    intro v hv
    rw [hregion] at hv
    rw [hmove v hv, hregion]
    exact h.moves v hv
  distance := by
    intro v hv hne
    rw [hregion] at hv
    rw [hmove v hv, hprofile v hv, hprofile _ (h.moves v hv).2]
    exact h.distance v hv hne
  listed := by
    intro v hv
    rw [hregion] at hv
    rw [hprofile v hv]
    exact h.listed v hv
  meets := by
    intro x hx v hv hne
    rw [hregion] at hv
    rw [hmove v hv, hprofile v hv, hprofile _ (h.moves v hv).2]
    exact h.meets x hx v hv hne
  starts := by
    rw [hprofile head h.head_mem]
    exact h.starts
  leaves := by
    rw [hmove head h.head_mem, hprofile _ (h.moves head h.head_mem).2]
    exact h.leaves

end Charted

end Improvement

namespace Component

variable {s : Improvement} {g : Game} {choice : Nat → Nat} {head : Nat} {members : VertexSet}

theorem Cut.charted {c : Component} {above : List Nat} (hc : c.Cut g choice s above)
    (hplaced : c.Placed)
    (habove : ∀ x, x ∈ above ↔ c.members.contains x = true ∧ g.rank c.head < g.rank x)
    (hsorted : above.Pairwise fun x y => g.rank y < g.rank x) :
    c.state.Charted g choice c.head (fun v => c.members.contains v = true) above where
  head_mem := hc.flow.head_mem
  mem_above := habove
  sorted := hsorted
  moves := by
    intro v hv
    have hlive := (hplaced v hv).1
    exact ⟨hc.arcs _ _ hlive, (hc.flow.inside _ _ hlive).2⟩
  distance := fun v hv => (hplaced v hv).2
  listed := hc.listed
  meets := fun x hx v hv hne => hc.flow.meets_iff x v _ hx hne (hplaced v hv).1
  starts := hc.flow.starts
  leaves := fun x hx => hc.flow.leaves x _ hx (hplaced _ hc.flow.head_mem).1

end Component

end ParityGames
