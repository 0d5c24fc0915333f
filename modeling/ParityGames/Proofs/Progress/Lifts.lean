import ParityGames.Progress.Solve
import ParityGames.Proofs.Data.Choosing
import ParityGames.Proofs.Game.Views
import ParityGames.Proofs.Progress.Levels

/-! # Lifts in numbers

What a lift comes to if measures are read as numbers. The toll of an edge is the least level that
pays for it, and a vertex pays if its level covers the edge that its owner has to take, or any edge
that the opponent may take.
-/

namespace ParityGames

namespace Game

/-- The least level that pays for a move from `v` to a vertex of level `x`. -/
def toll (g : Game) (p : Player) (bounds : List Nat) (v x : Nat) : Nat :=
  Measure.raisedLevel bounds (g.priorityOf v) (Player.ofPriority (g.priorityOf v) ≠ p) x

def Pays (g : Game) (p : Player) (bounds : List Nat) (f : Nat → Nat) (v : Nat) : Prop :=
  Measure.volume bounds ≤ f v ∨
    if g.owner v = p then ∃ w ∈ g.successors v, g.toll p bounds v (f w) ≤ f v
    else g.successors v ≠ [] ∧ ∀ w ∈ g.successors v, g.toll p bounds v (f w) ≤ f v

end Game

namespace ProgressMeasures

structure Proper (m : ProgressMeasures) : Prop where
  coherent : m.game.Coherent
  bounds_eq : m.bounds = boundsFor m.game m.player m.bounds.length
  low : ∀ v, m.game.contains v = true → m.game.priorityOf v < m.bounds.length
  length : m.measures.length = m.game.vertexCount
  fits : ∀ v, m.game.contains v = true → (m.measure v).Fits m.bounds

def levelAt (m : ProgressMeasures) (v : Nat) : Nat := (m.measure v).level m.bounds

variable {m : ProgressMeasures}

theorem getElem?_boundsFor {g : Game} {p : Player} {length i bound : Nat}
    (h : (boundsFor g p length)[i]? = some bound) :
    bound = if Player.ofPriority i = p then 0 else g.countWithPriority i := by
  unfold boundsFor at h
  rw [List.getElem?_map] at h
  cases hi : (List.range length)[i]? with
  | none =>
      rw [hi] at h
      cases h
  | some j =>
      obtain ⟨hlt, hj⟩ := List.getElem?_eq_some_iff.1 hi
      rw [List.getElem_range] at hj
      rw [hi, ← hj] at h
      exact (Option.some.inj h).symm

/-- A lift is the demand of the edge that its owner prefers, unless there is none. -/
theorem lift_eq (m : ProgressMeasures) (v : Nat) :
    (m.game.successors v = [] ∧ m.lift v = (.top, none)) ∨
    ∃ w ∈ m.game.successors v, m.lift v = (m.demand v w, some w) ∧
      (if m.game.owner v = m.player then
        Ranking.firstLeast (fun a b => Measure.cmp a.1 b.1)
          ((m.game.successors v).map fun w => (m.demand v w, w))
      else Ranking.lastGreatest (fun a b => Measure.cmp a.1 b.1)
          ((m.game.successors v).map fun w => (m.demand v w, w))) =
        some (m.demand v w, w) := by
  unfold lift
  by_cases howner : m.game.owner v = m.player
  · simp only [if_pos howner]
    cases hbest : Ranking.firstLeast (fun a b => Measure.cmp a.1 b.1)
        ((m.game.successors v).map fun w => (m.demand v w, w)) with
    | none =>
        rw [Ranking.firstLeast_eq_none_iff, List.map_eq_nil_iff] at hbest
        exact Or.inl ⟨hbest, rfl⟩
    | some best =>
        obtain ⟨w, hw, rfl⟩ := List.mem_map.1 (Ranking.firstLeast_mem hbest)
        exact Or.inr ⟨w, hw, rfl, rfl⟩
  · simp only [if_neg howner]
    cases hbest : Ranking.lastGreatest (fun a b => Measure.cmp a.1 b.1)
        ((m.game.successors v).map fun w => (m.demand v w, w)) with
    | none =>
        rw [Ranking.lastGreatest_eq_none_iff, List.map_eq_nil_iff] at hbest
        exact Or.inl ⟨hbest, rfl⟩
    | some best =>
        obtain ⟨w, hw, rfl⟩ := List.mem_map.1 (Ranking.lastGreatest_mem hbest)
        exact Or.inr ⟨w, hw, rfl, rfl⟩

namespace Proper

theorem spaced (hm : m.Proper) {priority : Nat} (h : Player.ofPriority priority ≠ m.player) :
    Measure.Spaced (m.bounds.drop priority) := by
  refine Measure.spaced_of_getElem? fun i bound hi hget => ?_
  rw [List.getElem?_drop, hm.bounds_eq] at hget
  rw [getElem?_boundsFor hget, if_pos]
  unfold Player.ofPriority at h ⊢
  cases hp : m.player with
  | even =>
      rw [hp] at h
      split at h
      · exact absurd rfl h
      · exact if_pos (by omega)
  | odd =>
      rw [hp] at h
      split at h
      · exact if_neg (by omega)
      · exact absurd rfl h

/-- Demands are tolls, whether or not the target is active. -/
theorem demand_spec_of_fits (hm : m.Proper) {v w : Nat} (hv : m.game.contains v = true)
    (hw : (m.measure w).Fits m.bounds) :
    (m.demand v w).Fits m.bounds ∧
      (m.demand v w).level m.bounds = m.game.toll m.player m.bounds v (m.levelAt w) := by
  have hpriority : m.game.priority? v = some (m.game.priorityOf v) := by
    unfold Game.priority?
    rw [if_pos hv]
  unfold demand
  rw [hpriority]
  exact Measure.raise_spec (Nat.le_of_lt (hm.low v hv))
    (fun hstrict => hm.spaced (by simpa using hstrict)) hw

theorem demand_spec (hm : m.Proper) {v w : Nat} (hv : m.game.contains v = true)
    (hw : m.game.contains w = true) :
    (m.demand v w).Fits m.bounds ∧
      (m.demand v w).level m.bounds = m.game.toll m.player m.bounds v (m.levelAt w) :=
  hm.demand_spec_of_fits hv (hm.fits w hw)

theorem cmp_demand (hm : m.Proper) {v : Nat} (hv : m.game.contains v = true)
    {x y : Measure × Nat}
    (hx : x ∈ (m.game.successors v).map fun w => (m.demand v w, w))
    (hy : y ∈ (m.game.successors v).map fun w => (m.demand v w, w)) :
    if Measure.cmp x.1 y.1 = .gt then y.1.level m.bounds ≤ x.1.level m.bounds
    else x.1.level m.bounds ≤ y.1.level m.bounds := by
  have hfits : ∀ z ∈ (m.game.successors v).map fun w => (m.demand v w, w),
      z.1.Fits m.bounds := by
    intro z hz
    obtain ⟨w, hw, rfl⟩ := List.mem_map.1 hz
    exact (hm.demand_spec hv (Game.contains_of_mem_successors hw)).1
  rw [Measure.cmp_eq_compare (hfits x hx) (hfits y hy)]
  split
  · rename_i hgt
    exact Nat.le_of_lt (Nat.compare_eq_gt.1 hgt)
  · rename_i hgt
    rw [Nat.compare_eq_gt] at hgt
    omega

/-- The lift at a vertex of the player asks for least, that at one of the opponent for most. -/
theorem lift_cases (hm : m.Proper) {v : Nat} (hv : m.game.contains v = true) :
    (m.game.successors v = [] ∧ m.lift v = (.top, none)) ∨
    ∃ w ∈ m.game.successors v, m.lift v = (m.demand v w, some w) ∧
      ∀ x ∈ m.game.successors v,
        if m.game.owner v = m.player then
          (m.demand v w).level m.bounds ≤ (m.demand v x).level m.bounds
        else (m.demand v x).level m.bounds ≤ (m.demand v w).level m.bounds := by
  refine (m.lift_eq v).imp_right fun ⟨w, hw, hlift, hbest⟩ => ⟨w, hw, hlift, fun x hx => ?_⟩
  have hmem : (m.demand v x, x) ∈ (m.game.successors v).map fun w => (m.demand v w, w) :=
    List.mem_map.2 ⟨x, hx, rfl⟩
  split
  · rename_i howner
    rw [if_pos howner] at hbest
    exact @Ranking.firstLeast_le _ (fun a b => a.1.level m.bounds ≤ b.1.level m.bounds) _ _
      (fun a => Nat.le_refl _) (fun a b c => Nat.le_trans)
      (fun x hx y hy => hm.cmp_demand hv hx hy) _ hbest _ hmem
  · rename_i howner
    rw [if_neg howner] at hbest
    exact @Ranking.le_lastGreatest _ (fun a b => a.1.level m.bounds ≤ b.1.level m.bounds) _ _
      (fun a => Nat.le_refl _) (fun a b c => Nat.le_trans)
      (fun x hx y hy => hm.cmp_demand hv hx hy) _ hbest _ hmem

theorem fits_lift (hm : m.Proper) {v : Nat} (hv : m.game.contains v = true) :
    (m.lift v).1.Fits m.bounds := by
  rcases hm.lift_cases hv with ⟨-, hlift⟩ | ⟨w, hw, hlift, -⟩
  · rw [hlift]
    trivial
  · rw [hlift]
    exact (hm.demand_spec hv (Game.contains_of_mem_successors hw)).1

/-- A vertex pays if its level covers its lift. -/
theorem pays_of_lift_le (hm : m.Proper) {v : Nat} (hv : m.game.contains v = true)
    (hle : (m.lift v).1.level m.bounds ≤ m.levelAt v) :
    m.game.Pays m.player m.bounds m.levelAt v := by
  have htoll : ∀ w ∈ m.game.successors v,
      (m.demand v w).level m.bounds = m.game.toll m.player m.bounds v (m.levelAt w) :=
    fun w hw => (hm.demand_spec hv (Game.contains_of_mem_successors hw)).2
  rcases hm.lift_cases hv with ⟨-, hlift⟩ | ⟨w, hw, hlift, hbest⟩
  · rw [hlift] at hle
    exact Or.inl hle
  · rw [hlift] at hle
    apply Or.inr
    split
    · exact ⟨w, hw, htoll w hw ▸ hle⟩
    · rename_i howner
      refine ⟨List.ne_nil_of_mem hw, fun x hx => ?_⟩
      have hx' := hbest x hx
      rw [if_neg howner] at hx'
      rw [← htoll x hx]
      exact Nat.le_trans hx' hle

/-- A lift stays below every assignment that pays and is above the measures. -/
theorem lift_le_of_pays (hm : m.Proper) {v : Nat} (hv : m.game.contains v = true)
    {f : Nat → Nat} (hbelow : ∀ w ∈ m.game.successors v, m.levelAt w ≤ f w)
    (hpays : m.game.Pays m.player m.bounds f v) :
    (m.lift v).1.level m.bounds ≤ f v := by
  rcases hpays with htop | hpays
  · exact Nat.le_trans (Measure.level_le (hm.fits_lift hv)) htop
  have htoll : ∀ w ∈ m.game.successors v,
      (m.demand v w).level m.bounds ≤ m.game.toll m.player m.bounds v (f w) := by
    intro w hw
    rw [(hm.demand_spec hv (Game.contains_of_mem_successors hw)).2]
    exact Measure.raisedLevel_mono (hbelow w hw)
  rcases hm.lift_cases hv with ⟨hnone, -⟩ | ⟨w, hw, hlift, hbest⟩
  · split at hpays
    · obtain ⟨w, hw, -⟩ := hpays
      rw [hnone] at hw
      cases hw
    · exact absurd hnone hpays.1
  · rw [hlift]
    split at hpays
    · rename_i howner
      obtain ⟨x, hx, hle⟩ := hpays
      have hx' := hbest x hx
      rw [if_pos howner] at hx'
      exact Nat.le_trans hx' (Nat.le_trans (htoll x hx) hle)
    · exact Nat.le_trans (htoll w hw) (hpays.2 w hw)

/-- Where the levels of the successors rise, the lift rises. -/
theorem lift_mono {m' : ProgressMeasures} (hm : m.Proper) (hm' : m'.Proper)
    (hgame : m'.game = m.game) (hplayer : m'.player = m.player) (hbounds : m'.bounds = m.bounds)
    {v : Nat} (hv : m.game.contains v = true)
    (hrise : ∀ w ∈ m.game.successors v, m.levelAt w ≤ m'.levelAt w) :
    (m.lift v).1.level m.bounds ≤ (m'.lift v).1.level m.bounds := by
  have hdemand : ∀ w ∈ m.game.successors v,
      (m.demand v w).level m.bounds ≤ (m'.demand v w).level m.bounds := by
    intro w hw
    have hw' := Game.contains_of_mem_successors hw
    have htoll := (hm'.demand_spec (hgame ▸ hv) (hgame ▸ hw')).2
    rw [hgame, hplayer, hbounds] at htoll
    rw [(hm.demand_spec hv hw').2, htoll]
    exact Measure.raisedLevel_mono (hrise w hw)
  have hcases := hm'.lift_cases (hgame ▸ hv)
  rw [hgame, hplayer, hbounds] at hcases
  rcases hm.lift_cases hv with ⟨hnone, hlift⟩ | ⟨w, hw, hlift, hbest⟩
  · rcases hcases with ⟨-, hlift'⟩ | ⟨w, hw, -⟩
    · rw [hlift, hlift']
    · rw [hnone] at hw
      cases hw
  · rcases hcases with ⟨hnone, -⟩ | ⟨x, hx, hlift', hbest'⟩
    · rw [hnone] at hw
      cases hw
    · rw [hlift, hlift']
      have hleft := hbest x hx
      have hright := hbest' w hw
      split at hleft
      · rename_i howner
        exact Nat.le_trans hleft (hdemand x hx)
      · rename_i howner
        rw [if_neg howner] at hright
        exact Nat.le_trans (hdemand w hw) hright

theorem lift_move (hm : m.Proper) {v : Nat} (hv : m.game.contains v = true)
    (hlow : (m.lift v).1.level m.bounds < Measure.volume m.bounds) :
    ∃ w ∈ m.game.successors v, (m.lift v).2 = some w ∧
      m.game.toll m.player m.bounds v (m.levelAt w) = (m.lift v).1.level m.bounds := by
  rcases hm.lift_cases hv with ⟨-, hlift⟩ | ⟨w, hw, hlift, -⟩
  · rw [hlift] at hlow
    exact absurd hlow (Nat.lt_irrefl _)
  · rw [hlift]
    exact ⟨w, hw, rfl, (hm.demand_spec hv (Game.contains_of_mem_successors hw)).2.symm⟩

end Proper

end ProgressMeasures

end ParityGames
