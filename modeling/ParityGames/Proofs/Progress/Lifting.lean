import ParityGames.Proofs.Progress.Lifts
import ParityGames.Proofs.Progress.Turns

/-! # What one lift keeps

A lift raises the sum of the levels, which is bounded. No measure ever gets above an assignment
that pays everywhere, and none gets above its own lift.
-/

namespace ParityGames

namespace ProgressMeasures

variable {m m' : ProgressMeasures} {v : Nat}

def Settled (m : ProgressMeasures) (v : Nat) : Prop :=
  (m.lift v).1.level m.bounds ≤ m.levelAt v

def Rising (m : ProgressMeasures) : Prop :=
  ∀ v, m.game.contains v = true → m.levelAt v ≤ (m.lift v).1.level m.bounds

def total (m : ProgressMeasures) : Nat := (m.game.vertices.map m.levelAt).sum

def liftAt (m : ProgressMeasures) (v : Nat) : ProgressMeasures :=
  { m with measures := m.measures.put v (m.lift v).1 }

theorem lift_congr (hgame : m'.game = m.game) (hplayer : m'.player = m.player)
    (hbounds : m'.bounds = m.bounds)
    (hsame : ∀ w ∈ m.game.successors v, m'.measure w = m.measure w) : m'.lift v = m.lift v := by
  have hoptions : (m'.game.successors v).map (fun w => (m'.demand v w, w)) =
      (m.game.successors v).map fun w => (m.demand v w, w) := by
    rw [hgame]
    apply List.map_congr_left
    intro w hw
    unfold demand
    rw [hgame, hplayer, hbounds, hsame w hw]
  unfold lift
  rw [hoptions, hgame, hplayer]

/-- What lifting keeps, and how far it can go. -/
structure LiftedTo (m m' : ProgressMeasures) : Prop where
  game : m'.game = m.game
  player : m'.player = m.player
  bounds : m'.bounds = m.bounds
  proper : m'.Proper
  rises : ∀ v, m.levelAt v ≤ m'.levelAt v
  rising : m.Rising → m'.Rising
  outside : ∀ v, m.game.contains v = false → m'.measure v = m.measure v
  least : ∀ f : Nat → Nat,
    (∀ v, m.game.contains v = true → m.game.Pays m.player m.bounds f v) →
    (∀ v, m.game.contains v = true → m.levelAt v ≤ f v) →
    ∀ v, m.game.contains v = true → m'.levelAt v ≤ f v

namespace LiftedTo

theorem refl (hm : m.Proper) : m.LiftedTo m :=
  ⟨rfl, rfl, rfl, hm, fun _ => Nat.le_refl _, id, fun _ _ => rfl, fun _ _ hle => hle⟩

theorem trans {m'' : ProgressMeasures} (h : m.LiftedTo m') (h' : m'.LiftedTo m'') :
    m.LiftedTo m'' where
  game := h'.game.trans h.game
  player := h'.player.trans h.player
  bounds := h'.bounds.trans h.bounds
  proper := h'.proper
  rises := fun v => Nat.le_trans (h.rises v) (h'.rises v)
  rising := fun hrising => h'.rising (h.rising hrising)
  outside := fun v hv => (h'.outside v (h.game ▸ hv)).trans (h.outside v hv)
  least := by
    intro f hpays hle
    have hnext := h'.least f
    rw [h.game, h.player, h.bounds] at hnext
    exact hnext hpays (h.least f hpays hle)

end LiftedTo

namespace Proper

theorem settled_of_top (hm : m.Proper) (hv : m.game.contains v = true)
    (htop : (m.measure v).isTop = true) : m.Settled v := by
  unfold Settled levelAt
  rw [(Measure.isTop_iff (hm.fits v hv)).1 htop]
  exact Measure.level_le (hm.fits_lift hv)

theorem lifted?_eq (hm : m.Proper) (hv : m.game.contains v = true) :
    m.lifted? v =
      if m.levelAt v < (m.lift v).1.level m.bounds then some (m.liftAt v) else none := by
  show (if Measure.cmp (m.lift v).1 (m.measure v) = .gt then some (m.liftAt v) else none) = _
  rw [Measure.cmp_eq_compare (hm.fits_lift hv) (hm.fits v hv)]
  exact if_congr Nat.compare_eq_gt rfl rfl

theorem settled_of_lifted?_none (hm : m.Proper) (hv : m.game.contains v = true)
    (hnone : m.lifted? v = none) : m.Settled v := by
  rw [hm.lifted?_eq hv] at hnone
  split at hnone
  · cases hnone
  · rename_i hgt
    exact Nat.le_of_not_lt hgt

theorem measure_liftAt (hm : m.Proper) (hv : m.game.contains v = true) (u : Nat) :
    (m.liftAt v).measure u = if u = v then (m.lift v).1 else m.measure u := by
  have hlt : v < m.measures.length := by
    rw [hm.length]
    exact hm.coherent.contains_lt hv
  apply (VertexTable.getD_put _ _ _ _ _).trans
  by_cases hu : u = v
  · rw [if_pos ⟨hu, hlt⟩, if_pos hu]
  · rw [if_neg (fun h => hu h.1), if_neg hu]
    rfl

theorem levelAt_liftAt (hm : m.Proper) (hv : m.game.contains v = true) (u : Nat) :
    (m.liftAt v).levelAt u =
      if u = v then (m.lift v).1.level m.bounds else m.levelAt u := by
  unfold levelAt
  rw [hm.measure_liftAt hv]
  exact apply_ite (fun x : Measure => x.level m.bounds) _ _ _

theorem levelAt_le_liftAt (hm : m.Proper) (hv : m.game.contains v = true)
    (hgt : m.levelAt v < (m.lift v).1.level m.bounds) (u : Nat) :
    m.levelAt u ≤ (m.liftAt v).levelAt u := by
  rw [hm.levelAt_liftAt hv]
  by_cases hu : u = v
  · rw [if_pos hu, hu]
    exact Nat.le_of_lt hgt
  · exact Nat.le_of_eq (if_neg hu).symm

theorem proper_liftAt (hm : m.Proper) (hv : m.game.contains v = true) : (m.liftAt v).Proper where
  coherent := hm.coherent
  bounds_eq := hm.bounds_eq
  low := hm.low
  length := (VertexTable.length_put _ _ _).trans hm.length
  fits := by
    intro u hu
    rw [hm.measure_liftAt hv]
    split
    · exact hm.fits_lift hv
    · exact hm.fits u hu

/-- A lift changes no demand on the vertices that do not lead to it. -/
theorem lift_liftAt (hm : m.Proper) (hv : m.game.contains v = true) {u : Nat}
    (hedge : v ∉ m.game.successors u) : (m.liftAt v).lift u = m.lift u := by
  refine lift_congr rfl rfl rfl fun w hw => ?_
  rw [hm.measure_liftAt hv, if_neg]
  rintro rfl
  exact hedge hw

theorem rising_liftAt (hm : m.Proper) (hv : m.game.contains v = true)
    (hgt : m.levelAt v < (m.lift v).1.level m.bounds) (hrising : m.Rising) :
    (m.liftAt v).Rising := by
  intro u hu
  have hmono := @lift_mono m (m.liftAt v) hm (hm.proper_liftAt hv) rfl rfl rfl u hu
    fun w _ => hm.levelAt_le_liftAt hv hgt w
  rw [hm.levelAt_liftAt hv]
  split
  · rename_i huv
    exact huv ▸ hmono
  · exact Nat.le_trans (hrising u hu) hmono

theorem liftedTo_liftAt (hm : m.Proper) (hv : m.game.contains v = true)
    (hgt : m.levelAt v < (m.lift v).1.level m.bounds) : m.LiftedTo (m.liftAt v) where
  game := rfl
  player := rfl
  bounds := rfl
  proper := hm.proper_liftAt hv
  rises := hm.levelAt_le_liftAt hv hgt
  rising := hm.rising_liftAt hv hgt
  outside := by
    intro u hu
    rw [hm.measure_liftAt hv, if_neg]
    rintro rfl
    rw [hv] at hu
    cases hu
  least := by
    intro f hpays hle u hu
    rw [hm.levelAt_liftAt hv]
    split
    · rename_i huv
      subst huv
      exact hm.lift_le_of_pays hu (fun w hw => hle w (Game.contains_of_mem_successors hw))
        (hpays u hu)
    · exact hle u hu

theorem total_lt_liftAt (hm : m.Proper) (hv : m.game.contains v = true)
    (hgt : m.levelAt v < (m.lift v).1.level m.bounds) : m.total < (m.liftAt v).total := by
  have hrise : m.total + 0 + 1 ≤ (m.liftAt v).total := by
    refine sum_add_le (Game.mem_vertices.2 hv) (fun u _ => hm.levelAt_le_liftAt hv hgt u) ?_
    rw [hm.levelAt_liftAt hv, if_pos rfl, Nat.mul_zero]
    exact hgt
  exact hrise

theorem lifted?_spec (hm : m.Proper) (hv : m.game.contains v = true)
    (hsome : m.lifted? v = some m') :
    m.LiftedTo m' ∧ m.total < m'.total ∧ (m'.Settled v ∨ v ∈ m.game.successors v) ∧
      ∀ u, u ≠ v → v ∉ m.game.successors u → m.Settled u → m'.Settled u := by
  rw [hm.lifted?_eq hv] at hsome
  split at hsome
  · rename_i hgt
    obtain rfl := Option.some.inj hsome
    have hrises := hm.levelAt_le_liftAt hv hgt
    refine ⟨hm.liftedTo_liftAt hv hgt, hm.total_lt_liftAt hv hgt, ?_, ?_⟩
    · by_cases hedge : v ∈ m.game.successors v
      · exact Or.inr hedge
      · apply Or.inl
        show ((m.liftAt v).lift v).1.level m.bounds ≤ (m.liftAt v).levelAt v
        rw [hm.lift_liftAt hv hedge, hm.levelAt_liftAt hv, if_pos rfl]
    · intro u _ hedge hsettled
      show ((m.liftAt v).lift u).1.level m.bounds ≤ (m.liftAt v).levelAt u
      rw [hm.lift_liftAt hv hedge]
      exact Nat.le_trans hsettled (hrises u)
  · cases hsome

theorem total_le (hm : m.Proper) : m.total ≤ m.liftBound := by
  unfold total liftBound
  have hle : ∀ level ∈ m.game.vertices.map m.levelAt, level ≤ Measure.volume m.bounds := by
    intro level hlevel
    obtain ⟨v, hv, rfl⟩ := List.mem_map.1 hlevel
    exact Measure.level_le (hm.fits v (Game.mem_vertices.1 hv))
  have hsum := List.sum_le_card_nsmul _ _ hle
  rwa [List.length_map, ← Game.size_eq_length, Nat.nsmul_eq_mul] at hsum

end Proper

end ProgressMeasures

end ParityGames
