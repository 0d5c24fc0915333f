import ParityGames.Proofs.Progress.Fixpoint

/-! # Least demands

What a vertex needs in order to move to another is the least measure within the bounds that pays
for the move, and lifting is monotone. Whatever the order in which vertices are lifted, the counters
stay within the bounds, and those of the priorities that favour the player stay at zero.
-/

namespace ParityGames

namespace Measure

variable {bounds : List Nat} {a b : Measure} {k : Nat}

def above (k : Nat) : Measure → Measure
  | .finite counters => .finite (counters.drop k)
  | .top => .top

theorem Fits.above (h : a.Fits bounds) (k : Nat) : (a.above k).Fits (bounds.drop k) := by
  cases a with
  | finite counters => exact List.forall₂_drop k h
  | top => trivial

theorem volume_drop (bounds : List Nat) (k : Nat) :
    volume (bounds.drop k) = volume bounds / volume (bounds.take k) := by
  rw [← volume_take_mul_drop bounds k, Nat.mul_div_cancel_left _ (volume_pos _)]

theorem level_above (h : a.Fits bounds) (k : Nat) :
    (a.above k).level (bounds.drop k) = a.level bounds / volume (bounds.take k) := by
  cases a with
  | finite counters => exact (value_div h k).symm
  | top => exact volume_drop bounds k

theorem cmp_above (ha : a.Fits bounds) (hb : b.Fits bounds) (k : Nat) :
    cmp (a.above k) (b.above k) = compare (a.level bounds / volume (bounds.take k))
      (b.level bounds / volume (bounds.take k)) := by
  rw [cmp_eq_compare (ha.above k) (hb.above k), level_above ha, level_above hb]

theorem level_lt_volume (ha : a.Fits bounds) (htop : a ≠ .top) :
    a.level bounds < volume bounds := by
  cases a with
  | finite counters => exact value_lt ha
  | top => exact absurd rfl htop

theorem level_div_lt (ha : a.Fits bounds) (htop : a ≠ .top) (k : Nat) :
    a.level bounds / volume (bounds.take k) < volume bounds / volume (bounds.take k) := by
  have htop' : a.above k ≠ .top := by
    cases a with
    | finite counters => exact nofun
    | top => exact absurd rfl htop
  have hlt := level_lt_volume (ha.above k) htop'
  rwa [level_above ha, volume_drop] at hlt

theorem Fits.getD_le {counters : List Nat} (h : (finite counters).Fits bounds) (i : Nat) :
    counters.getD i 0 ≤ bounds.getD i 0 := by
  change List.Forall₂ (· ≤ ·) counters bounds at h
  induction h generalizing i with
  | nil => exact Nat.le_refl _
  | cons hle _ ih =>
      cases i with
      | zero => exact hle
      | succ i => exact ih i

/-- `c` covers `a` from the counter at `k` on, and exceeds it there if `strictly`. Only the top has
nothing above it. -/
def Covers (k : Nat) (strictly : Bool) (a c : Measure) : Prop :=
  cmp (c.above k) (a.above k) ≠ .lt ∧
    (strictly = true → a ≠ .top → cmp (c.above k) (a.above k) = .gt)

theorem covers_iff {c : Measure} {strictly : Bool} (ha : a.Fits bounds) (hc : c.Fits bounds)
    (hle : raisedLevel bounds k strictly (a.level bounds) ≤ volume bounds) :
    Covers k strictly a c ↔ raisedLevel bounds k strictly (a.level bounds) ≤ c.level bounds := by
  unfold Covers
  rw [cmp_above hc ha, Ne, Nat.compare_eq_lt, Nat.not_lt, Nat.compare_eq_gt]
  by_cases hctop : c = .top
  · subst hctop
    have hcovers : a.level bounds / volume (bounds.take k) ≤
        volume bounds / volume (bounds.take k) := Nat.div_le_div_right (level_le ha)
    exact iff_of_true ⟨hcovers, fun _ htop => level_div_lt ha htop k⟩ hle
  · rw [raisedLevel_le_iff (level_lt_volume hc hctop)]
    have hlow := level_div_lt hc hctop k
    cases strictly with
    | false => simp
    | true =>
        by_cases hatop : a = .top
        · -- nothing below the top covers the top
          have hlevel : level bounds .top = volume bounds := rfl
          subst hatop
          rw [hlevel]
          simp only [ne_eq, not_true, false_implies, implies_true, and_true, if_true]
          omega
        · simp only [ne_eq, hatop, not_false_eq_true, forall_const, if_true]
          omega

end Measure

namespace ProgressMeasures

variable {g : Game} {p : Player} {m m' : ProgressMeasures} {v w : Nat}

/-- The assignments of measures that lifting reaches, in whatever order it takes the vertices. -/
inductive Reached (g : Game) (p : Player) : ProgressMeasures → Prop
  | start {m : ProgressMeasures} (h : start g p = .ok m) : Reached g p m
  | lift {m m' : ProgressMeasures} {v : Nat} (h : Reached g p m) (hv : g.contains v = true)
      (hlift : m.lifted? v = some m') : Reached g p m'

/-- A measure that pays for the move from `v` to `w`. -/
def Sufficient (m : ProgressMeasures) (v w : Nat) (c : Measure) : Prop :=
  (m.measure w).Covers (m.game.priorityOf v) (Player.ofPriority (m.game.priorityOf v) ≠ m.player) c

theorem eq_of_counterCount {length : Nat} (h : counterCount g = .ok length) :
    length = g.maxPriority?.elim 0 (· + 1) := by
  unfold counterCount at h
  cases hmax : g.maxPriority? with
  | none =>
      simp only [hmax] at h
      exact (Except.ok.inj h).symm
  | some d =>
      simp only [hmax] at h
      split at h
      · exact (Except.ok.inj h).symm
      · cases h

/-- No counter is kept for the priorities that favour the player. -/
theorem getD_boundsFor_of_favoured {i : Nat} (hi : Player.ofPriority i = p) (length : Nat) :
    (boundsFor g p length).getD i 0 = 0 := by
  rw [List.getD_eq_getElem?_getD]
  cases hget : (boundsFor g p length)[i]? with
  | none => rfl
  | some bound => exact (getElem?_boundsFor hget).trans (if_pos hi)

theorem demand_inactive (hv : m.game.contains v = false) (w : Nat) : m.demand v w = .top := by
  have hpriority : m.game.priority? v = none := by
    unfold Game.priority?
    rw [hv]
    exact if_neg (by decide)
  unfold demand
  rw [hpriority]

theorem lift_inactive (hv : m.game.contains v = false) : (m.lift v).1 = .top := by
  rcases m.lift_eq v with ⟨-, heq⟩ | ⟨w, -, heq, -⟩
  · rw [heq]
  · rw [heq]
    exact demand_inactive hv w

namespace Within

theorem bounds_eq (h : m.Within g p) (h' : m'.Within g p) : m'.bounds = m.bounds := by
  have hlength : m'.bounds.length = m.bounds.length :=
    Except.ok.inj (h'.bounds.1.symm.trans h.bounds.1)
  rw [h'.bounds.2, hlength, ← h.bounds.2]

theorem counters (h : m.Within g p) {counters : List Nat}
    (hfinite : m.measure v = .finite counters) :
    counters.length = g.maxPriority?.elim 0 (· + 1) ∧
      (∀ i, counters.getD i 0 ≤ m.bounds.getD i 0) ∧
      ∀ i, Player.ofPriority i = p → counters.getD i 0 = 0 := by
  have hfits : List.Forall₂ (· ≤ ·) counters m.bounds := by
    have hv := h.fits v
    rwa [hfinite] at hv
  have hbelow : ∀ i, counters.getD i 0 ≤ m.bounds.getD i 0 := Measure.Fits.getD_le hfits
  refine ⟨hfits.length_eq.trans (eq_of_counterCount h.bounds.1), hbelow, fun i hi => ?_⟩
  refine Nat.le_zero.1 ((hbelow i).trans (Nat.le_of_eq ?_))
  rw [h.bounds.2, getD_boundsFor_of_favoured hi]

/-- A measure pays for a move if its level covers the toll. -/
theorem sufficient_iff (h : m.Within g p) (hg : g.Coherent) (hv : g.contains v = true)
    {c : Measure} (hc : c.Fits m.bounds) :
    m.Sufficient v w c ↔ (m.demand v w).level m.bounds ≤ c.level m.bounds := by
  obtain ⟨hfits, hlevel⟩ := (h.proper hg).demand_spec_of_fits (h.game.symm ▸ hv) (h.fits w)
  have hle := Measure.level_le hfits
  rw [hlevel] at hle ⊢
  exact Measure.covers_iff (h.fits w) hc hle

theorem demand_mono (h : m.Within g p) (h' : m'.Within g p) (hg : g.Coherent)
    (hle : Measure.cmp (m.measure w) (m'.measure w) ≠ .gt) :
    Measure.cmp (m.demand v w) (m'.demand v w) ≠ .gt := by
  have hbounds := h.bounds_eq h'
  cases hv : g.contains v with
  | false =>
      rw [demand_inactive (h.game.symm ▸ hv), demand_inactive (h'.game.symm ▸ hv)]
      decide
  | true =>
      obtain ⟨hfits, hlevel⟩ := (h.proper hg).demand_spec_of_fits (h.game.symm ▸ hv) (h.fits w)
      obtain ⟨hfits', hlevel'⟩ :=
        (h'.proper hg).demand_spec_of_fits (h'.game.symm ▸ hv) (h'.fits w)
      have hw := h'.fits w
      rw [hbounds] at hfits' hlevel' hw
      rw [Measure.cmp_ne_gt_iff (h.fits w) hw] at hle
      rw [Measure.cmp_ne_gt_iff hfits hfits', hlevel, hlevel', h.game, h'.game, h.player, h'.player]
      unfold levelAt
      rw [hbounds]
      exact Measure.raisedLevel_mono hle

theorem lift_mono (h : m.Within g p) (h' : m'.Within g p) (hg : g.Coherent)
    (hle : ∀ w, Measure.cmp (m.measure w) (m'.measure w) ≠ .gt) :
    Measure.cmp (m.lift v).1 (m'.lift v).1 ≠ .gt := by
  have hbounds := h.bounds_eq h'
  cases hv : g.contains v with
  | false =>
      rw [lift_inactive (h.game.symm ▸ hv), lift_inactive (h'.game.symm ▸ hv)]
      decide
  | true =>
      have hlift := (h'.proper hg).fits_lift (h'.game.symm ▸ hv)
      rw [hbounds] at hlift
      rw [Measure.cmp_ne_gt_iff ((h.proper hg).fits_lift (h.game.symm ▸ hv)) hlift]
      refine (h.proper hg).lift_mono (h'.proper hg) (h'.game.trans h.game.symm)
        (h'.player.trans h.player.symm) hbounds (h.game.symm ▸ hv) fun w _ => ?_
      have hw := h'.fits w
      rw [hbounds] at hw
      unfold levelAt
      rw [hbounds]
      exact (Measure.cmp_ne_gt_iff (h.fits w) hw).1 (hle w)

end Within

/-- One lift keeps the measures within the bounds. -/
theorem Within.lifted (h : m.Within g p) (hg : g.Coherent) (hv : g.contains v = true)
    (hlift : m.lifted? v = some m') : m'.Within g p := by
  have hm := h.proper hg
  have hv' : m.game.contains v = true := h.game.symm ▸ hv
  rw [hm.lifted?_eq hv'] at hlift
  split at hlift
  · obtain rfl := Option.some.inj hlift
    refine ⟨h.game, h.player, h.bounds, (VertexTable.length_put _ _ _).trans h.length, fun u => ?_⟩
    rw [hm.measure_liftAt hv']
    split
    · exact hm.fits_lift hv'
    · exact h.fits u
  · cases hlift

theorem Reached.within (h : Reached g p m) (hg : g.Coherent) : m.Within g p := by
  induction h with
  | start h => exact (within_of_start h).1
  | lift _ hv hlift ih => exact ih.lifted hg hv hlift

/-- In every assignment that lifting reaches, the demand of a vertex on another is the least measure
within the bounds that pays for the move, and finite measures have a counter for every priority,
which keeps its bound and is zero if the priority favours the player. From one assignment within the
bounds to another that is nowhere below it no demand and no lift falls. -/
theorem demands_least_monotone (hg : g.Reachable) (p : Player) :
    (∀ m, Reached g p m → m.Within g p ∧
      (∀ v w, g.contains v = true → g.contains w = true →
        (m.demand v w).Fits m.bounds ∧ m.Sufficient v w (m.demand v w) ∧
        ∀ c, c.Fits m.bounds → m.Sufficient v w c → Measure.cmp (m.demand v w) c ≠ .gt) ∧
      ∀ v counters, m.measure v = .finite counters →
        counters.length = g.maxPriority?.elim 0 (· + 1) ∧
        (∀ i, counters.getD i 0 ≤ m.bounds.getD i 0) ∧
        ∀ i, Player.ofPriority i = p → counters.getD i 0 = 0) ∧
    ∀ m m' : ProgressMeasures, m.Within g p → m'.Within g p →
      (∀ v, Measure.cmp (m.measure v) (m'.measure v) ≠ .gt) →
      (∀ v w, Measure.cmp (m.demand v w) (m'.demand v w) ≠ .gt) ∧
      ∀ v, Measure.cmp (m.lift v).1 (m'.lift v).1 ≠ .gt := by
  have hcoherent := hg.coherent
  refine ⟨fun m hm => ?_, fun m m' h h' hle => ?_⟩
  · have h := hm.within hcoherent
    refine ⟨h, fun v w hv _ => ?_, fun v counters => h.counters⟩
    obtain ⟨hfits, -⟩ := (h.proper hcoherent).demand_spec_of_fits (h.game.symm ▸ hv) (h.fits w)
    refine ⟨hfits, (h.sufficient_iff hcoherent hv hfits).2 (Nat.le_refl _), fun c hc hpays => ?_⟩
    exact (Measure.cmp_ne_gt_iff hfits hc).2 ((h.sufficient_iff hcoherent hv hc).1 hpays)
  · exact ⟨fun v w => h.demand_mono h' hcoherent (hle w), fun v => h.lift_mono h' hcoherent hle⟩

/-- After vertex `3` was lifted, vertex `1` has to add to two counters in order to move there. -/
theorem demands_least_monotone_duel : ∃ g m m', duel.build = .ok g ∧ start g .even = .ok m ∧
    m.lifted? 3 = some m' ∧ g.contains 1 = true ∧ g.contains 3 = true ∧
    m'.demand 1 3 = .finite [0, 1, 0, 1, 0] ∧ m'.Sufficient 1 3 (m'.demand 1 3) ∧
    (∀ c, c.Fits m'.bounds → m'.Sufficient 1 3 c → Measure.cmp (m'.demand 1 3) c ≠ .gt) ∧
    ∀ v w, Measure.cmp (m.demand v w) (m'.demand v w) ≠ .gt := by
  obtain ⟨g, hmade, -, -⟩ := duel_total
  have hg := Game.Reachable.build hmade
  have hshape : (duel.build.toOption.any fun g => g.contains 1 && g.contains 3 &&
      (start g .even).toOption.any fun m => (m.lifted? 3).any fun m' =>
        m'.demand 1 3 = .finite [0, 1, 0, 1, 0]) = true := by
    decide +kernel
  simp only [hmade, Except.toOption, Option.any_some, Bool.and_eq_true] at hshape
  obtain ⟨⟨hone, hthree⟩, hshape⟩ := hshape
  cases hstart : start g .even with
  | error cause =>
      rw [hstart] at hshape
      cases hshape
  | ok m =>
      simp only [hstart, Option.any_some, Option.any_eq_true, decide_eq_true_eq] at hshape
      obtain ⟨m', hlift, hvalue⟩ := hshape
      obtain ⟨hreached, hmono⟩ := demands_least_monotone hg .even
      obtain ⟨hwithin, -, -⟩ := hreached m (.start hstart)
      obtain ⟨hwithin', hdemand, -⟩ := hreached m' (.lift (.start hstart) hthree hlift)
      obtain ⟨-, hpays, hleast⟩ := hdemand 1 3 hone hthree
      have hm := hwithin.proper hg.coherent
      have hlifted := (hm.lifted?_spec (hwithin.game.symm ▸ hthree) hlift).1
      have hrises := hmono m m' hwithin hwithin' fun v => hlifted.cmp_ne_gt hm v
      exact ⟨g, m, m', hmade, hstart, hlift, hone, hthree, hvalue, hpays, hleast, hrises.1⟩

end ProgressMeasures

end ParityGames
