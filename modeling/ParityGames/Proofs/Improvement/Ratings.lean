import Mathlib.Data.List.Perm.Basic
import ParityGames.Proofs.Improvement.Stable

/-! # Ratings

A profile as player even sees it. The ratings of all states of a game are compared in one order:
by the worth of the head, then by the standing over all vertices above the head, and then by the
distance.
-/

namespace ParityGames

namespace Game

variable {g : Game} {head u x : Nat}

def above (g : Game) (head : Nat) : List Nat :=
  (Ranking.sortBy (fun a b => g.rank b ≤ g.rank a) g.vertices).filter fun x => g.rank head < g.rank x

theorem mem_above : x ∈ g.above head ↔ g.contains x = true ∧ g.rank head < g.rank x := by
  unfold above
  rw [List.mem_filter, Ranking.sortBy_eq_insertionSort, List.mem_insertionSort, mem_vertices,
    decide_eq_true_eq]

theorem above_sorted (hg : g.Coherent) (head : Nat) :
    (g.above head).Pairwise fun x y => g.rank y < g.rank x := by
  unfold above
  simp only [Ranking.sortBy_eq_insertionSort, decide_eq_true_eq]
  have _ : Std.Total fun a b => g.rank b ≤ g.rank a := ⟨fun _ _ => Nat.le_total _ _⟩
  have _ : IsTrans Nat fun a b => g.rank b ≤ g.rank a := ⟨fun _ _ _ hab hbc => hbc.trans hab⟩
  have hsorted := List.pairwise_insertionSort (fun a b => g.rank b ≤ g.rank a) g.vertices
  have hnodup := (List.perm_insertionSort (fun a b => g.rank b ≤ g.rank a) g.vertices).nodup_iff.2
    g.active.nodup_toList
  refine List.Pairwise.filter _ ((hsorted.and hnodup).imp_of_mem fun ha hb hab => ?_)
  rw [List.mem_insertionSort, mem_vertices] at ha hb
  refine Nat.lt_of_le_of_ne hab.1 fun heq => hab.2 ?_
  exact (rank_inj (hg.contains_lt hb) (hg.contains_lt ha) heq).symm

/-- A list of vertices above a head is known by its members if the greatest rank comes first. -/
theorem eq_filter_above (hg : g.Coherent) {items : List Nat}
    (hsorted : items.Pairwise fun x y => g.rank y < g.rank x)
    (hmem : ∀ x ∈ items, x ∈ g.above head) : items = (g.above head).filter fun x => x ∈ items := by
  have hfilter := (above_sorted hg head).filter fun x => x ∈ items
  have hnodup : ∀ {list : List Nat}, (list.Pairwise fun x y => g.rank y < g.rank x) →
      list.Nodup := fun hlist => hlist.imp fun hlt heq => by
    rw [heq] at hlt
    exact Nat.lt_irrefl _ hlt
  have hsame : ∀ x, x ∈ items ↔ x ∈ (g.above head).filter fun x => x ∈ items := by
    intro x
    rw [List.mem_filter, decide_eq_true_eq]
    exact ⟨fun hx => ⟨hmem x hx, hx⟩, fun hx => hx.2⟩
  refine List.Perm.eq_of_pairwise ?_ hsorted hfilter
    ((List.perm_ext_iff_of_nodup (hnodup hsorted) (hnodup hfilter)).2 hsame)
  exact fun x y _ _ hxy hyx => absurd hxy (Nat.lt_asymm hyx)

/-- Meeting one vertex more in both plays does not change which one is better. -/
theorem compare_standing_insert {upper : List Nat} {met met' other other' : Nat → Bool}
    (hmet : ∀ x ∈ upper, x ≠ u → met' x = met x)
    (hother : ∀ x ∈ upper, x ≠ u → other' x = other x) (hout : met u = other u)
    (hin : u ∈ upper → met' u = other' u) :
    compare (g.standing upper met') (g.standing upper other') =
      compare (g.standing upper met) (g.standing upper other) := by
  induction upper with
  | nil => rfl
  | cons x rest ih =>
      have hrest := ih (fun y hy => hmet y (List.mem_cons_of_mem x hy))
        (fun y hy => hother y (List.mem_cons_of_mem x hy))
        fun hu => hin (List.mem_cons_of_mem x hu)
      unfold standing
      rw [← compare_digits (g.standing_lt rest met') (g.standing_lt rest other'),
        ← compare_digits (g.standing_lt rest met) (g.standing_lt rest other), hrest]
      by_cases hx : x = u
      · subst hx
        rw [hout, hin List.mem_cons_self, Nat.compare_eq_eq.2 rfl, Nat.compare_eq_eq.2 rfl]
      · rw [hmet x List.mem_cons_self hx, hother x List.mem_cons_self hx]

theorem pace_succ_le_iff {distance distance' : Nat} :
    g.pace head (distance + 1) ≤ g.pace head (distance' + 1) ↔
      g.pace head distance ≤ g.pace head distance' := by
  unfold pace
  split_ifs <;> omega

/-- What a profile lists is active and above its head, the greatest rank first. -/
structure Lists (g : Game) (profile : Profile) : Prop where
  head_active : g.contains profile.head = true
  before_eq : profile.before = (g.above profile.head).filter fun x => x ∈ profile.before

def standingOf (g : Game) (profile : Profile) : Nat :=
  g.standing (g.above profile.head) fun x => x ∈ profile.before

end Game

namespace Improvement

variable {s t : Improvement} {g : Game} {choice better : Nat → Nat} {head v x : Nat}
  {region : Nat → Prop} {above : List Nat} {profile other : Profile}

namespace Charted

/-- The vertices outside of the component are not met, so all vertices above the head may be
looked at. -/
theorem before_eq (h : s.Charted g choice head region above) (hg : g.Coherent)
    (hactive : ∀ v, region v → g.contains v = true) (hv : region v) :
    (s.profile v).before = (g.above head).filter fun x => x ∈ (s.profile v).before := by
  have hsorted := h.sorted.filter fun x => x ∈ (s.profile v).before
  rw [← h.listed v hv] at hsorted
  refine Game.eq_filter_above hg hsorted fun x hx => ?_
  obtain ⟨hregion, hrank⟩ := (h.mem_above x).1 (h.mem_of_mem_before hv hx)
  exact Game.mem_above.2 ⟨hactive x hregion, hrank⟩

end Charted

def rating (s : Improvement) (v : Nat) : Preference where
  head := s.reward (s.profile v).head
  before := (s.profile v).before.map s.reward ++ [.neutral]
  distance :=
    match s.winner v with
    | .even => .shorter (s.profile v).distance
    | .odd => .longer (s.profile v).distance

def rate (s : Improvement) (profile : Profile) : Preference where
  head := s.reward profile.head
  before := profile.before.map s.reward ++ [.neutral]
  distance :=
    match (s.relevance profile.head).winner with
    | .even => .shorter profile.distance
    | .odd => .longer profile.distance

theorem rating_eq_rate (s : Improvement) (v : Nat) : s.rating v = s.rate (s.profile v) := rfl

/-- A successor is preferred by its rating, but at a head the distance does not count. -/
theorem preference_eq (s : Improvement) (u v : Nat) : s.preference u v =
    { s.rating v with
      distance := if (s.profile u).head = u then .ignored else (s.rating v).distance } := rfl

def standing (s : Improvement) (g : Game) (v : Nat) : Nat :=
  Charted.standing s g (g.above (s.profile v).head) v

def pace (s : Improvement) (g : Game) (v : Nat) : Int :=
  g.pace (s.profile v).head (s.profile v).distance

namespace Keeps

theorem reward_eq (hs : s.Keeps g choice) (ht : t.Keeps g better) (hx : g.contains x = true) :
    t.reward x = s.reward x := by
  unfold reward relevance
  rw [hs.priorities x hx, ht.priorities x hx]

/-- All states of a game see a profile in the same way. -/
theorem rate_eq (hs : s.Keeps g choice) (ht : t.Keeps g better) (h : g.Lists profile) :
    t.rate profile = s.rate profile := by
  have hrewards : profile.before.map t.reward = profile.before.map s.reward := by
    apply List.map_congr_left
    intro x hx
    rw [h.before_eq, List.mem_filter] at hx
    exact hs.reward_eq ht (Game.mem_above.1 hx.1).1
  unfold rate
  rw [hrewards, hs.reward_eq ht h.head_active, hs.winner_relevance h.head_active,
    ht.winner_relevance h.head_active]

theorem cmp_head (hs : s.Keeps g choice) (h : g.Lists profile) (hother : g.Lists other) :
    Reward.cmp (s.rate profile).head (s.rate other).head =
      compare (g.worth profile.head) (g.worth other.head) :=
  hs.cmp_reward h.head_active hother.head_active

theorem cmp_before (hs : s.Keeps g choice) (h : g.Lists profile) (hother : g.Lists other)
    (hhead : other.head = profile.head) :
    List.compareLex Reward.cmp (s.rate profile).before (s.rate other).before =
      compare (g.standingOf profile) (g.standingOf other) := by
  have hactive : ∀ x ∈ g.above profile.head, g.contains x = true := fun x hx =>
    (Game.mem_above.1 hx).1
  have hcompare := hs.compareLex_rewards hactive (Game.above_sorted hs.coherent profile.head)
    (fun x => x ∈ profile.before) (fun x => x ∈ other.before)
  have hbefore := hother.before_eq
  rw [hhead] at hbefore
  rw [← h.before_eq, ← hbefore] at hcompare
  unfold rate Game.standingOf
  rw [hhead]
  exact hcompare

theorem cmp_distance (hs : s.Keeps g choice) (h : g.Lists profile)
    (hhead : other.head = profile.head) :
    Distance.cmp (s.rate profile).distance (s.rate other).distance =
      compare (g.pace profile.head profile.distance) (g.pace other.head other.distance) := by
  unfold rate Game.pace
  rw [hhead, hs.winner_relevance h.head_active]
  cases Player.ofPriority (g.priorityOf profile.head) with
  | even =>
      show compare other.distance profile.distance = _
      rw [if_pos rfl, if_pos rfl, Nat.compare_eq_ite_lt, Int.compare_eq_ite_lt]
      split_ifs <;> first | rfl | omega
  | odd =>
      show compare profile.distance other.distance = _
      rw [if_neg (by decide), if_neg (by decide), Nat.compare_eq_ite_lt, Int.compare_eq_ite_lt]
      split_ifs <;> first | rfl | omega

theorem cmp_rate (hs : s.Keeps g choice) (h : g.Lists profile) (hother : g.Lists other)
    (hhead : other.head = profile.head) :
    Preference.cmp (s.rate profile) (s.rate other) =
      (compare (g.standingOf profile) (g.standingOf other)).then
        (compare (g.pace profile.head profile.distance) (g.pace other.head other.distance)) := by
  have hcmp := hs.cmp_head h hother
  rw [hhead, Int.compare_eq_eq.2 rfl] at hcmp
  unfold Preference.cmp
  rw [hcmp, hs.cmp_before h hother hhead, hs.cmp_distance h hhead, Ordering.eq_then]

end Keeps

namespace Valued

theorem lists (hs : s.Valued g choice) (hv : g.contains v = true) : g.Lists (s.profile v) := by
  obtain ⟨above, habove⟩ := hs.surveyed v hv
  exact ⟨hs.head_active v hv, habove.before_eq hs.keeps.coherent (fun u hu => hu.1) ⟨hv, rfl⟩⟩

end Valued

end Improvement

end ParityGames
