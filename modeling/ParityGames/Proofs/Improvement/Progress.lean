import Mathlib.Data.List.Iterate
import ParityGames.Proofs.Improvement.Ratings
import ParityGames.Proofs.Improvement.Walks

/-! # Better moves make better plays

If the new moves of player even are not worse in the old state, its values never fall along a play
with them. So the cycle in which such a play ends is no worse than the old head, for otherwise the
standing, or the distance where the standing stays, would rise along the cycle for ever. And where
the head stays, the rating of a vertex exceeds that of the next one by the same in both states.
-/

namespace ParityGames

open Relation

/-- What never falls and comes back to its first value again and again stays the same. -/
theorem eq_first_of_often {α : Type} [PartialOrder α] {f : Nat → α}
    (hle : ∀ i, f i ≤ f (i + 1)) (hoften : ∀ i, ∃ j, i ≤ j ∧ f j = f 0) (i : Nat) :
    f i = f 0 := by
  have hmono := monotone_nat_of_le_succ hle
  obtain ⟨j, hj, heq⟩ := hoften i
  exact le_antisymm (heq ▸ hmono hj) (hmono (Nat.zero_le i))

namespace Improvement

variable {s t : Improvement} {g : Game} {choice better : Nat → Nat} {u v w : Nat}
  {region : Nat → Prop} {above : List Nat}

namespace Valued

theorem cmp_preference (hs : s.Valued g choice) (hv : g.contains v = true)
    (hw : g.contains w = true) (hhead : (s.profile w).head = (s.profile v).head) :
    Preference.cmp (s.preference u v) (s.preference u w) =
      (compare (s.standing g v) (s.standing g w)).then
        (if (s.profile u).head = u then .eq else compare (s.pace g v) (s.pace g w)) := by
  have hcmp := hs.keeps.cmp_head (hs.lists hv) (hs.lists hw)
  rw [hhead, Int.compare_eq_eq.2 rfl] at hcmp
  unfold Preference.cmp
  rw [preference_eq, preference_eq]
  simp only [rating_eq_rate, hcmp, hs.keeps.cmp_before (hs.lists hv) (hs.lists hw) hhead,
    Ordering.eq_then]
  congr 1
  split_ifs
  · rfl
  · exact hs.keeps.cmp_distance (hs.lists hv) hhead

theorem cmp_rating (hs : s.Valued g choice) (ht : t.Valued g better) (hv : g.contains v = true)
    (hhead : (t.profile v).head = (s.profile v).head) :
    Preference.cmp (s.rating v) (t.rating v) =
      (compare (s.standing g v) (t.standing g v)).then (compare (s.pace g v) (t.pace g v)) := by
  rw [rating_eq_rate, rating_eq_rate, hs.keeps.rate_eq ht.keeps (ht.lists hv)]
  exact hs.keeps.cmp_rate (hs.lists hv) (ht.lists hv) hhead

/-- Standings may be compared over the vertices of the component or over all. -/
theorem compare_standing (hs : s.Valued g choice) (hchart : s.Charted g choice (s.profile u).head
      (fun v => g.contains v = true ∧ (s.profile v).head = (s.profile u).head) above)
    (hv : g.contains v = true ∧ (s.profile v).head = (s.profile u).head)
    (hw : g.contains w = true ∧ (s.profile w).head = (s.profile u).head) :
    compare (s.standing g v) (s.standing g w) =
      compare (Charted.standing s g above v) (Charted.standing s g above w) := by
  have hbefore := hs.keeps.cmp_before (hs.lists hv.1) (hs.lists hw.1) (hw.2.trans hv.2.symm)
  refine hbefore.symm.trans ?_
  have hcompare := hs.keeps.compareLex_rewards
    (fun x hx => ((hchart.mem_above x).1 hx).1.1) hchart.sorted
    (fun x => x ∈ (s.profile v).before) (fun x => x ∈ (s.profile w).before)
  rw [← hchart.listed v hv, ← hchart.listed w hw] at hcompare
  exact hcompare

end Valued

/-- Along the moves `better` of player even the values of the state never fall. -/
structure Advances (s : Improvement) (g : Game) (better : Nat → Nat) : Prop where
  rises : ∀ u v, g.Arc better u v → g.worth (s.profile u).head ≤ g.worth (s.profile v).head
  ascends : ∀ u v, g.Arc better u v → (s.profile v).head = (s.profile u).head →
    s.standing g (s.move u) ≤ s.standing g v
  nears : ∀ u v, g.Arc better u v → (s.profile v).head = (s.profile u).head →
    s.standing g (s.move u) = s.standing g v → (s.profile u).head ≠ u →
    s.pace g u ≤ g.pace (s.profile u).head ((s.profile v).distance + 1)

namespace Valued

theorem response_le (hs : s.Valued g choice) (harc : g.Arc choice u v)
    (hhead : (s.profile v).head = (s.profile u).head) :
    s.standing g (s.move u) ≤ s.standing g v ∧
      (s.standing g (s.move u) = s.standing g v → (s.profile u).head ≠ u →
        s.pace g u ≤ g.pace (s.profile u).head ((s.profile v).distance + 1)) := by
  obtain ⟨above, habove⟩ := hs.surveyed u harc.1
  have hu : g.contains u = true ∧ (s.profile u).head = (s.profile u).head := ⟨harc.1, rfl⟩
  have hv : g.contains v = true ∧ (s.profile v).head = (s.profile u).head :=
    ⟨Game.contains_of_mem_successors harc.2.1, hhead⟩
  have hmove := (habove.moves u hu).2
  have hcompare := hs.compare_standing habove.toCharted hmove hv
  obtain ⟨hle, hpace⟩ := habove.least u v harc hu hv
  refine ⟨?_, fun heq hne => hpace ?_ hne.symm⟩
  · rw [← Nat.compare_ne_gt, hcompare, Nat.compare_ne_gt]
    exact hle
  · rw [← Nat.compare_eq_eq, ← hcompare, Nat.compare_eq_eq]
    exact heq

/-- Moves that are not worse in the state make it advance. -/
theorem advances (hs : s.Valued g choice) (hbetter : ∀ u, g.contains u = true →
      g.owner u = .even → (Preference.cmp (s.preference u (choice u))
        (s.preference u (better u))).isLE) :
    s.Advances g better := by
  -- An arc is one of the old moves, for which the state is valued, or a switch.
  have hcases : ∀ u v, g.Arc better u v → g.Arc choice u v ∨
      (g.owner u = .even ∧ v = better u ∧ g.contains v = true) := by
    intro u v harc
    cases howner : g.owner u with
    | even =>
        exact Or.inr ⟨rfl, harc.2.2 howner, Game.contains_of_mem_successors harc.2.1⟩
    | odd =>
        refine Or.inl ⟨harc.1, harc.2.1, fun heven => ?_⟩
        rw [howner] at heven
        cases heven
  have hswitch : ∀ u, g.contains u = true → g.owner u = .even → g.contains (better u) = true →
      (s.profile (better u)).head = (s.profile u).head →
      ((compare (s.standing g (s.move u)) (s.standing g (better u))).then
        (if (s.profile u).head = u then .eq
          else compare (s.pace g (s.move u)) (s.pace g (better u)))).isLE := by
    intro u hu howner hin hhead
    have hmove := hs.move_active hu
    have hle := hbetter u hu howner
    rw [← hs.keeps.move u hu howner,
      hs.cmp_preference hmove.1 hin (hhead.trans hmove.2.symm)] at hle
    exact hle
  exact {
    rises := by
      intro u v harc
      rcases hcases u v harc with harc | ⟨howner, rfl, hin⟩
      · exact hs.rises u v harc
      · have hle := hs.worth_head_le_of_isLE (Game.contains_of_mem_successors
          (hs.keeps.chosen u harc.1 howner)) hin (hbetter u harc.1 howner)
        rwa [hs.stays u harc.1 howner] at hle
    ascends := by
      intro u v harc hhead
      rcases hcases u v harc with harc | ⟨howner, rfl, hin⟩
      · exact (hs.response_le harc hhead).1
      · have hle := Ordering.isLE_left_of_isLE_then (hswitch u harc.1 howner hin hhead)
        exact Nat.compare_ne_gt.1 (Ordering.ne_gt_iff_isLE.2 hle)
    nears := by
      intro u v harc hhead heq hne
      rcases hcases u v harc with harc | ⟨howner, rfl, hin⟩
      · exact (hs.response_le harc hhead).2 heq hne
      · have hle := hswitch u harc.1 howner hin hhead
        rw [Nat.compare_eq_eq.2 heq, Ordering.eq_then, if_neg hne] at hle
        have hle := Int.compare_ne_gt.1 (Ordering.ne_gt_iff_isLE.2 hle)
        obtain ⟨above, habove⟩ := hs.surveyed u harc.1
        have hstep := habove.distance u ⟨harc.1, rfl⟩ hne.symm
        have hmove := (hs.move_active harc.1).2
        unfold pace at hle ⊢
        rw [hstep, Game.pace_succ_le_iff]
        rwa [hmove, hhead] at hle }

end Valued

/-! ## The cycle in which a play ends -/

/-- A walk along arcs that comes back to its first vertex, the greatest one, again and again. -/
structure Cycle (g : Game) (better : Nat → Nat) (play : Nat → Nat) : Prop where
  arc : ∀ i, g.Arc better (play i) (play (i + 1))
  rank_le : ∀ i, g.rank (play i) ≤ g.rank (play 0)
  often : ∀ i, ∃ j, i ≤ j ∧ play j = play 0

namespace Valued

/-- Only a vertex itself is met from it and not from the next one. -/
theorem mem_before_move_iff (hs : s.Valued g choice) (hv : g.contains v = true) {x : Nat}
    (hne : x ≠ v) : x ∈ (s.profile (s.move v)).before ↔ x ∈ (s.profile v).before := by
  obtain ⟨above, habove⟩ := hs.surveyed v hv
  by_cases hhead : v = (s.profile v).head
  · have hstarts := habove.before_head
    have hleaves := habove.before_move_head
    rw [← hhead] at hstarts hleaves
    rw [hstarts, hleaves]
  · rw [habove.mem_before_iff ⟨hv, rfl⟩ hhead]
    exact ⟨Or.inr, fun hor => hor.resolve_left fun hself => hne hself.1⟩

theorem not_mem_before_move (hs : s.Valued g choice) (hv : g.contains v = true) :
    v ∉ (s.profile (s.move v)).before := by
  obtain ⟨above, habove⟩ := hs.surveyed v hv
  exact habove.not_mem_before_move ⟨hv, rfl⟩

theorem mem_before_self (hs : s.Valued g choice) (hv : g.contains v = true)
    (hrank : g.rank (s.profile v).head < g.rank v) : v ∈ (s.profile v).before := by
  obtain ⟨above, habove⟩ := hs.surveyed v hv
  refine (habove.mem_before_iff ⟨hv, rfl⟩ fun heq => ?_).2 (Or.inl ⟨rfl, hrank⟩)
  rw [← heq] at hrank
  exact Nat.lt_irrefl _ hrank

theorem standing_move (hs : s.Valued g choice) (hv : g.contains v = true) {upper : List Nat}
    (hnot : v ∉ upper) : Charted.standing s g upper (s.move v) = Charted.standing s g upper v := by
  apply Game.standing_congr
  intro x hx
  have hne : x ≠ v := fun heq => hnot (heq ▸ hx)
  exact decide_eq_decide.2 (hs.mem_before_move_iff hv hne)

/-- Leaving a bad vertex above the head makes the standing rise. -/
theorem standing_lt_move (hs : s.Valued g choice) (hv : g.contains v = true)
    (hrank : g.rank (s.profile v).head < g.rank v)
    (hodd : Player.ofPriority (g.priorityOf v) = .odd) {upper : List Nat} (hnot : v ∉ upper) :
    Charted.standing s g (upper ++ [v]) v < Charted.standing s g (upper ++ [v]) (s.move v) := by
  have hmet := hs.mem_before_self hv hrank
  have hleft := hs.not_mem_before_move hv
  have hupper := hs.standing_move hv hnot
  unfold Charted.standing at hupper ⊢
  rw [Game.standing_concat, Game.standing_concat, hupper, decide_eq_true hmet,
    decide_eq_false hleft, Game.digit_of_odd hodd, Game.digit_of_odd hodd]
  exact Nat.add_lt_add_right Nat.one_pos _

theorem cycle_head (hs : s.Valued g choice) (ha : s.Advances g better) {play : Nat → Nat}
    (hplay : Cycle g better play) (i : Nat) :
    (s.profile (play i)).head = (s.profile (play 0)).head := by
  have hlt : ∀ {v}, g.contains v = true → v < g.vertexCount := hs.keeps.coherent.contains_lt
  apply Game.worth_inj (hlt (hs.head_active _ (hplay.arc i).1))
    (hlt (hs.head_active _ (hplay.arc 0).1))
  refine eq_first_of_often (f := fun i => g.worth (s.profile (play i)).head)
    (fun i => ha.rises _ _ (hplay.arc i)) (fun i => ?_) i
  obtain ⟨j, hj, heq⟩ := hplay.often i
  exact ⟨j, hj, by rw [heq]⟩

theorem standing_cycle (hs : s.Valued g choice) (ha : s.Advances g better) {play : Nat → Nat}
    (hplay : Cycle g better play) (i : Nat) :
    s.standing g (s.move (play i)) ≤ s.standing g (play (i + 1)) := by
  have hhead := hs.cycle_head ha hplay
  exact ha.ascends _ _ (hplay.arc i) ((hhead (i + 1)).trans (hhead i).symm)

/-- Above the old head the cycle is good, for otherwise the standing would rise whenever its
greatest vertex is met. -/
theorem even_of_cycle_above (hs : s.Valued g choice) (ha : s.Advances g better)
    {play : Nat → Nat} (hplay : Cycle g better play)
    (hrank : g.rank (s.profile (play 0)).head < g.rank (play 0)) :
    Player.ofPriority (g.priorityOf (play 0)) = .even := by
  by_contra hnot
  have hodd : Player.ofPriority (g.priorityOf (play 0)) = .odd := Player.eq_opponent_of_ne hnot
  obtain ⟨upper, lower, hsplit⟩ := List.append_of_mem
    (Game.mem_above.2 ⟨(hplay.arc 0).1, hrank⟩)
  have hsorted := Game.above_sorted hs.keeps.coherent (s.profile (play 0)).head
  rw [hsplit] at hsorted
  have hupper : ∀ i, play i ∉ upper := by
    intro i hmem
    have hlt := (List.pairwise_append.1 hsorted).2.2 _ hmem _ List.mem_cons_self
    exact Nat.not_lt_of_le (hplay.rank_le i) hlt
  have hnext : ∀ i, Charted.standing s g (upper ++ [play 0]) (s.move (play i)) ≤
      Charted.standing s g (upper ++ [play 0]) (play (i + 1)) := by
    intro i
    have hstep := hs.standing_cycle ha hplay i
    unfold standing Charted.standing at hstep
    rw [(hs.move_active (hplay.arc i).1).2, hs.cycle_head ha hplay i,
      hs.cycle_head ha hplay (i + 1), hsplit, List.append_cons] at hstep
    exact Game.standing_le_of_append_le hstep
  have hfirst := hs.standing_lt_move (hplay.arc 0).1 hrank hodd (hupper 0)
  have hconstant := eq_first_of_often
    (f := fun i => Charted.standing s g (upper ++ [play 0]) (play i)) (fun i => ?_) (fun i => ?_) 1
  · have hstep := hnext 0
    simp only [Nat.zero_add] at hstep hconstant
    omega
  · by_cases heq : play i = play 0
    · have hstep := hnext i
      rw [heq] at hstep ⊢
      omega
    · have hmove := @standing_move s g choice _ hs (hplay.arc i).1 (upper ++ [play 0]) (by
        rw [List.mem_append, List.mem_singleton]
        exact not_or.2 ⟨hupper i, heq⟩)
      rw [← hmove]
      exact hnext i
  · obtain ⟨j, hj, heq⟩ := hplay.often i
    exact ⟨j, hj, by rw [heq]⟩

/-- Below the old head the cycle was bad before, for otherwise it would come closer to the head for
ever. -/
theorem odd_of_cycle_below (hs : s.Valued g choice) (ha : s.Advances g better)
    {play : Nat → Nat} (hplay : Cycle g better play)
    (hrank : g.rank (play 0) < g.rank (s.profile (play 0)).head) :
    Player.ofPriority (g.priorityOf (s.profile (play 0)).head) = .odd := by
  by_contra hnot
  have heven : Player.ofPriority (g.priorityOf (s.profile (play 0)).head) = .even :=
    Player.eq_opponent_of_ne hnot
  have hhead := hs.cycle_head ha hplay
  have hbelow : ∀ i, g.rank (play i) < g.rank (s.profile (play 0)).head := fun i =>
    Nat.lt_of_le_of_lt (hplay.rank_le i) hrank
  have hmove : ∀ i, s.standing g (s.move (play i)) = s.standing g (play i) := by
    intro i
    unfold standing
    rw [(hs.move_active (hplay.arc i).1).2]
    refine hs.standing_move (hplay.arc i).1 fun hmem => ?_
    have hlt := (Game.mem_above.1 hmem).2
    rw [hhead] at hlt
    exact Nat.lt_asymm hlt (hbelow i)
  have hrise : ∀ i, s.standing g (play i) ≤ s.standing g (play (i + 1)) := fun i =>
    hmove i ▸ hs.standing_cycle ha hplay i
  have hconstant := eq_first_of_often (f := fun i => s.standing g (play i)) hrise fun i => by
    obtain ⟨j, hj, heq⟩ := hplay.often i
    exact ⟨j, hj, by rw [heq]⟩
  have hcloser : ∀ i, (s.profile (play (i + 1))).distance < (s.profile (play i)).distance := by
    intro i
    have hsame : s.standing g (s.move (play i)) = s.standing g (play (i + 1)) :=
      ((hmove i).trans (hconstant i)).trans (hconstant (i + 1)).symm
    have hne : (s.profile (play i)).head ≠ play i := by
      intro heq
      have hlt := hbelow i
      rw [← hhead i, heq] at hlt
      exact Nat.lt_irrefl _ hlt
    have hle := ha.nears _ _ (hplay.arc i) ((hhead (i + 1)).trans (hhead i).symm) hsame hne
    unfold pace Game.pace at hle
    rw [hhead i, heven, if_pos rfl, if_pos rfl] at hle
    omega
  exact no_descent (f := fun i => (s.profile (play i)).distance)
    (fun i => Nat.le_of_lt (hcloser i)) fun i => ⟨i, Nat.le_refl i, hcloser i⟩

/-- The cycle is no worse than the old head. -/
theorem worth_cycle_le (hs : s.Valued g choice) (ha : s.Advances g better) {play : Nat → Nat}
    (hplay : Cycle g better play) : g.worth (s.profile (play 0)).head ≤ g.worth (play 0) := by
  have hactive := (hplay.arc 0).1
  have hlt : ∀ {v}, g.contains v = true → v < g.vertexCount := hs.keeps.coherent.contains_lt
  rcases Nat.lt_trichotomy (g.rank (s.profile (play 0)).head) (g.rank (play 0)) with
    habove | heq | hbelow
  · have hworth := Game.worth_lt_of_rank_lt habove
    rw [hs.even_of_cycle_above ha hplay habove, if_pos rfl] at hworth
    exact Int.le_of_lt hworth
  · rw [Game.rank_inj (hlt (hs.head_active _ hactive)) (hlt hactive) heq]
  · have hworth := Game.worth_lt_of_rank_lt hbelow
    rw [hs.odd_of_cycle_below ha hplay hbelow, if_neg (by decide)] at hworth
    exact Int.le_of_lt hworth

end Valued

/-! ## Plays that come to their cycle -/

/-- A walk along arcs that comes to `head`, the greatest vertex of the cycle in which it ends, after
so many steps and not before. -/
structure Arrives (g : Game) (better next : Nat → Nat) (v head distance : Nat) : Prop where
  arc : ∀ i, g.Arc better (next^[i] v) (next^[i + 1] v)
  arrives : next^[distance] v = head
  first : ∀ i, i < distance → next^[i] v ≠ head
  rank_le : ∀ i, g.rank (next^[i] head) ≤ g.rank head
  often : ∀ i, ∃ j, i ≤ j ∧ next^[j] head = head

def standingAlong (g : Game) (next : Nat → Nat) (v head distance : Nat) : Nat :=
  g.standing (g.above head) fun x => decide (x ∈ List.iterate next v distance)

namespace Valued

theorem at_head (hs : s.Valued g choice) (hu : g.contains u = true)
    (hself : (s.profile u).head = u) :
    (s.profile u).before = [] ∧ (s.profile (s.move u)).before = [] ∧ (s.profile u).distance = 0 := by
  obtain ⟨above, habove⟩ := hs.surveyed u hu
  rw [hself] at habove
  exact ⟨habove.before_head, habove.before_move_head, habove.zero⟩

theorem arrives (ht : t.Valued g better) (hv : g.contains v = true) :
    Arrives g better t.move v (t.profile v).head (t.profile v).distance := by
  obtain ⟨above, habove⟩ := ht.surveyed v hv
  exact {
    arc := by
      intro i
      rw [Function.iterate_succ_apply']
      exact (habove.moves _ (habove.region_iterate ⟨hv, rfl⟩ i)).1
    arrives := habove.iterate_distance ⟨hv, rfl⟩
    first := fun i hi => habove.iterate_ne_head ⟨hv, rfl⟩ hi
    rank_le := habove.rank_iterate_head_le
    often := habove.often_head habove.head_mem }

theorem standing_eq (ht : t.Valued g better) (hv : g.contains v = true) :
    t.standing g v = standingAlong g t.move v (t.profile v).head (t.profile v).distance := by
  obtain ⟨above, habove⟩ := ht.surveyed v hv
  refine Game.standing_congr fun x hx => decide_eq_decide.2 ?_
  rw [habove.mem_before_iff_iterate ⟨hv, rfl⟩, List.mem_iterate]
  exact ⟨fun ⟨_, i, hi, heq⟩ => ⟨i, hi, heq.symm⟩,
    fun ⟨i, hi, heq⟩ => ⟨(Game.mem_above.1 hx).2, i, hi, heq.symm⟩⟩

end Valued

namespace Arrives

variable {next : Nat → Nat} {head distance : Nat}

theorem step (h : Arrives g better next v head distance) : g.Arc better v (next v) := h.arc 0

theorem active (h : Arrives g better next v head distance) : g.contains v = true := h.step.1

theorem cycle (h : Arrives g better next v head distance) :
    Cycle g better fun i => next^[i] head where
  arc := by
    intro i
    have harc := h.arc (i + distance)
    rw [Nat.add_right_comm, Function.iterate_add_apply, Function.iterate_add_apply, h.arrives] at harc
    exact harc
  rank_le := h.rank_le
  often := h.often

theorem tail (h : Arrives g better next v head (distance + 1)) :
    Arrives g better next (next v) head distance where
  arc i := h.arc (i + 1)
  arrives := h.arrives
  first i hi := h.first (i + 1) (Nat.succ_lt_succ hi)
  rank_le := h.rank_le
  often := h.often

/-- The walk does not come back before it has come to the head, for then it would never come
there. -/
theorem fresh (h : Arrives g better next v head (distance + 1)) :
    v ∉ List.iterate next (next v) distance := by
  intro hmem
  obtain ⟨i, hi, heq⟩ := List.mem_iterate.1 hmem
  have hback : next^[i + 1] v = v := heq.symm
  have harrives := h.arrives
  rw [show distance + 1 = distance - i + (i + 1) by omega, Function.iterate_add_apply, hback]
    at harrives
  exact h.first (distance - i) (by omega) harrives

/-- The cycle in which a play ends is no worse than the old head. -/
theorem worth_le (h : Arrives g better next v head distance) (hs : s.Valued g choice)
    (ha : s.Advances g better) : g.worth (s.profile v).head ≤ g.worth head := by
  have hwalk : ∀ i, g.worth (s.profile v).head ≤ g.worth (s.profile (next^[i] v)).head := by
    intro i
    induction i with
    | zero => exact Int.le_refl _
    | succ i ih => exact Int.le_trans ih (ha.rises _ _ (h.arc i))
  have hlast := hwalk distance
  rw [h.arrives] at hlast
  exact Int.le_trans hlast (hs.worth_cycle_le ha h.cycle)

theorem head_next (h : Arrives g better next v head (distance + 1)) (hs : s.Valued g choice)
    (ha : s.Advances g better) (hhead : (s.profile v).head = head) :
    (s.profile (next v)).head = head := by
  have hrises := ha.rises _ _ h.step
  have hle := h.tail.worth_le hs ha
  have hlt : ∀ {v}, g.contains v = true → v < g.vertexCount := hs.keeps.coherent.contains_lt
  have hactive := hs.head_active v h.active
  rw [hhead] at hactive hrises
  exact Game.worth_inj (hlt (hs.head_active _ h.tail.active)) (hlt hactive)
    (Int.le_antisymm hle hrises)

theorem compare_standing_next (h : Arrives g better next v head (distance + 1))
    (hs : s.Valued g choice) (hhead : (s.profile v).head = head) :
    compare (s.standing g v) (standingAlong g next v head (distance + 1)) =
      compare (s.standing g (s.move v)) (standingAlong g next (next v) head distance) := by
  unfold standing standingAlong Charted.standing
  rw [(hs.move_active h.active).2, hhead]
  refine Game.compare_standing_insert (u := v) (fun x _ hne => ?_) (fun x _ hne => ?_) ?_
    fun habove => ?_
  · exact decide_eq_decide.2 (hs.mem_before_move_iff h.active hne).symm
  · refine decide_eq_decide.2 ?_
    rw [List.iterate, List.mem_cons, or_iff_right hne]
  · rw [decide_eq_false (hs.not_mem_before_move h.active), decide_eq_false h.fresh]
  · have hrank := (Game.mem_above.1 habove).2
    rw [decide_eq_true (hs.mem_before_self h.active (hhead ▸ hrank)),
      decide_eq_true (show v ∈ List.iterate next v (distance + 1) from List.mem_cons_self)]

/-- A play that comes to the old head has no worse standing, and where that stays, no worse a
distance. -/
theorem not_worse (h : Arrives g better next v head distance) (hs : s.Valued g choice)
    (ha : s.Advances g better) (hhead : (s.profile v).head = head) :
    s.standing g v ≤ standingAlong g next v head distance ∧
      (s.standing g v = standingAlong g next v head distance →
        s.pace g v ≤ g.pace head distance) := by
  induction distance generalizing v with
  | zero =>
      obtain rfl : v = head := h.arrives
      obtain ⟨hbefore, -, hzero⟩ := hs.at_head h.active hhead
      unfold standing standingAlong Charted.standing pace
      rw [hhead, hbefore, hzero]
      exact ⟨Nat.le_refl _, fun _ => Int.le_refl _⟩
  | succ distance ih =>
      have hself : (s.profile v).head ≠ v := fun heq =>
        h.first 0 (Nat.succ_pos distance) (heq.symm.trans hhead)
      have hnext := h.head_next hs ha hhead
      obtain ⟨hle, hpace⟩ := ih h.tail hnext
      have hascends := ha.ascends _ _ h.step (hnext.trans hhead.symm)
      have hcompare := h.compare_standing_next hs hhead
      refine ⟨?_, fun heq => ?_⟩
      · rw [← Nat.compare_ne_gt, hcompare, Nat.compare_ne_gt]
        exact Nat.le_trans hascends hle
      · rw [Nat.compare_eq_eq.2 heq, eq_comm, Nat.compare_eq_eq] at hcompare
        have hnears := ha.nears _ _ h.step (hnext.trans hhead.symm) (by omega) hself
        have hpace := hpace (by omega)
        unfold pace at hnears hpace ⊢
        rw [hhead] at hnears ⊢
        rw [hnext] at hpace
        exact Int.le_trans hnears (Game.pace_succ_le_iff.2 hpace)

theorem rate_lt_of_head {profile : Profile}
    (h : Arrives g better next v profile.head profile.distance) (hs : s.Valued g choice)
    (ha : s.Advances g better) (hlists : g.Lists profile)
    (hhead : profile.head ≠ (s.profile v).head) :
    Preference.cmp (s.rating v) (s.rate profile) = .lt := by
  have hlt : ∀ {v}, g.contains v = true → v < g.vertexCount := hs.keeps.coherent.contains_lt
  have hworth := Int.lt_iff_le_and_ne.2 ⟨h.worth_le hs ha, fun heq => hhead
    (Game.worth_inj (hlt (hs.head_active _ h.active)) (hlt hlists.head_active) heq).symm⟩
  unfold Preference.cmp
  rw [rating_eq_rate, hs.keeps.cmp_head (hs.lists h.active) hlists, Int.compare_eq_lt.2 hworth]
  rfl

/-- A play along arcs is rated no worse than the vertex from which it starts. -/
theorem rate_isLE {profile : Profile}
    (h : Arrives g better next v profile.head profile.distance) (hs : s.Valued g choice)
    (ha : s.Advances g better) (hlists : g.Lists profile)
    (hstanding : g.standingOf profile =
      standingAlong g next v profile.head profile.distance) :
    (Preference.cmp (s.rating v) (s.rate profile)).isLE := by
  by_cases hhead : profile.head = (s.profile v).head
  · rw [rating_eq_rate, hs.keeps.cmp_rate (hs.lists h.active) hlists hhead, hstanding]
    obtain ⟨hle, hpace⟩ := h.not_worse hs ha hhead.symm
    rcases Nat.lt_or_eq_of_le hle with hlt | heq
    · rw [show g.standingOf (s.profile v) = s.standing g v from rfl, Nat.compare_eq_lt.2 hlt]
      rfl
    · rw [show g.standingOf (s.profile v) = s.standing g v from rfl, Nat.compare_eq_eq.2 heq,
        Ordering.eq_then]
      exact Ordering.ne_gt_iff_isLE.1 (Int.compare_ne_gt.2 (hpace heq))
  · rw [h.rate_lt_of_head hs ha hlists hhead]
    rfl

end Arrives

/-! ## Ratings before and after -/

namespace Valued

/-- No head becomes worse. -/
theorem worth_head_le (hs : s.Valued g choice) (ht : t.Valued g better) (ha : s.Advances g better)
    (hv : g.contains v = true) : g.worth (s.profile v).head ≤ g.worth (t.profile v).head :=
  (ht.arrives hv).worth_le hs ha

theorem compare_standing_move (hs : s.Valued g choice) (ht : t.Valued g better)
    (hu : g.contains u = true) (hhead : (t.profile u).head = (s.profile u).head) :
    compare (s.standing g u) (t.standing g u) =
      compare (s.standing g (s.move u)) (t.standing g (t.move u)) := by
  unfold standing Charted.standing
  rw [(hs.move_active hu).2, (ht.move_active hu).2, hhead]
  refine Game.compare_standing_insert (u := u) (fun x _ hne => ?_) (fun x _ hne => ?_) ?_
    fun habove => ?_
  · exact decide_eq_decide.2 (hs.mem_before_move_iff hu hne).symm
  · exact decide_eq_decide.2 (ht.mem_before_move_iff hu hne).symm
  · rw [decide_eq_false (hs.not_mem_before_move hu), decide_eq_false (ht.not_mem_before_move hu)]
  · have hrank := (Game.mem_above.1 habove).2
    rw [decide_eq_true (hs.mem_before_self hu hrank),
      decide_eq_true (ht.mem_before_self hu (hhead ▸ hrank))]

/-- Where the head stays, it stays along the play as well. -/
theorem head_move_eq (hs : s.Valued g choice) (ht : t.Valued g better) (ha : s.Advances g better)
    (hu : g.contains u = true) (hhead : (t.profile u).head = (s.profile u).head) :
    (s.profile (t.move u)).head = (s.profile u).head := by
  obtain ⟨hmove, hsame⟩ := ht.move_active hu
  have hrises := ha.rises u _ (ht.move_arc hu)
  have hle := hs.worth_head_le ht ha hmove
  rw [hsame, hhead] at hle
  have hlt : ∀ {v}, g.contains v = true → v < g.vertexCount := hs.keeps.coherent.contains_lt
  exact Game.worth_inj (hlt (hs.head_active _ hmove)) (hlt (hs.head_active _ hu))
    (Int.le_antisymm hle hrises)

/-- Where the head stays, the standing does not fall, and where both stay, the distance does not
become worse. -/
theorem not_worse (hs : s.Valued g choice) (ht : t.Valued g better) (ha : s.Advances g better)
    (hu : g.contains u = true) (hhead : (t.profile u).head = (s.profile u).head) :
    s.standing g u ≤ t.standing g u ∧
      (s.standing g u = t.standing g u → s.pace g u ≤ t.pace g u) := by
  rw [ht.standing_eq hu]
  exact (ht.arrives hu).not_worse hs ha hhead.symm

theorem rating_lt_of_head (hs : s.Valued g choice) (ht : t.Valued g better)
    (ha : s.Advances g better) (hu : g.contains u = true)
    (hhead : (t.profile u).head ≠ (s.profile u).head) :
    Preference.cmp (s.rating u) (t.rating u) = .lt := by
  rw [rating_eq_rate t, hs.keeps.rate_eq ht.keeps (ht.lists hu)]
  exact (ht.arrives hu).rate_lt_of_head hs ha (ht.lists hu) hhead

theorem rating_isLE (hs : s.Valued g choice) (ht : t.Valued g better) (ha : s.Advances g better)
    (hu : g.contains u = true) : (Preference.cmp (s.rating u) (t.rating u)).isLE := by
  rw [rating_eq_rate t, hs.keeps.rate_eq ht.keeps (ht.lists hu)]
  exact (ht.arrives hu).rate_isLE hs ha (ht.lists hu) (ht.standing_eq hu)

theorem rating_lt (hs : s.Valued g choice) (ht : t.Valued g better) (ha : s.Advances g better)
    (hu : g.contains u = true) (howner : g.owner u = .even)
    (hlt : Preference.cmp (s.preference u (choice u)) (s.preference u (better u)) = .lt) :
    Preference.cmp (s.rating u) (t.rating u) = .lt := by
  by_cases hhead : (t.profile u).head = (s.profile u).head
  · obtain ⟨hmove, hsame⟩ := ht.move_active hu
    obtain ⟨hmove', hsame'⟩ := hs.move_active hu
    have hhead' := hs.head_move_eq ht ha hu hhead
    obtain ⟨hle, hpace⟩ := hs.not_worse ht ha hmove (by rw [hsame, hhead, hhead'])
    rw [← ht.keeps.move u hu howner, ← hs.keeps.move u hu howner,
      hs.cmp_preference hmove' hmove (hhead'.trans hsame'.symm)] at hlt
    by_cases hself : (s.profile u).head = u
    · -- from a head nothing above it is met before or after, so no switch was made there
      obtain ⟨-, hbefore, -⟩ := hs.at_head hu hself
      obtain ⟨-, hbefore', -⟩ := ht.at_head hu (hhead.trans hself)
      have heq : s.standing g (s.move u) = t.standing g (t.move u) := by
        unfold standing Charted.standing
        rw [hsame, hsame', hhead, hbefore, hbefore']
      rw [if_pos hself, Ordering.then_eq] at hlt
      have hlt := Nat.compare_eq_lt.1 hlt
      omega
    · rw [hs.cmp_rating ht hu hhead, hs.compare_standing_move ht hu hhead]
      rw [if_neg hself] at hlt
      have hascends := ha.ascends u _ (ht.move_arc hu) hhead'
      rcases Nat.lt_or_eq_of_le (Nat.le_trans hascends hle) with hrise | heq
      · rw [Nat.compare_eq_lt.2 hrise]
        rfl
      · rw [Nat.compare_eq_eq.2 (by omega), Ordering.eq_then, Int.compare_eq_lt] at hlt
        have hpace := hpace (by omega)
        rw [Nat.compare_eq_eq.2 heq, Ordering.eq_then, Int.compare_eq_lt]
        have hlt := Int.lt_of_lt_of_le hlt hpace
        unfold pace at hlt ⊢
        rw [hsame, hsame', hhead] at hlt
        rw [hs.distance_move hu hself, ht.distance_move hu (hhead ▸ hself), hhead]
        rw [← Int.not_le, Game.pace_succ_le_iff, Int.not_le]
        exact hlt
  · exact hs.rating_lt_of_head ht ha hu hhead

end Valued

end Improvement

end ParityGames
