import ParityGames.Improvement.Solve
import ParityGames.Proofs.Improvement.Valued

/-! # Stable strategies

Against the moves of player even the value of a head never falls along a play, and the greatest
vertex that comes back is no worse than the head: so player even wins where heads are good. If no
vertex has a better move, the value never rises either while player odd keeps to its response, and
a good vertex cannot come back above a bad head or below it, since the standing, or the distance
where the standing stays, would fall for ever.
-/

namespace ParityGames

open Relation

namespace Improvement

variable {s : Improvement} {g : Game} {choice : Nat → Nat} {u v w head : Nat}

theorem isLE_best_of_lastGreatest {options : List (Preference × Nat)} {best : Preference × Nat}
    (h : Ranking.lastGreatest (fun a b => Preference.cmp a.1 b.1) options = some best) :
    ∀ a ∈ options, (Preference.cmp a.1 best.1).isLE := by
  have _ := @transCmp_on _ _ Preference.cmp _ (@Prod.fst Preference Nat)
  refine @Ranking.le_lastGreatest _ (fun a b => (Preference.cmp a.1 b.1).isLE) _ _
    (fun a => ?_) (fun a b c => Std.TransCmp.isLE_trans) (fun a _ b _ => ?_) best h
  · have heq : Preference.cmp a.1 a.1 = .eq := Std.ReflCmp.compare_self
    rw [heq]
    rfl
  · split
    · rename_i hgt
      rw [Std.OrientedCmp.gt_iff_lt.1 hgt]
      rfl
    · rename_i hgt
      exact Ordering.ne_gt_iff_isLE.1 hgt

/-- In a stable state no successor is better than the move. -/
theorem isLE_of_stable (hs : s.Keeps g choice) (hstable : s.improve.2 = false)
    (hu : g.contains u = true) (howner : g.owner u = .even) (hv : v ∈ g.successors u) :
    (Preference.cmp (s.preference u v) (s.preference u (s.move u))).isLE := by
  have hnone : s.betterMove? u = none := by
    have hempty : s.switches = [] := by
      have hstable : (!s.switches.isEmpty) = false := hstable
      rw [Bool.not_eq_false', List.isEmpty_iff] at hstable
      exact hstable
    unfold switches at hempty
    have hfilter := List.filterMap_eq_nil_iff.1 hempty u (by
      rw [hs.game, List.mem_filter, Game.mem_vertices, decide_eq_true_eq]
      exact ⟨hu, howner⟩)
    simpa using hfilter
  unfold betterMove? at hnone
  rw [hs.game] at hnone
  have hmem : (s.preference u v, v) ∈ (g.successors u).map fun v => (s.preference u v, v) :=
    List.mem_map.2 ⟨v, hv, rfl⟩
  cases hbest : Ranking.lastGreatest (fun a b => Preference.cmp a.1 b.1)
      ((g.successors u).map fun v => (s.preference u v, v)) with
  | none =>
      rw [Ranking.lastGreatest_eq_none_iff] at hbest
      rw [hbest] at hmem
      cases hmem
  | some best =>
      have hle := isLE_best_of_lastGreatest hbest _ hmem
      simp only [hbest] at hnone
      split at hnone
      · cases hnone
      · rename_i hgt
        exact Std.TransCmp.isLE_trans hle (Ordering.ne_gt_iff_isLE.1 hgt)

namespace Valued

theorem winner_eq (hs : s.Valued g choice) (hv : g.contains v = true) :
    s.winner v = Player.ofPriority (g.priorityOf (s.profile v).head) :=
  hs.keeps.winner_relevance (hs.head_active v hv)

theorem worth_head_le_of_isLE (hs : s.Valued g choice) (hv : g.contains v = true)
    (hw : g.contains w = true)
    (h : (Preference.cmp (s.preference u v) (s.preference u w)).isLE) :
    g.worth (s.profile v).head ≤ g.worth (s.profile w).head := by
  have hhead : (Reward.cmp (s.reward (s.profile v).head) (s.reward (s.profile w).head)).isLE :=
    Ordering.isLE_left_of_isLE_then (Ordering.isLE_left_of_isLE_then h)
  rw [hs.keeps.cmp_reward (hs.head_active v hv) (hs.head_active w hw)] at hhead
  exact Int.compare_ne_gt.1 (Ordering.ne_gt_iff_isLE.2 hhead)

/-- In the component of an odd head the standing decides, and then the distance. -/
theorem standing_le_of_isLE (hs : s.Valued g choice) {region : Nat → Prop} {above : List Nat}
    (hcharted : s.Charted g choice head region above)
    (hregion : ∀ v, region v → g.contains v = true ∧ (s.profile v).head = head)
    (hodd : Player.ofPriority (g.priorityOf head) = .odd) (hv : region v) (hw : region w)
    (h : (Preference.cmp (s.preference u v) (s.preference u w)).isLE) :
    Charted.standing s g above v ≤ Charted.standing s g above w ∧
      (Charted.standing s g above v = Charted.standing s g above w → (s.profile u).head ≠ u →
        (s.profile v).distance ≤ (s.profile w).distance) := by
  obtain ⟨hvActive, hvHead⟩ := hregion v hv
  obtain ⟨hwActive, hwHead⟩ := hregion w hw
  have hcompare := hs.keeps.compareLex_rewards
    (fun x hx => (hregion x ((hcharted.mem_above x).1 hx).1).1) hcharted.sorted
    (fun x => x ∈ (s.profile v).before) (fun x => x ∈ (s.profile w).before)
  rw [← hcharted.listed v hv, ← hcharted.listed w hw] at hcompare
  have hself : Reward.cmp (s.reward (s.profile v).head) (s.reward (s.profile w).head) = .eq := by
    rw [hvHead, hwHead]
    exact Std.ReflCmp.compare_self
  unfold Preference.cmp preference at h
  simp only [hself, hcompare, Ordering.eq_then] at h
  have hle := Ordering.isLE_left_of_isLE_then h
  refine ⟨Nat.compare_ne_gt.1 (Ordering.ne_gt_iff_isLE.2 hle), fun heq hne => ?_⟩
  have hwinner : s.winner v = .odd := by
    rw [winner_eq hs hvActive, hvHead, hodd]
  have hwinner' : s.winner w = .odd := by
    rw [winner_eq hs hwActive, hwHead, hodd]
  unfold Charted.standing at heq
  rw [Nat.compare_eq_eq.2 heq, Ordering.eq_then, if_neg hne, if_neg hne, hwinner, hwinner'] at h
  exact Nat.compare_ne_gt.1 (Ordering.ne_gt_iff_isLE.2 h)

/-- A step of a play in which player odd keeps to its response. -/
theorem isLE_of_step (hs : s.Valued g choice) (hstable : s.improve.2 = false)
    (hu : g.contains u = true) (hedge : v ∈ g.successors u)
    (hmove : g.owner u = .odd → v = s.move u) :
    (Preference.cmp (s.preference u v) (s.preference u (s.move u))).isLE := by
  cases howner : g.owner u with
  | even => exact isLE_of_stable hs.keeps hstable hu howner hedge
  | odd =>
      have heq : Preference.cmp (s.preference u v) (s.preference u (s.move u)) = .eq := by
        rw [hmove howner]
        exact Std.ReflCmp.compare_self
      rw [heq]
      rfl

/-! ## Plays against the moves of player even -/

/-- Player even wins where the heads are good. -/
theorem dominion_even (hs : s.Valued g choice) {moves : Nat → Option Nat}
    (hmoves : ∀ v, g.contains v = true → s.winner v = .even → g.owner v = .even →
      moves v = some (s.move v)) :
    g.Dominion .even {v | g.contains v = true ∧ s.winner v = .even} moves := by
  have hgood : ∀ v, g.contains v = true →
      (s.winner v = .even ↔ 0 < g.worth (s.profile v).head) := by
    intro v hv
    rw [hs.winner_eq hv, Game.worth_pos_iff]
  have hnext : ∀ u v, g.contains u = true ∧ s.winner u = .even → g.Arc choice u v →
      g.contains v = true ∧ s.winner v = .even := by
    intro u v hu harc
    have hv := Game.contains_of_mem_successors harc.2.1
    have hrises := hs.rises u v harc
    have hpos := (hgood u hu.1).1 hu.2
    exact ⟨hv, (hgood v hv).2 (by omega)⟩
  exact {
    active := fun v hv => hv.1
    keeps := by
      intro v hv howner
      have hmove := hs.keeps.move v hv.1 howner
      have hedge := hs.keeps.chosen v hv.1 howner
      refine ⟨choice v, hnext v _ hv ⟨hv.1, hedge, fun _ => rfl⟩, ?_, hedge⟩
      rw [hmoves v hv.1 hv.2 howner, hmove]
    traps := by
      intro v hv howner w hw
      exact hnext v w hv ⟨hv.1, hw, fun heven => absurd heven howner⟩
    wins := by
      intro play hplay hstay
      have harc : ∀ i, g.Arc choice (play i) (play (i + 1)) := by
        intro i
        obtain ⟨hin, hwinner⟩ := hstay i
        refine ⟨hin, (hplay i).1, fun howner => ?_⟩
        rw [← hs.keeps.move _ hin howner]
        exact (hplay i).2 howner _ (hmoves _ hin hwinner howner)
      -- Along the play the heads only get better, so from some place on there is one head.
      obtain ⟨head, k, hhead⟩ := Game.exists_settled hs.keeps.coherent
        (fun i => hs.head_active _ (hstay i).1)
        (Or.inl fun i => hs.rises _ _ (harc i))
      obtain ⟨top, n, hle, hoften⟩ := @Game.exists_top g hs.keeps.coherent (tail play k)
        fun i => (hstay (k + i)).1
      obtain ⟨j, -, hj⟩ := hoften 0
      have htop := hstay (k + j)
      have htopHead := hhead (k + j) (by omega)
      rw [tail_apply] at hj
      rw [hj] at htop htopHead
      -- The play goes through closed walks in its component, and these are no worse than its head.
      have hworth := hs.loops top (transGen_of_often (k := n) (fun i hi => by
        have hsame := hhead (k + i) (by omega)
        exact ⟨⟨harc (k + i), hsame.trans htopHead.symm⟩, hle i hi⟩) hoften)
      have hpos := (hgood top htop.1).1 htop.2
      have heven : Player.ofPriority (g.priorityOf top) = .even :=
        Game.worth_pos_iff.1 (by omega)
      rw [← heven]
      exact (Game.wonBy_of_top_rank hs.keeps.coherent htop.1 hle hoften).of_tail }

/-! ## Plays against the response of player odd -/

section

variable {region : Nat → Prop} {above : List Nat} {play : Nat → Nat} {top : Nat}

/-- What comes back above a bad head is bad: its digit would be lost again and again. -/
theorem not_even_above (hs : s.Valued g choice)
    (hcharted : s.Charted g choice head region above)
    (hregion : ∀ v, region v → g.contains v = true ∧ (s.profile v).head = head)
    (hodd : Player.ofPriority (g.priorityOf head) = .odd) (hin : ∀ i, region (play i))
    (hsteps : ∀ i, (Preference.cmp (s.preference (play i) (play (i + 1)))
      (s.preference (play i) (s.move (play i)))).isLE)
    (hle : ∀ i, g.rank (play i) ≤ g.rank top) (hoften : ∀ i, ∃ j, i ≤ j ∧ play j = top)
    (habove : g.rank head < g.rank top) :
    Player.ofPriority (g.priorityOf top) ≠ .even := by
  intro heven
  obtain ⟨j, -, hj⟩ := hoften 0
  have htop : top ∈ above := (hcharted.mem_above top).2 ⟨hj ▸ hin j, habove⟩
  obtain ⟨upper, lower, hsplit⟩ := List.append_of_mem htop
  have hsorted := hcharted.sorted
  rw [hsplit] at hsorted
  have hupper : ∀ x ∈ upper, g.rank top < g.rank x := fun x hx =>
    (List.pairwise_append.1 hsorted).2.2 x hx top List.mem_cons_self
  have hmem : ∀ x ∈ upper ++ [top], x ∈ above := by
    intro x hx
    rw [hsplit]
    rcases List.mem_append.1 hx with hx | hx
    · exact List.mem_append_left _ hx
    · rw [List.mem_singleton.1 hx]
      exact List.mem_append_right _ List.mem_cons_self
  have hnext : ∀ i, Charted.standing s g (upper ++ [top]) (play (i + 1)) ≤
      Charted.standing s g (upper ++ [top]) (s.move (play i)) := by
    intro i
    have hstanding := (hs.standing_le_of_isLE hcharted hregion hodd (hin (i + 1))
      (hcharted.moves _ (hin i)).2 (hsteps i)).1
    unfold Charted.standing at hstanding ⊢
    rw [show above = (upper ++ [top]) ++ lower by simp [hsplit]] at hstanding
    exact Game.standing_le_of_append_le hstanding
  -- Down to the digit of `top` the standing never rises, and it falls whenever `top` is met.
  refine no_descent (f := fun i => Charted.standing s g (upper ++ [top]) (play i))
    (fun i => ?_) fun i => ?_
  · have hstep := hnext i
    by_cases htop : play i = top
    · have hlt := hcharted.standing_move_lt hsplit heven
      rw [← htop] at hlt hstep ⊢
      omega
    · have hnot : play i ∉ upper ++ [top] := by
        intro hmem
        rcases List.mem_append.1 hmem with hmem | hmem
        · exact Nat.not_lt_of_le (hle i) (hupper _ hmem)
        · exact htop (List.mem_singleton.1 hmem)
      rw [hcharted.standing_move hmem (hin i) hnot] at hstep
      exact hstep
  · obtain ⟨j, hj, hjt⟩ := hoften i
    refine ⟨j, hj, ?_⟩
    have hstep := hnext j
    have hlt := hcharted.standing_move_lt hsplit heven
    rw [hjt] at hstep
    simp only [hjt]
    omega

/-- A play cannot stay below a bad head: it would come closer to the head for ever. -/
theorem not_below (hs : s.Valued g choice)
    (hcharted : s.Charted g choice head region above)
    (hregion : ∀ v, region v → g.contains v = true ∧ (s.profile v).head = head)
    (hodd : Player.ofPriority (g.priorityOf head) = .odd) (hin : ∀ i, region (play i))
    (hsteps : ∀ i, (Preference.cmp (s.preference (play i) (play (i + 1)))
      (s.preference (play i) (s.move (play i)))).isLE) :
    ¬ ∀ i, g.rank (play i) < g.rank head := by
  intro hbelow
  refine no_lex_descent (f := fun i => Charted.standing s g above (play i))
    (d := fun i => (s.profile (play i)).distance) fun i => ?_
  have hne : play i ≠ head := by
    intro heq
    have hlt := hbelow i
    rw [heq] at hlt
    exact Nat.lt_irrefl _ hlt
  have hnot : play i ∉ above := fun hmem =>
    Nat.lt_asymm (hbelow i) ((hcharted.mem_above _).1 hmem).2
  obtain ⟨hstanding, hdistance⟩ := hs.standing_le_of_isLE hcharted hregion hodd (hin (i + 1))
    (hcharted.moves _ (hin i)).2 (hsteps i)
  have hcloser := hcharted.distance _ (hin i) hne
  have hself : (s.profile (play i)).head ≠ play i := by
    rw [(hregion _ (hin i)).2]
    exact hne.symm
  rw [hcharted.standing_move (fun x hx => hx) (hin i) hnot] at hstanding hdistance
  rcases Nat.lt_or_eq_of_le hstanding with hlt | heq
  · exact Or.inl hlt
  · have hle := hdistance heq hself
    exact Or.inr ⟨heq, by omega⟩

/-- The greatest vertex that comes back in the component of a bad head is bad. -/
theorem top_odd (hs : s.Valued g choice) (hstable : s.improve.2 = false)
    (hchart : ∀ v, g.contains v = true → s.winner v = .odd →
      ∃ above, s.Charted g choice (s.profile v).head
        (fun u => g.contains u = true ∧ (s.profile u).head = (s.profile v).head) above)
    (hin : ∀ i, g.contains (play i) = true ∧ s.winner (play i) = .odd)
    (hhead : ∀ i, (s.profile (play i)).head = head)
    (hedge : ∀ i, play (i + 1) ∈ g.successors (play i))
    (hmove : ∀ i, g.owner (play i) = .odd → play (i + 1) = s.move (play i))
    (hle : ∀ i, g.rank (play i) ≤ g.rank top) (hoften : ∀ i, ∃ j, i ≤ j ∧ play j = top) :
    Player.ofPriority (g.priorityOf top) = .odd := by
  obtain ⟨hstart, hwinner⟩ := hin 0
  obtain ⟨above, hcharted⟩ := hchart _ hstart hwinner
  have hodd := hs.winner_eq hstart
  rw [hwinner, hhead] at hodd
  rw [hhead] at hcharted
  have hregion : ∀ i, g.contains (play i) = true ∧ (s.profile (play i)).head = head :=
    fun i => ⟨(hin i).1, hhead i⟩
  have hsteps := fun i => hs.isLE_of_step hstable (hin i).1 (hedge i) (hmove i)
  obtain ⟨j, -, hj⟩ := hoften 0
  have htop := (hin j).1
  have hheadActive := hs.head_active _ hstart
  rw [hj] at htop
  rw [hhead] at hheadActive
  rcases Nat.lt_trichotomy (g.rank head) (g.rank top) with habove | heq | hbelow
  · have hnot := hs.not_even_above hcharted (fun v hv => hv) hodd.symm hregion hsteps hle hoften
      habove
    exact Player.eq_opponent_of_ne hnot
  · have hlt := fun {v} => @Game.Coherent.contains_lt g hs.keeps.coherent v
    rw [← Game.rank_inj (hlt hheadActive) (hlt htop) heq, ← hodd]
  · refine absurd (fun i => ?_) (hs.not_below hcharted (fun v hv => hv) hodd.symm hregion hsteps)
    exact Nat.lt_of_le_of_lt (hle i) hbelow

end

/-- If no vertex has a better move, player odd wins where the heads are bad. -/
theorem dominion_odd (hs : s.Valued g choice) (hstable : s.improve.2 = false)
    {moves : Nat → Option Nat} (hmoves : ∀ v, g.contains v = true → s.winner v = .odd →
      g.owner v = .odd → moves v = some (s.move v)) :
    g.Dominion .odd {v | g.contains v = true ∧ s.winner v = .odd} moves := by
  have hbad : ∀ v, g.contains v = true → (s.winner v = .odd ↔ g.worth (s.profile v).head < 0) := by
    intro v hv
    rw [hs.winner_eq hv, Game.worth_neg_iff]
  have hchart : ∀ v, g.contains v = true → s.winner v = .odd →
      ∃ above, s.Charted g choice (s.profile v).head
        (fun u => g.contains u = true ∧ (s.profile u).head = (s.profile v).head) above :=
    fun v hv _ => (hs.surveyed v hv).imp fun _ habove => habove.toCharted
  have hresponse : ∀ v, g.contains v = true → s.winner v = .odd →
      g.Arc choice v (s.move v) ∧ g.contains (s.move v) = true ∧
        (s.profile (s.move v)).head = (s.profile v).head := by
    intro v hv hwinner
    obtain ⟨above, hcharted⟩ := hchart v hv hwinner
    exact hcharted.moves v ⟨hv, rfl⟩
  have hfalls : ∀ u v, g.contains u = true → s.winner u = .odd → v ∈ g.successors u →
      (g.owner u = .odd → v = s.move u) →
      g.worth (s.profile v).head ≤ g.worth (s.profile u).head := by
    intro u v hu hwinner hedge hmove
    obtain ⟨-, hin, hhead⟩ := hresponse u hu hwinner
    have hle := hs.worth_head_le_of_isLE (Game.contains_of_mem_successors hedge) hin
      (hs.isLE_of_step hstable hu hedge hmove)
    rwa [hhead] at hle
  exact {
    active := fun v hv => hv.1
    keeps := by
      intro v hv howner
      obtain ⟨harc, hin, hhead⟩ := hresponse v hv.1 hv.2
      refine ⟨s.move v, ⟨hin, ?_⟩, hmoves v hv.1 hv.2 howner, harc.2.1⟩
      rw [hbad _ hin, hhead, ← hbad v hv.1]
      exact hv.2
    traps := by
      intro v hv howner w hw
      have hin := Game.contains_of_mem_successors hw
      refine ⟨hin, (hbad w hin).2 ?_⟩
      have hle := hfalls v w hv.1 hv.2 hw fun hodd => absurd hodd howner
      have hneg := (hbad v hv.1).1 hv.2
      omega
    wins := by
      intro play hplay hstay
      have hmove : ∀ i, g.owner (play i) = .odd → play (i + 1) = s.move (play i) :=
        fun i howner => (hplay i).2 howner _ (hmoves _ (hstay i).1 (hstay i).2 howner)
      -- Along the play the heads only get worse, so from some place on there is one head.
      obtain ⟨head, k, hhead⟩ := Game.exists_settled hs.keeps.coherent
        (fun i => hs.head_active _ (hstay i).1)
        (Or.inr fun i => hfalls _ _ (hstay i).1 (hstay i).2 (hplay i).1 (hmove i))
      obtain ⟨top, n, hle, hoften⟩ := @Game.exists_top g hs.keeps.coherent (tail play k)
        fun i => (hstay (k + i)).1
      -- What comes back most prominently in the component of this head is bad.
      have htop := @top_odd s g choice head (tail (tail play k) n) top hs hstable hchart
        (fun i => hstay (k + (n + i))) (fun i => hhead (k + (n + i)) (by omega))
        (fun i => (hplay (k + (n + i))).1) (fun i => hmove (k + (n + i)))
        (fun i => hle (n + i) (by omega)) fun i => by
          obtain ⟨j, hj, hjt⟩ := hoften (n + i)
          refine ⟨j - n, by omega, ?_⟩
          rw [tail_apply, Nat.add_sub_cancel' (by omega), hjt]
      obtain ⟨j, -, hj⟩ := hoften 0
      have hin := hstay (k + j)
      rw [tail_apply] at hj
      rw [hj] at hin
      rw [← htop]
      exact (Game.wonBy_of_top_rank hs.keeps.coherent hin.1 hle hoften).of_tail }

end Valued

end Improvement

end ParityGames
