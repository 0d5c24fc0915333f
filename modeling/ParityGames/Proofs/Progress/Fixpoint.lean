import ParityGames.Proofs.Progress.Solved

/-! # The least measures that are their own lifts

Lifting never takes a vertex above its own lift, and it ends when no vertex is below. Then all
vertices have their own lifts, and no assignment in which they do is smaller. So it makes no
difference in which order the vertices were lifted.
-/

namespace ParityGames

namespace ProgressMeasures

variable {g : Game} {p : Player} {m m' : ProgressMeasures} {table : VertexTable Measure} {v : Nat}

def assign (m : ProgressMeasures) (table : VertexTable Measure) : ProgressMeasures :=
  { m with measures := table }

/-- The measures are within the bounds, and every active vertex has its own lift. -/
structure Fixed (m : ProgressMeasures) : Prop where
  length : m.measures.length = m.game.vertexCount
  fits : ∀ v, m.game.contains v = true → (m.measure v).Fits m.bounds
  eq_lift : ∀ v, m.game.contains v = true → m.measure v = (m.lift v).1

theorem Proper.fixed (hm : m.Proper) (hrising : m.Rising)
    (hsettled : ∀ v, m.game.contains v = true → m.Settled v) : m.Fixed where
  length := hm.length
  fits := hm.fits
  eq_lift := fun v hv => Measure.eq_of_level_eq (hm.fits v hv) (hm.fits_lift hv)
    (Nat.le_antisymm (hrising v hv) (hsettled v hv))

theorem Fixed.proper (h : (m.assign table).Fixed) (hm : m.Proper) : (m.assign table).Proper :=
  ⟨hm.coherent, hm.bounds_eq, hm.low, h.length, h.fits⟩

namespace LiftedTo

theorem eq_assign (h : m.LiftedTo m') : m' = m.assign m'.measures := by
  obtain ⟨game, player, bounds, measures⟩ := m'
  obtain rfl : game = m.game := h.game
  obtain rfl : player = m.player := h.player
  obtain rfl : bounds = m.bounds := h.bounds
  rfl

theorem cmp_ne_gt (h : m.LiftedTo m') (hm : m.Proper) (v : Nat) :
    Measure.cmp (m.measure v) (m'.measure v) ≠ .gt := by
  cases hv : m.game.contains v with
  | false =>
      rw [h.outside v hv, Measure.cmp_eq_iff.2 rfl]
      decide
  | true =>
      have hfits := h.proper.fits v (h.game.symm ▸ hv)
      rw [h.bounds] at hfits
      rw [Measure.cmp_ne_gt_iff (hm.fits v hv) hfits]
      have hrise := h.rises v
      unfold levelAt at hrise
      rwa [h.bounds] at hrise

end LiftedTo

namespace Fresh

theorem rising (h : Fresh g p m) : m.Rising := by
  intro v hv
  rw [h.zero v (h.game ▸ hv)]
  exact Nat.zero_le _

/-- Lifting stays below every assignment in which the vertices have their own lifts. -/
theorem level_le_of_fixed (h : Fresh g p m) (hlifted : m.LiftedTo m')
    (hfixed : (m.assign table).Fixed) (hv : m.game.contains v = true) :
    m'.levelAt v ≤ (m.assign table).levelAt v := by
  have hproper := hfixed.proper h.proper
  refine hlifted.least _ (fun u hu => hproper.pays_of_lift_le hu ?_) (fun u hu => ?_) v hv
  · exact Nat.le_of_eq (congrArg (Measure.level m.bounds) (hfixed.eq_lift u hu).symm)
  · rw [h.zero u (h.game ▸ hu)]
    exact Nat.zero_le _

theorem cmp_ne_gt_of_fixed (h : Fresh g p m) (hlifted : m.LiftedTo m')
    (hfixed : (m.assign table).Fixed) (hv : m.game.contains v = true) :
    Measure.cmp (m'.measure v) ((m.assign table).measure v) ≠ .gt := by
  have hfits := hlifted.proper.fits v (hlifted.game.symm ▸ hv)
  have hle := h.level_le_of_fixed hlifted hfixed hv
  unfold levelAt at hle
  rw [hlifted.bounds] at hfits hle
  exact (Measure.cmp_ne_gt_iff hfits (hfixed.fits v hv)).2 hle

/-- There is only one assignment that lifting can end with. -/
theorem eq_of_fixed (h : Fresh g p m) {a b : ProgressMeasures} (ha : m.LiftedTo a)
    (hb : m.LiftedTo b) (hfixed : a.Fixed) (hfixed' : b.Fixed) : a = b := by
  have hle := fun v hv => @level_le_of_fixed g p m a b.measures v h ha (hb.eq_assign ▸ hfixed') hv
  have hle' := fun v hv => @level_le_of_fixed g p m b a.measures v h hb (ha.eq_assign ▸ hfixed) hv
  rw [← hb.eq_assign] at hle
  rw [← ha.eq_assign] at hle'
  have hlength : a.measures.length = b.measures.length := by
    rw [hfixed.length, hfixed'.length, ha.game, hb.game]
  have hsame : a.measures = b.measures := by
    refine VertexTable.ext_getD hlength .top fun v => ?_
    show a.measure v = b.measure v
    cases hv : m.game.contains v with
    | false => rw [ha.outside v hv, hb.outside v hv]
    | true =>
        have hlevel := Nat.le_antisymm (hle v hv) (hle' v hv)
        have hfits := hfixed.fits v (ha.game.symm ▸ hv)
        have hfits' := hfixed'.fits v (hb.game.symm ▸ hv)
        unfold levelAt at hlevel
        rw [ha.bounds] at hlevel hfits
        rw [hb.bounds] at hlevel hfits'
        exact Measure.eq_of_level_eq hfits hfits' hlevel
  rw [ha.eq_assign, hb.eq_assign, hsame]

theorem exists_end (h : Fresh g p m) : ∃ table, (m.assign table).Fixed ∧
    m.LiftedTo (m.assign table) ∧
    ∀ policy, ∃ n t, (Stage.start m policy).Turns n t ∧ t.next? = none ∧ n ≤ m.turnBound ∧
      t.measures = m.assign table ∧ t.lifts + m.total ≤ (m.assign table).total := by
  have hend : ∀ policy, ∃ n t, (Stage.start m policy).Turns n t ∧ t.next? = none ∧
      n ≤ m.turnBound ∧ m.LiftedTo t.measures ∧ t.measures.Fixed ∧
      t.lifts + m.total ≤ t.measures.total := by
    intro policy
    obtain ⟨n, t, hturns, hend, hle, hlater⟩ := Stage.exists_course h.proper policy
    have hcounted := hlater.counted
    refine ⟨n, t, hturns, hend, hle, hlater.lifted, ?_, ?_⟩
    · exact hlater.sound.proper.fixed (hlater.lifted.rising h.rising)
        (hlater.sound.settled_of_end hend)
    · change t.lifts + m.total ≤ 0 + t.measures.total at hcounted
      rwa [Nat.zero_add] at hcounted
  obtain ⟨-, t₀, -, -, -, hlifted, hfixed, -⟩ := hend .linear
  have hassign := hlifted.eq_assign
  refine ⟨t₀.measures.measures, hassign ▸ hfixed, hassign ▸ hlifted, fun policy => ?_⟩
  obtain ⟨n, t, hturns, hend, hle, hlifted', hfixed', hcounted⟩ := hend policy
  have hsame := h.eq_of_fixed hlifted' hlifted hfixed' hfixed
  rw [← hassign, ← hsame]
  exact ⟨n, t, hturns, hend, hle, rfl, hcounted⟩

end Fresh

theorem winnings_policy (hg : g.Coherent) (policy policy' : Policy) (p : Player) :
    (winnings policy g p).outcome = (winnings policy' g p).outcome := by
  cases hstart : start g p with
  | error cause =>
      unfold winnings
      simp only [Run.liftM_eq_attempt, hstart, Run.attempt_error, Run.outcome_bind,
        Run.outcome_fail]
      rfl
  | ok m =>
      have hfresh := fresh_of_start hg hstart
      obtain ⟨table, -, -, hend⟩ := hfresh.exists_end
      have hrun : ∀ policy, (winnings policy g p).outcome = .ok (m.assign table).split := by
        intro policy
        obtain ⟨n, t, hturns, hnext, hle, hmeasures, -⟩ := hend policy
        rw [← hmeasures]
        exact winnings_of_turns hstart hfresh.game hturns hnext hle
      rw [hrun, hrun]

theorem solve_policy (hg : g.Reachable) (policy policy' : Policy) :
    (solve policy g).outcome = (solve policy' g).outcome := by
  unfold solve
  cases htotal : g.isTotal with
  | false => rfl
  | true =>
      simp only [Bool.not_true, Bool.false_eq_true, if_false, Run.outcome_bind,
        winnings_policy hg.coherent policy policy']
      refine bind_congr fun ⟨even, lost⟩ => ?_
      cases hrest : g.subgame lost with
      | error cause => rfl
      | ok rest =>
          simp only [Run.liftM_eq_attempt, Run.attempt_ok, Run.outcome_pure, ok_bind,
            winnings_policy (hg.subgame hrest).coherent policy policy']

/-- Under both policies the lifting ends after at most so many lifts, no measure ever falls on the
way, and the final measures are the least ones that are their own lifts. So the solvers that differ
only in the policy return the same solution. -/
theorem lifting_order_irrelevant (hg : g.Reachable) :
    (∀ p m, start g p = .ok m → ∃ table, (m.assign table).Fixed ∧
      (∀ other, (m.assign other).Fixed → ∀ v, g.contains v = true →
        Measure.cmp ((m.assign table).measure v) ((m.assign other).measure v) ≠ .gt) ∧
      ∀ policy, ∃ n t, (Stage.start m policy).Turns n t ∧ t.next? = none ∧
        t.measures = m.assign table ∧
        t.lifts ≤ g.size * (m.bounds.map (· + 1)).prod ∧
        (∀ i j s u, (Stage.start m policy).Turns i s → s.Turns j u →
          ∀ v, Measure.cmp (s.measures.measure v) (u.measures.measure v) ≠ .gt) ∧
        (∀ fuel, n ≤ fuel → (liftAll fuel m (Schedule.start g policy) 0).outcome =
          .ok (m.assign table, t.lifts)) ∧
        (winnings policy g p).outcome = .ok (m.assign table).split) ∧
    (solve .linear g).outcome = (solve .predecessor g).outcome := by
  refine ⟨fun p m hstart => ?_, solve_policy hg _ _⟩
  have hfresh := fresh_of_start hg.coherent hstart
  have hgame := hfresh.game
  obtain ⟨table, hfixed, hlifted, hend⟩ := hfresh.exists_end
  refine ⟨table, hfixed, fun other hother v hv => ?_, fun policy => ?_⟩
  · exact hfresh.cmp_ne_gt_of_fixed hlifted hother (hgame.symm ▸ hv)
  obtain ⟨n, t, hturns, hnext, hle, hmeasures, hcounted⟩ := hend policy
  refine ⟨n, t, hturns, hnext, hmeasures, ?_, fun i j s u hs hu => ?_, fun fuel hfuel => ?_, ?_⟩
  · have htotal : (m.assign table).total ≤ m.game.size * Measure.volume m.bounds :=
      hlifted.proper.total_le
    rw [hgame, Measure.volume_eq_prod] at htotal
    omega
  · have hlater := (Stage.sound_start hfresh.proper policy).turns hs
    exact (hlater.sound.turns hu).lifted.cmp_ne_gt hlater.sound.proper
  · have hrun := hturns.outcome hnext hfuel
    rw [hmeasures] at hrun
    rw [← hgame]
    exact hrun
  · rw [← hmeasures]
    exact winnings_of_turns hstart hgame hturns hnext hle

theorem lifting_order_irrelevant_duel : ∃ g m table s, duel.build = .ok g ∧
    start g .even = .ok m ∧ (m.assign table).Fixed ∧
    (∀ policy, (winnings policy g .even).outcome = .ok (m.assign table).split) ∧
    (solve .linear g).outcome = .ok s ∧ (solve .predecessor g).outcome = .ok s := by
  obtain ⟨g, hmade, -, -⟩ := duel_total
  have hruns : (duel.build.toOption.any fun g =>
      match start g .even, (solve .linear g).outcome with
      | .ok _, .ok _ => true
      | _, _ => false) = true := by
    decide +kernel
  simp only [hmade, Except.toOption, Option.any_some] at hruns
  split at hruns
  · rename_i m s hstart hsolved
    obtain ⟨hends, hsame⟩ := lifting_order_irrelevant (.build hmade)
    obtain ⟨table, hfixed, -, hpolicy⟩ := hends .even m hstart
    refine ⟨g, m, table, s, hmade, hstart, hfixed, fun policy => ?_, hsolved, hsame ▸ hsolved⟩
    obtain ⟨-, -, -, -, -, -, -, -, hrun⟩ := hpolicy policy
    exact hrun
  · cases hruns

end ProgressMeasures

end ParityGames
