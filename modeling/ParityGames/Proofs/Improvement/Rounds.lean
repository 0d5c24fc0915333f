import Mathlib.Data.Fintype.BigOperators
import Mathlib.Data.Fintype.List
import ParityGames.Proofs.Improvement.Progress
import ParityGames.Proofs.Improvement.Ready

/-! # Rounds of strategy improvement

A round that switches moves leaves no vertex with a worse rating and gives one a better rating. So
no choice of moves comes back, and since there are finitely many of them, the rounds come to an end.
-/

namespace ParityGames

open Relation

namespace Improvement

variable {s s' t : Improvement} {g : Game} {choice : Nat → Nat} {u v n : Nat}

/-! ## Switching -/

theorem exists_betterMove (h : s.improve.2 = true) :
    ∃ u v, s.game.contains u = true ∧ s.game.owner u = .even ∧ s.betterMove? u = some v := by
  have hsome : s.switches ≠ [] := by
    intro hnil
    have h : (!s.switches.isEmpty) = true := h
    rw [hnil] at h
    cases h
  obtain ⟨switch, hswitch⟩ := List.exists_mem_of_ne_nil _ hsome
  obtain ⟨u, hu, hmap⟩ := List.mem_filterMap.1 hswitch
  obtain ⟨v, hv, -⟩ := Option.map_eq_some_iff.1 hmap
  rw [List.mem_filter, Game.mem_vertices, decide_eq_true_eq] at hu
  exact ⟨u, v, hu.1, hu.2, hv⟩

/-- The switched moves are not worse than the old ones. -/
theorem Valued.advances_improve (hs : s.Valued g choice) : s.Advances g s.improve.1.move := by
  refine hs.advances fun u hu howner => ?_
  have hgame := hs.keeps.game
  have hlt : u < s.moves.length := hs.keeps.length_moves ▸ hs.keeps.coherent.contains_lt hu
  rw [← hs.keeps.move u hu howner, move_improve (hgame ▸ hu) (hgame ▸ howner) hlt]
  cases hbetter : s.betterMove? u with
  | none =>
      have hself : Preference.cmp (s.preference u (s.move u)) (s.preference u (s.move u)) = .eq :=
        Std.ReflCmp.compare_self
      rw [Option.getD_none, hself]
      rfl
  | some v =>
      rw [Option.getD_some, (betterMove_spec hbetter).2]
      rfl

/-! ## One round and many -/

def Improves (s s' : Improvement) : Prop :=
  ∃ t, s.valuation = .ok t ∧ t.improve = (s', true)

structure Exceeds (s s' t t' : Improvement) : Prop where
  valued : t.Valued s.game s.move
  valued' : t'.Valued s.game s'.move
  run : s.valuation = .ok t
  run' : s'.valuation = .ok t'
  isLE : ∀ v, s.game.contains v = true → (Preference.cmp (t.rating v) (t'.rating v)).isLE
  lt : ∃ v, s.game.contains v = true ∧ Preference.cmp (t.rating v) (t'.rating v) = .lt

theorem Improves.ready (h : s.Improves s') (hs : s.Ready) : s'.Ready ∧ s'.game = s.game := by
  obtain ⟨t, hrun, himprove⟩ := h
  have hready := hs.improve hrun
  have hgame : t.improve.1.game = s.game := (hs.valued hrun).keeps.game
  rw [himprove] at hready hgame
  exact ⟨hready, hgame⟩

theorem Improves.exceeds (h : s.Improves s') (hs : s.Ready) : ∃ t t', s.Exceeds s' t t' := by
  obtain ⟨hs', hgame⟩ := h.ready hs
  obtain ⟨t, hrun, himprove⟩ := h
  have ht := hs.valued hrun
  obtain ⟨t', hnext, ht'⟩ := valuation_spec hs'.keeps hs'.total
  have hfirst : t.improve.1 = s' := congrArg Prod.fst himprove
  have hadvances := ht.advances_improve
  rw [hgame] at ht'
  rw [hfirst] at hadvances
  obtain ⟨u, v, hu, howner, hbetter⟩ := exists_betterMove (congrArg Prod.snd himprove)
  have hlt : u < t.moves.length := by
    rw [ht.keeps.game] at hu
    exact ht.keeps.length_moves ▸ ht.keeps.coherent.contains_lt hu
  have hmove := move_improve hu howner hlt
  rw [hfirst, hbetter, Option.getD_some] at hmove
  rw [ht.keeps.game] at hu howner
  refine ⟨t, t', ht, ht', hrun, hnext, fun w hw => ht.rating_isLE ht' hadvances hw, u, hu, ?_⟩
  apply ht.rating_lt ht' hadvances hu howner
  rw [← ht.keeps.move u hu howner, hmove]
  exact (betterMove_spec hbetter).2

theorem Improves.rounds_ready (h : TransGen Improves s s') (hs : s.Ready) :
    s'.Ready ∧ s'.game = s.game := by
  induction h with
  | single h => exact h.ready hs
  | tail _ h ih =>
      obtain ⟨hready, hgame⟩ := h.ready ih.1
      exact ⟨hready, hgame.trans ih.2⟩

theorem Improves.rounds_exceed (h : TransGen Improves s s') (hs : s.Ready) :
    ∃ t t', s.Exceeds s' t t' := by
  induction h with
  | single h => exact h.exceeds hs
  | tail hfirst h ih =>
      obtain ⟨hready, hgame⟩ := Improves.rounds_ready hfirst hs
      obtain ⟨t, u, htu⟩ := ih
      obtain ⟨u', t', hut⟩ := h.exceeds hready
      obtain rfl : u = u' := Except.ok.inj (htu.run'.symm.trans hut.run)
      have hvalued := hut.valued'
      have hisLE := hut.isLE
      rw [hgame] at hvalued hisLE
      obtain ⟨v, hv, hlt⟩ := htu.lt
      exact ⟨t, t', htu.valued, hvalued, htu.run, hut.run',
        fun w hw => Std.TransCmp.isLE_trans (htu.isLE w hw) (hisLE w hw), v, hv,
        Std.TransCmp.lt_of_lt_of_isLE hlt (hisLE v hv)⟩

/-- The same moves would have the same ratings. -/
theorem Improves.exists_move_ne (h : TransGen Improves s s') (hs : s.Ready) :
    ∃ v, s.game.contains v = true ∧ s.game.owner v = .even ∧ s'.move v ≠ s.move v := by
  obtain ⟨t, t', hexceeds⟩ := Improves.rounds_exceed h hs
  by_contra hnone
  have hadvances : t'.Advances s.game s.move := by
    refine hexceeds.valued'.advances fun u hu howner => ?_
    have hsame : s'.move u = s.move u := by
      by_contra hne
      exact hnone ⟨u, hu, howner, hne⟩
    have hself : Preference.cmp (t'.preference u (s.move u)) (t'.preference u (s.move u)) = .eq :=
      Std.ReflCmp.compare_self
    rw [hsame, hself]
    rfl
  obtain ⟨v, hv, hlt⟩ := hexceeds.lt
  have hle := hexceeds.valued'.rating_isLE hexceeds.valued hadvances hv
  rw [Std.OrientedCmp.gt_iff_lt.2 hlt] at hle
  cases hle

/-! ## The end of the rounds -/

/-- The rounds up to a valuation whose moves are stable, with the number of those that switch. -/
inductive Rounds : Improvement → Nat → Improvement → Prop
  | stable {s t : Improvement} (hrun : s.valuation = .ok t) (hstable : t.improve.2 = false) :
      Rounds s 0 t
  | improve {s s' t : Improvement} {n : Nat} (hround : s.Improves s') (hrest : Rounds s' n t) :
      Rounds s (n + 1) t

theorem stabilise_stable (hrun : s.valuation = .ok t) (hstable : t.improve.2 = false)
    (limit? : Option Nat) (fuel count : Nat) :
    stabilise limit? (fuel + 1) s count = Run.check >>= fun _ => pure (t, count) := by
  obtain ⟨improved, himprove⟩ : ∃ improved, t.improve = (improved, false) :=
    ⟨t.improve.1, by rw [← hstable]⟩
  unfold stabilise
  simp only [Run.liftM_eq_attempt, hrun, Run.attempt_ok, pure_bind, himprove]

/-- A turn of the loop that switches is a round, if the limit allows one more. -/
theorem stabilise_round (hround : s.Improves s') {limit? : Option Nat} {count : Nat}
    (hlimit : ∀ limit ∈ limit?, count < limit) (fuel : Nat) :
    stabilise limit? (fuel + 1) s count = Run.check >>= fun _ =>
      Run.write (.improved (count + 1)) >>= fun _ => stabilise limit? fuel s' (count + 1) := by
  obtain ⟨u, hrun, himprove⟩ := hround
  conv_lhs => unfold stabilise
  simp only [Run.liftM_eq_attempt, hrun, Run.attempt_ok, pure_bind, himprove]
  cases limit? with
  | none => rfl
  | some limit =>
      have hwithin : ¬ limit < count + 1 := Nat.not_lt.2 (hlimit limit rfl)
      simp only [if_neg hwithin]

/-- The turn that switches once more than the limit allows is the last one. -/
theorem stabilise_beyond (hround : s.Improves s') {limit count : Nat} (hlimit : limit < count + 1)
    (fuel : Nat) :
    stabilise (some limit) (fuel + 1) s count = Run.check >>= fun _ =>
      Run.write (.improved (count + 1)) >>= fun _ => .finish (.error (.iterationLimit limit)) := by
  obtain ⟨u, hrun, himprove⟩ := hround
  unfold stabilise
  simp only [Run.liftM_eq_attempt, hrun, Run.attempt_ok, pure_bind, himprove, if_pos hlimit]

theorem Rounds.outcome (h : s.Rounds n t) {fuel : Nat} (hfuel : n < fuel) (count : Nat) :
    (stabilise none fuel s count).outcome = .ok (t, count + n) := by
  obtain ⟨fuel, rfl⟩ := Nat.exists_eq_add_one_of_ne_zero (Nat.ne_zero_of_lt hfuel)
  induction h generalizing fuel count with
  | stable hrun hstable =>
      rw [stabilise_stable hrun hstable]
      rfl
  | @improve s s' t n hround _ ih =>
      obtain ⟨fuel, rfl⟩ := Nat.exists_eq_add_one_of_ne_zero (show fuel ≠ 0 by omega)
      have hrest := ih (count + 1) fuel (by omega)
      rw [Nat.add_assoc, Nat.add_comm 1 n] at hrest
      rw [stabilise_round hround (by simp)]
      exact hrest

/-- Under a limit the rounds come to the same, or to the limit if there are more of them. -/
theorem Rounds.outcome_limited (h : s.Rounds n t) {limit fuel count : Nat} (hfuel : n < fuel)
    (hcount : count ≤ limit) :
    (stabilise (some limit) fuel s count).outcome =
      if limit < count + n then .error (.iterationLimit limit) else .ok (t, count + n) := by
  obtain ⟨fuel, rfl⟩ := Nat.exists_eq_add_one_of_ne_zero (Nat.ne_zero_of_lt hfuel)
  induction h generalizing fuel count with
  | stable hrun hstable =>
      rw [stabilise_stable hrun hstable, Nat.add_zero, if_neg (Nat.not_lt.2 hcount)]
      rfl
  | @improve s s' t n hround _ ih =>
      by_cases hover : limit < count + 1
      · rw [stabilise_beyond hround hover, if_pos (show limit < count + (n + 1) by omega)]
        rfl
      · have hwithin : count < limit := Nat.le_of_not_lt hover
        obtain ⟨fuel, rfl⟩ := Nat.exists_eq_add_one_of_ne_zero (show fuel ≠ 0 by omega)
        have hrest := ih (show count + 1 ≤ limit from hwithin) fuel (by omega)
        rw [Nat.add_assoc, Nat.add_comm 1 n] at hrest
        rw [stabilise_round hround (by simpa using hwithin)]
        exact hrest

/-- States of a run, each of them before all later ones, are fewer than there are choices of
moves. -/
theorem length_le_of_rounds {past : List Improvement}
    (hready : ∀ p ∈ past, p.Ready ∧ p.game = g) (hrounds : past.Pairwise (TransGen Improves)) :
    past.length ≤ Nat.pow (g.vertexCount + 1) g.vertexCount := by
  obtain ⟨choices, hchoices⟩ : ∃ choices : Improvement → Fin g.vertexCount →
      Fin (g.vertexCount + 1), choices = fun p v => Fin.ofNat (g.vertexCount + 1) (p.move v) :=
    ⟨_, rfl⟩
  have hne : past.Pairwise fun p q => choices p ≠ choices q := by
    apply hrounds.imp_of_mem
    intro p q hp hq hpq heq
    obtain ⟨hp, hgame⟩ := hready p hp
    obtain ⟨hq, hgame'⟩ := hready q hq
    obtain ⟨v, hv, howner, hmove⟩ := Improves.exists_move_ne hpq hp
    have hcoherent := hp.reachable.coherent
    have hbound := hcoherent.contains_lt (Game.contains_of_mem_successors (hp.move v hv howner))
    have hbound' : q.move v < p.game.vertexCount := by
      rw [hgame, ← hgame'] at hv howner ⊢
      exact hq.reachable.coherent.contains_lt
        (Game.contains_of_mem_successors (hq.move v hv howner))
    rw [hgame] at hbound hbound'
    have hsame := congrArg Fin.val (congrFun heq ⟨v, hgame ▸ hcoherent.contains_lt hv⟩)
    rw [hchoices] at hsame
    simp only [Fin.ofNat, Nat.mod_eq_of_lt (Nat.lt_succ_of_lt hbound),
      Nat.mod_eq_of_lt (Nat.lt_succ_of_lt hbound')] at hsame
    exact hmove hsame.symm
  have hnodup : (past.map choices).Nodup := List.pairwise_map.2 hne
  have hcard := hnodup.length_le_card
  rwa [List.length_map, Fintype.card_fun, Fintype.card_fin, Fintype.card_fin] at hcard

theorem exists_rounds_from (fuel : Nat) {past : List Improvement}
    (hpast : ∀ p ∈ past, (p.Ready ∧ p.game = s.game) ∧ TransGen Improves p s)
    (hrounds : past.Pairwise (TransGen Improves)) (hs : s.Ready)
    (hfuel : roundBound s.game ≤ fuel + past.length) : ∃ n t, s.Rounds n t ∧ n < fuel := by
  induction fuel generalizing s past with
  | zero =>
      have hle := length_le_of_rounds (fun p hp => (hpast p hp).1) hrounds
      unfold roundBound at hfuel
      omega
  | succ fuel ih =>
      obtain ⟨t, hrun, -⟩ := valuation_spec hs.keeps hs.total
      cases hstable : t.improve.2 with
      | false => exact ⟨0, t, .stable hrun hstable, Nat.succ_pos fuel⟩
      | true =>
          have hround : s.Improves t.improve.1 := ⟨t, hrun, by rw [← hstable]⟩
          obtain ⟨hready, hgame⟩ := hround.ready hs
          have hnext : ∃ n t', t.improve.1.Rounds n t' ∧ n < fuel := by
            refine @ih _ (past ++ [s]) (fun p hp => ?_) ?_ hready ?_
            · rw [hgame]
              rcases List.mem_append.1 hp with hp | hp
              · exact ⟨(hpast p hp).1, (hpast p hp).2.tail hround⟩
              · rw [List.mem_singleton.1 hp]
                exact ⟨⟨hs, rfl⟩, TransGen.single hround⟩
            · refine List.pairwise_append.2 ⟨hrounds, List.pairwise_singleton _ _, ?_⟩
              intro p hp q hq
              rw [List.mem_singleton.1 hq]
              exact (hpast p hp).2
            · rw [hgame, List.length_append, List.length_singleton]
              omega
          obtain ⟨n, t', hrest, hlt⟩ := hnext
          exact ⟨n + 1, t', .improve hround hrest, Nat.succ_lt_succ hlt⟩

theorem exists_rounds (hs : s.Ready) : ∃ n t, s.Rounds n t ∧ n < roundBound s.game :=
  @exists_rounds_from s (roundBound s.game) [] (fun _ hp => nomatch hp) List.Pairwise.nil hs
    (Nat.le_add_right _ _)

/-- A round that switches makes no rating worse and one better. So no choice of moves comes back,
and the rounds end with stable moves after fewer of them than there are choices. -/
theorem improvement_terminates (h : s.Ready) :
    ∃ t, s.valuation = .ok t ∧
      (t.improve.2 = true → ∃ t', t.improve.1.valuation = .ok t' ∧
        (∀ v, s.game.contains v = true → (Preference.cmp (t.rating v) (t'.rating v)).isLE) ∧
        ∃ v, s.game.contains v = true ∧ Preference.cmp (t.rating v) (t'.rating v) = .lt) ∧
      (∀ s', TransGen Improves s s' →
        ∃ v, s.game.contains v = true ∧ s.game.owner v = .even ∧ s'.move v ≠ s.move v) ∧
      ∃ n u, s.Rounds n u ∧ n < roundBound s.game ∧
        ∀ fuel, n < fuel → (stabilise none fuel s 0).outcome = .ok (u, n) := by
  obtain ⟨t, hrun, -⟩ := valuation_spec h.keeps h.total
  obtain ⟨n, u, hrounds, hlt⟩ := exists_rounds h
  refine ⟨t, hrun, fun hswitch => ?_, fun s' hs' => Improves.exists_move_ne hs' h, n, u, hrounds,
    hlt, fun fuel hfuel => ?_⟩
  · have hround : s.Improves t.improve.1 := ⟨t, hrun, by rw [← hswitch]⟩
    obtain ⟨t₁, t', hexceeds⟩ := hround.exceeds h
    obtain rfl : t = t₁ := Except.ok.inj (hrun.symm.trans hexceeds.run)
    exact ⟨t', hexceeds.run', hexceeds.isLE, hexceeds.lt⟩
  · have houtcome := hrounds.outcome hfuel 0
    rwa [Nat.zero_add] at houtcome

theorem improvement_terminates_duel : ∃ g, duel.build = .ok g ∧ ∃ t, (start g).valuation = .ok t ∧
    t.improve.2 = true ∧ ∃ t', t.improve.1.valuation = .ok t' ∧
      ∃ v, g.contains v = true ∧ Preference.cmp (t.rating v) (t'.rating v) = .lt := by
  obtain ⟨g, hmade, htotal, -⟩ := duel_total
  have hswitches : (duel.build.toOption.any fun g =>
      (start g).valuation.toOption.any fun t => t.improve.2) = true := by
    decide +kernel
  simp only [hmade, Except.toOption, Option.any_some] at hswitches
  obtain ⟨t, hrun, hprogress, -⟩ := improvement_terminates (start_ready (.build hmade) htotal)
  simp only [hrun, Option.any_some] at hswitches
  obtain ⟨t', hnext, -, hlt⟩ := hprogress hswitches
  exact ⟨g, hmade, t, hrun, hswitches, t', hnext, hlt⟩

end Improvement

end ParityGames
