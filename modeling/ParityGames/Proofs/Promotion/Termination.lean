import ParityGames.Proofs.Promotion.Search

/-! # Priority promotion comes to an end

A dominion that is found has a vertex, so what is left gets smaller whenever the attractor of a
dominion is split off, and it stays total. What is split off so far holds in the whole game: in the
rest a player has no edge into its own winnings.
-/

namespace ParityGames

namespace Promotion

variable {g : Game}

/-- The invariant of splitting off: the solution holds in the whole game, and in the rest no
player has an edge into its own region. -/
structure Collected (g rest : Game) (s : Solution) : Prop where
  partOf : rest.PartOf g
  coherent : rest.Coherent
  total : rest.isTotal = true
  holds : ∀ p, (s.of p).Holds g p
  contains : ∀ v, rest.contains v = true ↔
    g.contains v = true ∧ ∀ p, (s.of p).region.contains v = false
  trapped : ∀ p v w, rest.contains v = true → g.owner v = p → w ∈ g.successors v →
    (s.of p).region.contains w = false

theorem contains_put {s : Solution} {p q : Player} {m won : Territory}
    (hm : m.Unites (s.of p) won) (v : Nat) : ((s.put p m).of q).region.contains v =
      ((s.of q).region.contains v || (decide (q = p) && won.region.contains v)) := by
  by_cases hq : q = p
  · subst hq
    simp [Solution.of_put, hm.contains]
  · rw [Player.eq_opponent_of_ne hq, Solution.of_opponent_put]
    simp [Player.opponent_ne]

namespace Collected

variable {rest : Game} {s : Solution} {p : Player} {t a m won : Territory}

/-- What is won in the rest is won in the whole game, together with what is collected. -/
theorem holds_put (hs : Collected g rest s) (hwon : won.Holds rest p)
    (hm : m.Unites (s.of p) won) (q : Player) : ((s.put p m).of q).Holds g q := by
  by_cases hq : q = p
  · subst hq
    rw [Solution.of_put]
    refine (hs.holds q).union hs.partOf (fun v hv => ?_) hwon (fun v hv howner w hw => ?_) hm
    · exact ⟨((hs.contains v).1 hv).1, ((hs.contains v).1 hv).2 q⟩
    · by_cases hout : (s.of q).region.contains w = true
      · exact Or.inr hout
      · refine Or.inl ((hs.contains w).2 ⟨Game.contains_of_mem_successors hw, fun r => ?_⟩)
        by_cases hr : r = q
        · rw [hr]
          simpa using hout
        · have howner' : g.owner v = r := by
            rw [Player.eq_opponent_of_ne howner, Player.eq_opponent_of_ne hr]
          exact hs.trapped r v w (hwon.dominion.active v hv) howner' hw
  · rw [Player.eq_opponent_of_ne hq, Solution.of_opponent_put]
    exact hs.holds p.opponent

theorem contains_rest (hs : Collected g rest s) (hm : m.Unites (s.of p) won) (v : Nat) :
    (rest.contains v = true ∧ won.region.contains v = false) ↔
      g.contains v = true ∧ ∀ q, ((s.put p m).of q).region.contains v = false := by
  simp only [contains_put hm, Bool.or_eq_false_iff]
  rw [hs.contains, and_assoc]
  apply and_congr_right
  intro _
  constructor
  · intro hv q
    exact ⟨hv.1 q, by simp [hv.2]⟩
  · intro hv
    exact ⟨fun q => (hv q).1, by simpa using (hv p).2⟩

/-- The player of the attractor cannot enter it from what is left. -/
theorem trapped_put (hs : Collected g rest s) (hm : m.Unites (s.of p) won) {target : Set Nat}
    (ha : a.IsAttractor rest p target)
    (hregion : ∀ v, won.region.contains v = a.region.contains v) {q : Player} {v w : Nat}
    (hv : rest.contains v = true) (hout : won.region.contains v = false) (howner : g.owner v = q)
    (hw : w ∈ g.successors v) : ((s.put p m).of q).region.contains w = false := by
  rw [contains_put hm, hs.trapped q v w hv howner hw, Bool.false_or]
  by_cases hq : q = p
  · subst hq
    by_contra hwin
    have hwin' : a.region.contains w = true := by
      rw [← hregion]
      simpa using hwin
    have hedge := (hs.partOf.mem_successors (Game.contains_of_mem_successors hw)).2
      ⟨hw, ha.active hwin'⟩
    have hescape := ha.escapes_own v hv (by rw [← hregion, hout])
      (by rw [hs.partOf.owner, howner]) w hedge
    rw [hwin'] at hescape
    cases hescape
  · simp [hq]

theorem split (hs : Collected g rest s) (ht : t.Holds rest p)
    (ha : a.IsAttractor rest p {v | t.region.contains v = true ∧ rest.contains v = true})
    (hwon : won.Unites a t) :
    ∃ s', s.mergeInto p won = .ok s' ∧ Collected g (rest.difference won.region) s' := by
  obtain ⟨hwonHolds, hregion⟩ := ht.attracted ha hwon
  obtain ⟨m, hmerge, hm⟩ := Territory.merge_spec ((hs.holds p).capacity.trans
    (hs.partOf.vertexCount.symm.trans hwonHolds.capacity.symm))
  obtain ⟨hcoherent, hof, hcontains⟩ := Game.difference_spec hs.coherent won.region
  have hin : ∀ v, (rest.difference won.region).contains v = true ↔
      rest.contains v = true ∧ won.region.contains v = false := fun v => by simp [hcontains]
  refine ⟨s.put p m, by simp [Solution.mergeInto, hmerge], ?_⟩
  exact {
    partOf := hof.trans hs.partOf
    coherent := hcoherent
    total := ha.total_rest hof (fun v => by rw [hcontains, hregion]) hs.total
    holds := hs.holds_put hwonHolds hm
    contains := fun v => (hin v).trans (hs.contains_rest hm v)
    trapped := by
      intro q v w hv howner hw
      obtain ⟨hvrest, hvout⟩ := (hin v).1 hv
      exact hs.trapped_put hm ha hregion hvrest hvout howner hw }

theorem split_spec (hs : Collected g rest s) (ht : t.Holds rest p)
    (hnonempty : ∃ v, t.region.contains v = true) :
    ∃ a won s', attractorOfSet rest p t.region = .ok a ∧ a.merge t = .ok won ∧
      s.mergeInto p won = .ok s' ∧ Collected g (rest.difference won.region) s' ∧
      (rest.difference won.region).size < rest.size := by
  obtain ⟨v, hv⟩ := hnonempty
  obtain ⟨a, hattractor, ha⟩ := attractorOfSet_spec hs.coherent p t.region
  obtain ⟨won, hmerge, hwon⟩ := Territory.merge_spec (ha.capacity.trans ht.capacity.symm)
  obtain ⟨s', hmerge', hs'⟩ := hs.split ht ha hwon
  obtain ⟨-, hregion⟩ := ht.attracted ha hwon
  obtain ⟨-, -, hcontains⟩ := Game.difference_spec hs.coherent won.region
  refine ⟨a, won, s', hattractor, hmerge, hmerge', hs', ?_⟩
  refine ha.size_lt ⟨hv, ht.dominion.active v hv⟩ fun w => ?_
  rw [hcontains, hregion]

end Collected

structure Stage where
  rest : Game
  solution : Solution
  promotions : Nat

namespace Stage

variable {s t : Stage} {n fuel : Nat}

def start (g : Game) : Stage := ⟨g, Solution.empty g.vertexCount, 0⟩

/-- A dominion is searched for from the greatest priority on, and its attractor is split off. -/
inductive Splits : Stage → Stage → Prop
  | split {s : Stage} {top n k : Nat} {p : Player} {dominion attracted won : Territory}
      {solution : Solution} (highest : s.rest.maxPriority? = some top)
      (found : Finds s.rest (startAt s.rest top) n k p dominion)
      (attracts : attractorOfSet s.rest p dominion.region = .ok attracted)
      (merged : attracted.merge dominion = .ok won)
      (collected : s.solution.mergeInto p won = .ok solution) :
      Splits s ⟨s.rest.difference won.region, solution, s.promotions + k⟩

inductive Rounds : Stage → Nat → Stage → Prop
  | refl (s : Stage) : Rounds s 0 s
  | head {s t u : Stage} {n : Nat} : s.Splits t → Rounds t n u → Rounds s (n + 1) u

end Stage

namespace Collected

variable {s t : Stage} {n fuel : Nat}

theorem splits (hs : Collected g s.rest s.solution) (h : s.Splits t) :
    Collected g t.rest t.solution ∧ t.rest.size < s.rest.size := by
  cases h with
  | split highest found attracts merged collected =>
      obtain ⟨hholds, hnonempty, -⟩ :=
        found.spec hs.coherent (orderly_startAt hs.coherent hs.total highest)
      obtain ⟨a, won, s', hattractor, hmerge, hmerge', hs', hlt⟩ := hs.split_spec hholds hnonempty
      cases attracts.symm.trans hattractor
      cases merged.symm.trans hmerge
      cases collected.symm.trans hmerge'
      exact ⟨hs', hlt⟩

theorem exists_splits (hs : Collected g s.rest s.solution) {top : Nat}
    (htop : s.rest.maxPriority? = some top) : ∃ t, s.Splits t := by
  have horderly := orderly_startAt hs.coherent hs.total htop
  obtain ⟨n, k, p, dominion, hfinds⟩ := exists_finds hs.coherent horderly
  obtain ⟨hholds, hnonempty, -⟩ := hfinds.spec hs.coherent horderly
  obtain ⟨a, won, s', hattractor, hmerge, hmerge', -⟩ := hs.split_spec hholds hnonempty
  exact ⟨_, .split htop hfinds hattractor hmerge hmerge'⟩

theorem rounds (hs : Collected g s.rest s.solution) (h : s.Rounds n t) :
    Collected g t.rest t.solution := by
  induction h with
  | refl s => exact hs
  | head hsplits _ ih => exact ih (hs.splits hsplits).1

theorem outcome_of_splits (hs : Collected g s.rest s.solution) (h : s.Splits t) :
    (collect (fuel + 1) s.rest s.solution s.promotions).outcome =
      (collect fuel t.rest t.solution t.promotions).outcome := by
  cases h with
  | split highest found attracts merged collected =>
      obtain ⟨-, -, hbound⟩ :=
        found.spec hs.coherent (orderly_startAt hs.coherent hs.total highest)
      have hsearch := found.outcome (Nat.le_trans (Nat.le_add_right _ _) hbound) s.promotions
      conv_lhs => unfold collect
      simp only [highest, Run.outcome_bind, Run.outcome_check, Run.outcome_write, Run.outcome_pure,
        Run.liftM_eq_attempt, Run.attempt_ok, ok_bind, hsearch, attracts, merged, collected]

theorem outcome (hs : Collected g s.rest s.solution) (h : s.Rounds n t)
    (hend : t.rest.maxPriority? = none) (hfuel : n ≤ fuel) :
    (collect fuel s.rest s.solution s.promotions).outcome = .ok (t.solution, t.promotions) := by
  induction h generalizing fuel with
  | refl s =>
      unfold collect
      simp only [hend]
      rfl
  | head hsplits _ ih =>
      obtain ⟨fuel, rfl⟩ := Nat.exists_eq_add_of_le' hfuel
      rw [← Nat.add_assoc, hs.outcome_of_splits hsplits]
      exact ih (hs.splits hsplits).1 hend (Nat.le_add_left _ _)

theorem exists_rounds (hs : Collected g s.rest s.solution) :
    ∃ n t, s.Rounds n t ∧ t.rest.maxPriority? = none ∧ n ≤ s.rest.size := by
  induction hsize : s.rest.size using Nat.strong_induction_on generalizing s with
  | _ size ih =>
      subst hsize
      cases htop : s.rest.maxPriority? with
      | none => exact ⟨0, s, .refl s, htop, Nat.zero_le _⟩
      | some top =>
          obtain ⟨t, hsplits⟩ := hs.exists_splits htop
          obtain ⟨ht, hlt⟩ := hs.splits hsplits
          obtain ⟨n, u, hrounds, hend, hle⟩ := ih _ hlt ht rfl
          exact ⟨n + 1, u, .head hsplits hrounds, hend, Nat.lt_of_le_of_lt hle hlt⟩

end Collected

theorem collected_start (hg : g.Coherent) (htotal : g.isTotal = true) :
    Collected g g (Solution.empty g.vertexCount) where
  partOf := .refl g
  coherent := hg
  total := htotal
  holds := by
    intro p
    cases p <;> exact Territory.holds_empty g _
  contains := by
    intro v
    refine (and_iff_left fun p => ?_).symm
    cases p <;> exact VertexSet.contains_empty _ _
  trapped := by
    intro p v w _ _ _
    cases p <;> exact VertexSet.contains_empty _ _

/-- In a total game that is not empty the search from the greatest priority on finds a dominion. So
every game that is left over is total and gives up a dominion, until no active vertex is left. -/
theorem promotion_terminates (hg : g.Reachable) (htotal : g.isTotal = true) :
    ((∃ v, g.contains v = true) → ∃ top n k p t, g.maxPriority? = some top ∧
      Finds g (startAt g top) n k p t ∧ n ≤ searchBound g ∧
      (∃ v, t.region.contains v = true) ∧ t.Holds g p ∧
      ∀ fuel promotions, n ≤ fuel →
        (search g fuel (startAt g top) promotions).outcome = .ok (p, t, promotions + k)) ∧
    (∀ n s, (Stage.start g).Rounds n s → s.rest.isTotal = true ∧
      ((∃ v, s.rest.contains v = true) → ∃ t, s.Splits t ∧ t.rest.size < s.rest.size)) ∧
    ∃ n s, (Stage.start g).Rounds n s ∧ n ≤ g.size ∧ (∀ v, s.rest.contains v = false) ∧
      (solve g).outcome = .ok s.solution := by
  have hcoherent := hg.coherent
  have hstart : Collected g (Stage.start g).rest (Stage.start g).solution :=
    collected_start hcoherent htotal
  refine ⟨fun hsome => ?_, fun n s hrounds => ?_, ?_⟩
  · obtain ⟨top, htop⟩ := hcoherent.exists_maxPriority hsome
    have horderly := orderly_startAt hcoherent htotal htop
    obtain ⟨n, k, p, t, hfinds⟩ := exists_finds hcoherent horderly
    obtain ⟨hholds, hnonempty, hbound⟩ := hfinds.spec hcoherent horderly
    exact ⟨top, n, k, p, t, htop, hfinds, by omega, hnonempty, hholds,
      fun fuel promotions hfuel => hfinds.outcome hfuel promotions⟩
  · have hs := hstart.rounds hrounds
    refine ⟨hs.total, fun hsome => ?_⟩
    obtain ⟨top, htop⟩ := hs.coherent.exists_maxPriority hsome
    obtain ⟨t, hsplits⟩ := hs.exists_splits htop
    exact ⟨t, hsplits, (hs.splits hsplits).2⟩
  · obtain ⟨n, s, hrounds, hend, hle⟩ := hstart.exists_rounds
    have hs := hstart.rounds hrounds
    have hcollect : (collect g.size g (Solution.empty g.vertexCount) 0).outcome = _ :=
      hstart.outcome hrounds hend hle
    refine ⟨n, s, hrounds, hle, hs.coherent.maxPriority_none hend, ?_⟩
    simp only [solve, htotal, Bool.not_true, Bool.false_eq_true, if_false, Run.outcome_bind,
      Run.outcome_write, Run.outcome_pure, hcollect, ok_bind]

theorem promotion_terminates_duel : ∃ g, duel.build = .ok g ∧
    (∃ n k p t, Finds g (startAt g 4) n k p t ∧ (∃ v, t.region.contains v = true) ∧ t.Holds g p) ∧
    ∃ n s, (Stage.start g).Rounds n s ∧ (∀ v, s.rest.contains v = false) ∧
      (solve g).outcome = .ok s.solution := by
  obtain ⟨g, hmade, htotal, hmax⟩ := duel_total
  have hg : g.Reachable := .build hmade
  obtain ⟨⟨v, hv, -⟩, -⟩ := hg.coherent.maxPriority_some hmax
  obtain ⟨hfinds, -, n, s, hrounds, -, hempty, hsolve⟩ := promotion_terminates hg htotal
  obtain ⟨top, m, k, p, t, htop, hfound, -, hnonempty, hholds, -⟩ := hfinds ⟨v, hv⟩
  obtain rfl : 4 = top := Option.some.inj (hmax.symm.trans htop)
  exact ⟨g, hmade, ⟨m, k, p, t, hfound, hnonempty, hholds⟩, n, s, hrounds, hempty, hsolve⟩

end Promotion

end ParityGames
