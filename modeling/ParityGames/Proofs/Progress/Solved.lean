import ParityGames.Proofs.Play.Holding
import ParityGames.Proofs.Progress.Certificate
import ParityGames.Proofs.Progress.Course
import ParityGames.Proofs.Zielonka.Solved

/-! # Progress measures solve every total game

The vertices below the top are the greatest dominion of the player whose measures were lifted. Total
games are determined, so the vertices at the top are the greatest dominion of the opponent, and the
measures of the opponent stay below the top on all of them.
-/

namespace ParityGames

namespace ProgressMeasures

variable {g : Game} {p : Player} {m : ProgressMeasures}

/-- There is room for a counter for every priority of the game. -/
def HasRoom (g : Game) : Prop := ∀ d, g.maxPriority? = some d → (d + 1) * 8 < storageBound

structure Within (g : Game) (p : Player) (m : ProgressMeasures) : Prop where
  game : m.game = g
  player : m.player = p
  bounds : counterCount g = .ok m.bounds.length ∧ m.bounds = boundsFor g p m.bounds.length
  length : m.measures.length = g.vertexCount
  fits : ∀ v, (m.measure v).Fits m.bounds

/-- Nothing is raised yet, and every priority has a counter. -/
structure Fresh (g : Game) (p : Player) (m : ProgressMeasures) : Prop where
  game : m.game = g
  player : m.player = p
  proper : m.Proper
  zero : ∀ v, g.contains v = true → m.levelAt v = 0

theorem fits_zero (bounds : List Nat) :
    (Measure.zero bounds.length).Fits bounds ∧ (Measure.zero bounds.length).level bounds = 0 := by
  have hfits := @Measure.forall₂_replicate_append bounds bounds.length (Nat.le_refl _) []
    (by rw [List.drop_length]; exact List.Forall₂.nil)
  have hvalue := @Measure.value_replicate_append bounds bounds.length (Nat.le_refl _) []
  rw [List.append_nil] at hfits hvalue
  refine ⟨hfits, hvalue.trans ?_⟩
  rw [List.drop_length]
  exact Nat.mul_zero _

theorem lt_counterCount (hg : g.Coherent) {length : Nat} (h : counterCount g = .ok length) {v : Nat}
    (hv : g.contains v = true) : g.priorityOf v < length := by
  unfold counterCount at h
  cases hmax : g.maxPriority? with
  | none =>
      have hout := hg.maxPriority_none hmax v
      rw [hv] at hout
      cases hout
  | some d =>
      simp only [hmax] at h
      split at h
      · cases h
        exact Nat.lt_succ_of_le ((hg.maxPriority_some hmax).2 v hv)
      · cases h

namespace Within

theorem proper (h : m.Within g p) (hg : g.Coherent) : m.Proper where
  coherent := h.game.symm ▸ hg
  bounds_eq := by
    rw [h.game, h.player]
    exact h.bounds.2
  low := by
    intro v hv
    rw [h.game] at hv ⊢
    exact lt_counterCount hg h.bounds.1 hv
  length := h.length.trans (congrArg Game.vertexCount h.game.symm)
  fits := fun v _ => h.fits v

end Within

theorem within_of_start (h : start g p = .ok m) :
    m.Within g p ∧ ∀ v < g.vertexCount, m.measure v = Measure.zero m.bounds.length := by
  unfold start at h
  obtain ⟨length, hcount, h⟩ := bind_eq_ok_iff.1 h
  obtain ⟨-, -, h⟩ := bind_eq_ok_iff.1 h
  cases h
  have hbounds : (boundsFor g p length).length = length := by simp [boundsFor]
  obtain ⟨hfits, -⟩ := fits_zero (boundsFor g p length)
  rw [hbounds] at hfits
  have hmeasure : ∀ v, (VertexTable.fill (Measure.zero length) g.vertexCount).getD v .top =
      if v < g.vertexCount then Measure.zero length else .top :=
    fun v => VertexTable.getD_fill _ _ _ _
  refine ⟨⟨rfl, rfl, ?_, VertexTable.length_fill _ _, fun v => ?_⟩, fun v hv => ?_⟩
  · show counterCount g = .ok (boundsFor g p length).length ∧
      boundsFor g p length = boundsFor g p (boundsFor g p length).length
    rw [hbounds]
    exact ⟨hcount, rfl⟩
  · unfold measure
    rw [hmeasure]
    split
    · exact hfits
    · trivial
  · unfold measure
    rw [hmeasure, if_pos hv, hbounds]

theorem fresh_of_start (hg : g.Coherent) (h : start g p = .ok m) : Fresh g p m := by
  obtain ⟨hwithin, hzero⟩ := within_of_start h
  refine ⟨hwithin.game, hwithin.player, hwithin.proper hg, fun v hv => ?_⟩
  unfold levelAt
  rw [hzero v (hg.contains_lt hv)]
  exact (fits_zero m.bounds).2

theorem start_spec (hg : g.Coherent) (hroom : HasRoom g) (p : Player) :
    ∃ m, start g p = .ok m ∧ Fresh g p m := by
  suffices ∃ m, start g p = .ok m by
    obtain ⟨m, hstart⟩ := this
    exact ⟨m, hstart, fresh_of_start hg hstart⟩
  have hcheck : ∀ {length : Nat}, length * 8 < storageBound → checkStorage length 8 = .ok () :=
    fun hlt => if_pos hlt
  unfold start counterCount
  cases hmax : g.maxPriority? with
  | none => exact ⟨_, by rw [ok_bind, hcheck (by decide)]; rfl⟩
  | some d =>
      have hlt := hroom d hmax
      have hnumber : d + 1 < numberBound := by
        unfold storageBound at hlt
        unfold numberBound
        omega
      simp only [if_pos hnumber]
      exact ⟨_, by rw [ok_bind, hcheck hlt]; rfl⟩

def splitStep (m : ProgressMeasures) (parts : Territory × VertexSet) (v : Nat) :
    Territory × VertexSet :=
  if (m.measure v).isTop then (parts.1, parts.2.insert v)
  else
    (⟨parts.1.region.insert v,
      if m.game.owner v = m.player then
        match (m.lift v).2 with
        | some w => parts.1.moves.insert v w
        | none => parts.1.moves
      else parts.1.moves⟩, parts.2)

theorem split_eq (m : ProgressMeasures) :
    m.split = m.game.vertices.foldl m.splitStep
      (Territory.empty m.game.vertexCount, VertexSet.empty m.game.vertexCount) := rfl

structure Splits (m : ProgressMeasures) (done : Nat → Prop) (parts : Territory × VertexSet) :
    Prop where
  capacity : parts.1.region.capacity = m.game.vertexCount
  capacity_lost : parts.2.capacity = m.game.vertexCount
  won : ∀ v, parts.1.region.contains v = true ↔ done v ∧ (m.measure v).isTop = false
  lost : ∀ v, parts.2.contains v = true ↔ done v ∧ (m.measure v).isTop = true
  moves : ∀ v w, parts.1.moves.get? v = some w ↔
    done v ∧ (m.measure v).isTop = false ∧ m.game.owner v = m.player ∧ (m.lift v).2 = some w

theorem splitStep_spec {done : Nat → Prop} {parts : Territory × VertexSet} {v : Nat}
    (hv : v < m.game.vertexCount) (h : m.Splits done parts) :
    m.Splits (fun u => done u ∨ u = v) (m.splitStep parts v) := by
  have hcap := h.capacity
  have hcap' := h.capacity_lost
  unfold splitStep
  by_cases htop : (m.measure v).isTop = true
  · rw [if_pos htop]
    refine ⟨hcap, (VertexSet.capacity_insert _ _).trans hcap', fun u => ?_, fun u => ?_,
      fun u w => ?_⟩
    · rw [h.won]
      by_cases hu : u = v
      · simp [hu, htop]
      · simp [hu]
    · rw [VertexSet.contains_insert, Bool.or_eq_true, h.lost]
      by_cases hu : u = v
      · simp [hu, htop, hcap', hv]
      · simp [hu]
    · rw [h.moves]
      by_cases hu : u = v
      · simp [hu, htop]
      · simp [hu]
  · rw [if_neg htop]
    rw [Bool.not_eq_true] at htop
    refine ⟨(VertexSet.capacity_insert _ _).trans hcap, hcap', fun u => ?_, fun u => ?_,
      fun u w => ?_⟩
    · show (parts.1.region.insert v).contains u = true ↔ _
      rw [VertexSet.contains_insert, Bool.or_eq_true, h.won]
      by_cases hu : u = v
      · simp [hu, htop, hcap, hv]
      · simp [hu]
    · rw [h.lost]
      by_cases hu : u = v
      · simp [hu, htop]
      · simp [hu]
    · show (if m.game.owner v = m.player then
        match (m.lift v).2 with
        | some w => parts.1.moves.insert v w
        | none => parts.1.moves
        else parts.1.moves).get? u = some w ↔ _
      by_cases howner : m.game.owner v = m.player
      · rw [if_pos howner]
        cases hmove : (m.lift v).2 with
        | none =>
            rw [h.moves]
            by_cases hu : u = v
            · simp [hu, hmove]
            · simp [hu]
        | some x =>
            rw [SortedMap.get?_insert]
            by_cases hu : u = v
            · simp [hu, htop, howner, hmove]
            · rw [if_neg hu, h.moves]
              simp [hu]
      · rw [if_neg howner, h.moves]
        by_cases hu : u = v
        · simp [hu, howner]
        · simp [hu]

theorem split_spec (hg : m.game.Coherent) :
    m.Splits (fun v => m.game.contains v = true) m.split := by
  have hsplit := foldl_induction m.splitStep m.game.vertices
    (Territory.empty m.game.vertexCount, VertexSet.empty m.game.vertexCount)
    (fun done parts => m.Splits (fun v => v ∈ done) parts)
    ⟨rfl, rfl, by simp [Territory.empty], by simp, by simp [Territory.empty]⟩ ?_
  · rw [← split_eq] at hsplit
    simpa only [Game.mem_vertices] using hsplit
  · intro done v rest parts hitems h
    have hv : v ∈ m.game.vertices := by simp [hitems]
    have hstep := splitStep_spec (hg.contains_lt (Game.mem_vertices.1 hv)) h
    simpa only [List.mem_append, List.mem_singleton] using hstep

theorem winnings_of_turns {start : ProgressMeasures} {policy : Policy} {n : Nat} {t : Stage}
    (hstart : ProgressMeasures.start g p = .ok start) (hgame : start.game = g)
    (hturns : (Stage.start start policy).Turns n t) (hend : t.next? = none)
    (hle : n ≤ start.turnBound) : (winnings policy g p).outcome = .ok t.measures.split := by
  have hrun : (liftAll start.turnBound start (Schedule.start start.game policy) 0).outcome = _ :=
    hturns.outcome hend hle
  rw [hgame] at hrun
  unfold winnings
  simp only [Run.liftM_eq_attempt, hstart, Run.attempt_ok, Run.outcome_bind, Run.outcome_pure,
    Run.outcome_write, ok_bind, hrun]

theorem lifted_spec (hg : g.Coherent) (hroom : HasRoom g) (policy : Policy) (p : Player) :
    ∃ m : ProgressMeasures, (winnings policy g p).outcome = .ok m.split ∧
      m.game = g ∧ m.player = p ∧ m.Proper ∧ (∀ v, g.contains v = true → m.Settled v) ∧
      ∀ f : Nat → Nat, (∀ v, g.contains v = true → g.Pays p m.bounds f v) →
        ∀ v, g.contains v = true → m.levelAt v ≤ f v := by
  obtain ⟨start, hstart, rfl, rfl, hproper, hzero⟩ := start_spec hg hroom p
  obtain ⟨n, ⟨m, schedule, lifts⟩, hturns, hend, hle, hlater⟩ :=
    Stage.exists_course hproper policy
  have hm := hlater.lifted
  refine ⟨m, winnings_of_turns hstart rfl hturns hend hle, hm.game, hm.player, hm.proper,
    fun v hv => hlater.sound.settled_of_end hend v (hm.game.symm ▸ hv), fun f hpays v hv => ?_⟩
  rw [hm.bounds] at hpays
  refine hm.least f hpays (fun u hu => ?_) v hv
  show start.levelAt u ≤ f u
  rw [hzero u hu]
  exact Nat.zero_le _

/-- The player wins where its measures stay below the top, and nowhere else. -/
theorem winnings_spec (hg : g.Coherent) (htotal : g.isTotal = true) (hroom : HasRoom g)
    (policy : Policy) (p : Player) :
    ∃ t lost, (winnings policy g p).outcome = .ok (t, lost) ∧ t.Holds g p ∧
      lost.capacity = g.vertexCount ∧
      (∀ v, lost.contains v = (g.contains v && !t.region.contains v)) ∧
      ∀ region move, g.Dominion p region move → ∀ v ∈ region, t.region.contains v = true := by
  obtain ⟨m, hrun, rfl, rfl, hm, hsettled, hleast⟩ := lifted_spec hg hroom policy p
  have hsplit := split_spec hg
  have htop : ∀ v, m.game.contains v = true →
      ((m.measure v).isTop = false ↔ m.levelAt v < Measure.volume m.bounds) := by
    intro v hv
    have hle := Measure.level_le (hm.fits v hv)
    rw [← Bool.not_eq_true, Measure.isTop_iff (hm.fits v hv)]
    unfold levelAt
    omega
  have hwon : ∀ v, m.split.1.region.contains v = true ↔
      m.game.contains v = true ∧ m.levelAt v < Measure.volume m.bounds := fun v =>
    (hsplit.won v).trans (and_congr_right (htop v))
  have hmove : ∀ v, m.game.contains v = true → m.levelAt v < Measure.volume m.bounds →
      m.game.owner v = m.player → ∃ w ∈ m.game.successors v, m.split.1.moves.get? v = some w ∧
        m.game.toll m.player m.bounds v (m.levelAt w) ≤ m.levelAt v := by
    intro v hv hlow howner
    obtain ⟨w, hw, hlift, htoll⟩ := hm.lift_move hv (Nat.lt_of_le_of_lt (hsettled v hv) hlow)
    refine ⟨w, hw, (hsplit.moves v w).2 ⟨hv, (htop v hv).2 hlow, howner, hlift⟩, ?_⟩
    rw [htoll]
    exact hsettled v hv
  have hdominion : m.game.Dominion m.player m.split.1.area m.split.1.moves.get? := by
    have harea : m.split.1.area =
        {v | m.game.contains v = true ∧ m.levelAt v < Measure.volume m.bounds} := Set.ext hwon
    rw [harea]
    exact Game.dominion_of_pays hm.low (fun v hv => hm.pays_of_lift_le hv (hsettled v hv)) hmove
  refine ⟨m.split.1, m.split.2, hrun, ⟨hsplit.capacity, hdominion, fun v => ⟨?_, ?_⟩⟩,
    hsplit.capacity_lost, fun v => ?_, fun region move hD v hv => ?_⟩
  · rintro ⟨w, hw⟩
    obtain ⟨hv, hlow, howner, -⟩ := (hsplit.moves v w).1 hw
    exact ⟨(hsplit.won v).2 ⟨hv, hlow⟩, howner⟩
  · rintro ⟨hv, howner⟩
    obtain ⟨hin, hlow⟩ := (hwon v).1 hv
    obtain ⟨w, -, hw, -⟩ := hmove v hin hlow howner
    exact ⟨w, hw⟩
  · rw [Bool.eq_iff_iff, hsplit.lost, Bool.and_eq_true, Bool.not_eq_true', ← Bool.not_eq_true,
      hsplit.won]
    cases (m.measure v).isTop <;> simp
  · have hin := hD.active v hv
    obtain ⟨f, hpays, hlow⟩ := hD.exists_pays hg hm.low htotal
    rw [← hm.bounds_eq] at hpays hlow
    exact (hwon v).2 ⟨hin, Nat.lt_of_le_of_lt (hleast f hpays v hin) (hlow v hv)⟩

theorem HasRoom.of_part {rest : Game} (hroom : HasRoom g) (hg : g.Coherent)
    (hrest : rest.Coherent) (hof : rest.PartOf g)
    (hsub : ∀ v, rest.contains v = true → g.contains v = true) : HasRoom rest := by
  intro d hd
  obtain ⟨⟨v, hv, hpriority⟩, -⟩ := hrest.maxPriority_some hd
  cases hmax : g.maxPriority? with
  | none =>
      have hout := hg.maxPriority_none hmax v
      rw [hsub v hv] at hout
      cases hout
  | some e =>
      have hle := (hg.maxPriority_some hmax).2 v (hsub v hv)
      have hlt := hroom e hmax
      rw [hof.priorityOf] at hpriority
      omega

/-- The first pass leaves exactly the winnings of player odd at the top. -/
theorem lost_eq_odd {even : Territory} {lost : VertexSet} {s : Solution} (hs : s.Holds g)
    (heven : even.Holds g .even)
    (hlost : ∀ v, lost.contains v = (g.contains v && !even.region.contains v))
    (hgreatest : ∀ region move, g.Dominion .even region move → ∀ v ∈ region,
      even.region.contains v = true) (v : Nat) :
    lost.contains v = true ↔ v ∈ (s.of .odd).area := by
  rw [hlost, Bool.and_eq_true, Bool.not_eq_true']
  constructor
  · rintro ⟨hv, hout⟩
    apply (hs.covers .even v hv).resolve_left
    intro hin
    rw [hgreatest _ _ (hs.holds .even).dominion v hin] at hout
    cases hout
  · intro hv
    refine ⟨(hs.holds .odd).dominion.active v hv, ?_⟩
    by_contra hin
    rw [Bool.not_eq_false] at hin
    exact heven.dominion.disjoint (hs.holds .odd).dominion hin hv

/-- Both passes come through and agree, and together they solve the game. -/
theorem measures_solve (policy : Policy) (hg : g.Reachable) (htotal : g.isTotal = true)
    (hroom : HasRoom g) :
    ∃ even lost rest odd left,
      (winnings policy g .even).outcome = .ok (even, lost) ∧
      g.subgame lost = .ok rest ∧ rest.isTotal = true ∧
      (winnings policy rest .odd).outcome = .ok (odd, left) ∧ left.isEmpty = true ∧
      (solve policy g).outcome = .ok ⟨even, odd⟩ ∧ Solution.Solves ⟨even, odd⟩ g := by
  obtain ⟨even, lost, hrun, heven, hcapacity, hlost, hgreatest⟩ :=
    winnings_spec hg.coherent htotal hroom policy .even
  obtain ⟨s, hs⟩ := Zielonka.exists_holds hg.coherent htotal
  have hodd := (hs.holds .odd).dominion
  obtain ⟨rest, hsub, hcoherent, hof, hcontains⟩ := Game.subgame_spec hg.coherent hcapacity
  have hrest : ∀ v, rest.contains v = true ↔ v ∈ (s.of .odd).area := by
    intro v
    rw [hcontains, Bool.and_eq_true, lost_eq_odd hs heven hlost hgreatest]
    exact and_iff_left_of_imp (hodd.active v)
  -- The first pass leaves the winnings of player odd, which the opponent cannot leave.
  have hrestTotal : rest.isTotal = true := by
    rw [Game.isTotal_iff]
    intro v hv
    have hmem := (hrest v).1 hv
    suffices ∃ w ∈ (s.of .odd).area, w ∈ g.successors v by
      obtain ⟨w, hw, hedge⟩ := this
      exact ⟨w, (hof.mem_successors (hodd.active w hw)).2 ⟨hedge, (hrest w).2 hw⟩⟩
    by_cases howner : g.owner v = .odd
    · obtain ⟨w, hw, -, hedge⟩ := hodd.keeps v hmem howner
      exact ⟨w, hw, hedge⟩
    · obtain ⟨w, hedge⟩ := Game.isTotal_iff.1 htotal v (hodd.active v hmem)
      exact ⟨w, hodd.traps v hmem howner w hedge, hedge⟩
  obtain ⟨odd, left, hrun', hoddHolds, -, hleft, hgreatest'⟩ :=
    winnings_spec hcoherent hrestTotal
      (hroom.of_part hg.coherent hcoherent hof fun v hv => hodd.active v ((hrest v).1 hv))
      policy .odd
  -- In the rest player odd wins everywhere, so the second pass leaves nothing at the top.
  have hall : ∀ v, rest.contains v = true → odd.region.contains v = true := fun v hv =>
    hgreatest' _ _ (hodd.to_part hof hrest) v ((hrest v).1 hv)
  have hempty : left.isEmpty = true := by
    rw [VertexSet.isEmpty_iff]
    intro v
    rw [hleft]
    cases hv : rest.contains v with
    | false => rfl
    | true => simp [hall v hv]
  have hoddWhole : odd.Holds g .odd := by
    refine hoddHolds.of_part hof (fun v hv => hodd.active v ((hrest v).1 hv))
      fun v hv howner w hw => (hrest w).2 (hodd.traps v ?_ howner w hw)
    exact (hrest v).1 (hoddHolds.dominion.active v hv)
  refine ⟨even, lost, rest, odd, left, hrun, hsub, hrestTotal, hrun', hempty, ?_, ?_⟩
  · simp only [solve, htotal, Bool.not_true, Bool.false_eq_true, if_false, Run.outcome_bind,
      Run.outcome_write, Run.outcome_pure, Run.liftM_eq_attempt, Run.attempt_ok, hrun, hsub,
      hrun', hempty, ok_bind]
  · refine (@Solution.Holds.ofWinner g .even even odd heven hoddWhole fun v hv => ?_).solves
    by_cases hin : even.region.contains v = true
    · exact Or.inl hin
    · refine Or.inr (hall v ((hrest v).2 ?_))
      rw [← lost_eq_odd hs heven hlost hgreatest, hlost, hv]
      simpa using hin

theorem measures_solve_duel :
    ∃ g, duel.build = .ok g ∧ ∃ even lost rest odd left,
      (winnings .predecessor g .even).outcome = .ok (even, lost) ∧
      g.subgame lost = .ok rest ∧ rest.isTotal = true ∧
      (winnings .predecessor rest .odd).outcome = .ok (odd, left) ∧ left.isEmpty = true ∧
      (solve .predecessor g).outcome = .ok ⟨even, odd⟩ ∧ Solution.Solves ⟨even, odd⟩ g := by
  obtain ⟨g, hmade, htotal, hmax⟩ := duel_total
  have hroom : HasRoom g := by
    intro d hd
    obtain rfl : 4 = d := Option.some.inj (hmax.symm.trans hd)
    decide
  exact ⟨g, hmade, measures_solve .predecessor (.build hmade) htotal hroom⟩

end ProgressMeasures

end ParityGames
