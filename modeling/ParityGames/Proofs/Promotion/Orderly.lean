import ParityGames.Proofs.Attractor.Holding
import ParityGames.Proofs.Promotion.Quasi
import ParityGames.Proofs.Promotion.Regions

/-! # Regions in order

The invariant of the search. Every region is a quasi-dominion, every region above the current
priority is closed under attraction by its player in what is not above it, and what is not above
any priority from the current one on is total. One lemma for each way in which a step can end shows
that the invariant is kept, or that the region is a dominion.
-/

namespace ParityGames

namespace Promotion

structure State.Orderly (s : State) (g : Game) : Prop where
  labels_length : s.labels.length = g.vertexCount
  moves_length : s.moves.length = g.vertexCount
  low : ∀ v, g.contains v = true → s.label v = none → g.priorityOf v ≤ s.priority
  owned : ∀ v w, s.move v = some w → ∃ r, s.label v = some r ∧ g.owner v = Player.ofPriority r
  at_least : ∀ v r, s.label v = some r → s.priority ≤ r
  used : ∀ v r, s.label v = some r → ∃ u, g.contains u = true ∧ g.priorityOf u = r
  quasi : ∀ r, g.QuasiDominion (Player.ofPriority r) r (s.region r) (s.above r) s.move
  guarded : ∀ r, s.priority < r → ∀ v w, g.contains v = true →
    (∀ q, s.label v = some q → q < r) → g.owner v = Player.ofPriority r → w ∈ g.successors v →
    s.label w ≠ some r
  total : ∀ r, s.priority ≤ r → ∀ v, g.contains v = true → v ∉ s.above r →
    ∃ w ∈ g.successors v, w ∉ s.above r
  target : ∃ v, g.contains v = true ∧
    (s.label v = some s.priority ∨ s.label v = none ∧ g.priorityOf v = s.priority)

theorem State.Orderly.active {s : State} {g : Game} (hs : s.Orderly g) {v r : Nat}
    (hv : s.label v = some r) : g.contains v = true :=
  (hs.quasi r).active v hv

theorem State.quasi_of_lt {t : State} {g : Game} {bound r : Nat}
    (hge : ∀ v q, t.label v = some q → bound ≤ q) (hr : r < bound) :
    g.QuasiDominion (Player.ofPriority r) r (t.region r) (t.above r) t.move := by
  have hempty : t.region r = ∅ := by
    apply Set.eq_empty_iff_forall_notMem.2
    intro v hv
    have hle := hge v r hv
    omega
  rw [hempty]
  exact Game.QuasiDominion.empty g _ r _ _

def State.part (s : State) (g : Game) (r : Nat) : Except Fault Game :=
  g.subgame (VertexSet.ofList g.vertexCount ({ s with priority := r }.below g))

/-- The region `z` is grown in the part `h` of the game that is not above. -/
structure Grown (g : Game) (s : State) (h : Game) (z : Territory) : Prop where
  partOf : h.PartOf g
  coherent : h.Coherent
  contains : ∀ v, h.contains v = true ↔ g.contains v = true ∧ v ∉ s.above s.priority
  attractor : z.IsAttractor h (Player.ofPriority s.priority)
    (s.region s.priority ∪
      {v | g.contains v = true ∧ s.label v = none ∧ g.priorityOf v = s.priority})

variable {g h : Game} {s : State} {z : Territory}

theorem State.part_spec (hg : g.Coherent) (s : State) (r : Nat) :
    ∃ h, s.part g r = .ok h ∧ h.Coherent ∧ h.PartOf g ∧
      ∀ v, h.contains v = true ↔ g.contains v = true ∧ v ∉ s.above r := by
  obtain ⟨h, hsub, hcoherent, hof, hcontains⟩ :=
    Game.subgame_spec hg (VertexSet.capacity_ofList g.vertexCount ({ s with priority := r }.below g))
  refine ⟨h, hsub, hcoherent, hof, fun v => ?_⟩
  have hbelow : v ∈ { s with priority := r }.below g ↔ g.contains v = true ∧ v ∉ s.above r :=
    State.mem_below
  rw [hcontains, Bool.and_eq_true, VertexSet.contains_ofList, ← hbelow]
  simp only [Bool.and_eq_true, decide_eq_true_eq]
  constructor
  · exact fun hv => hv.1.1
  · exact fun hv => ⟨⟨hv, hg.contains_lt (hbelow.1 hv).1⟩, (hbelow.1 hv).1⟩

theorem grow_spec (hg : g.Coherent) (hs : s.Orderly g) :
    ∃ h z, s.part g s.priority = .ok h ∧
      attractor h (Player.ofPriority s.priority) (s.targets g h) = .ok z ∧ Grown g s h z := by
  obtain ⟨h, hsub, hcoherent, hof, hin⟩ := State.part_spec hg s s.priority
  obtain ⟨z, hattractor, hz⟩ :=
    attractor_spec hcoherent (Player.ofPriority s.priority) (s.targets g h)
  refine ⟨h, z, hsub, hattractor, hof, hcoherent, hin, ?_⟩
  have htargets : {v | v ∈ s.targets g h ∧ h.contains v = true} =
      s.region s.priority ∪
        {v | g.contains v = true ∧ s.label v = none ∧ g.priorityOf v = s.priority} := by
    ext v
    rw [Set.mem_ofPred_eq, State.mem_targets fun v hv => ((hin v).1 hv).1, Set.mem_union,
      Set.mem_ofPred_eq, State.mem_region]
    constructor
    · rintro ⟨⟨hv, hlabel | ⟨hfree, hpriority⟩⟩, -⟩
      · exact Or.inl hlabel
      · exact Or.inr ⟨((hin v).1 hv).1, hfree, hpriority⟩
    · rintro (hlabel | ⟨hv, hfree, hpriority⟩)
      · have hv : h.contains v = true := (hin v).2 ⟨hs.active hlabel, by simp [hlabel]⟩
        exact ⟨⟨hv, Or.inl hlabel⟩, hv⟩
      · have hv' : h.contains v = true := (hin v).2 ⟨hv, by simp [hfree]⟩
        exact ⟨⟨hv', Or.inr ⟨hfree, hpriority⟩⟩, hv'⟩
  rwa [htargets] at hz

namespace Grown

theorem active (hz : Grown g s h z) {v : Nat} (hv : z.region.contains v = true) :
    g.contains v = true ∧ v ∉ s.above s.priority :=
  (hz.contains v).1 (hz.attractor.active hv)

theorem of_label (hz : Grown g s h z) {v : Nat} (hv : s.label v = some s.priority) :
    z.region.contains v = true :=
  hz.attractor.of_target (Or.inl hv)

theorem label_cases (hz : Grown g s h z) (hs : s.Orderly g) {v : Nat}
    (hv : z.region.contains v = true) : s.label v = none ∨ s.label v = some s.priority := by
  cases hlabel : s.label v with
  | none => exact Or.inl rfl
  | some r =>
      have hle := hs.at_least v r hlabel
      have hnot : ¬ s.priority < r := fun hlt => (hz.active hv).2 ⟨r, hlt, hlabel⟩
      exact Or.inr (congrArg some (by omega))

theorem free (hz : Grown g s h z) (hs : s.Orderly g) {v : Nat} (hv : h.contains v = true)
    (hout : z.region.contains v = false) :
    s.label v = none ∧ g.priorityOf v < s.priority := by
  obtain ⟨hactive, habove⟩ := (hz.contains v).1 hv
  have hfree : s.label v = none := by
    cases hlabel : s.label v with
    | none => rfl
    | some r =>
        have hle := hs.at_least v r hlabel
        have hnot : ¬ s.priority < r := fun hlt => habove ⟨r, hlt, hlabel⟩
        obtain rfl : r = s.priority := by omega
        rw [hz.of_label hlabel] at hout
        cases hout
  refine ⟨hfree, Nat.lt_of_le_of_ne (hs.low v hactive hfree) fun hpriority => ?_⟩
  rw [hz.attractor.of_target (Or.inr ⟨hactive, hfree, hpriority⟩)] at hout
  cases hout

theorem label_enter (hz : Grown g s h z) (hg : g.Coherent) (hs : s.Orderly g) (v : Nat) :
    (s.enter z).label v = if z.region.contains v = true then some s.priority else s.label v :=
  State.label_enter hs.labels_length (fun _ hv => hg.contains_lt (hz.active hv).1) v

theorem move_enter (hz : Grown g s h z) (hg : g.Coherent) (hs : s.Orderly g) (v : Nat) :
    (s.enter z).move v = (z.moves.get? v).or (s.move v) := by
  refine State.move_enter hs.moves_length (fun v w hw => ?_) v
  exact hg.contains_lt (hz.active ((hz.attractor.hasMove v).1 ⟨w, hw⟩).1).1

theorem quasi (hz : Grown g s h z) (hg : g.Coherent) (hs : s.Orderly g) :
    g.QuasiDominion (Player.ofPriority s.priority) s.priority z.area (s.above s.priority)
      (s.enter z).move := by
  obtain ⟨rank, hrank⟩ := hz.attractor.attracts
  have hnone : ∀ v, v ∈ s.region s.priority ∪
      {v | g.contains v = true ∧ s.label v = none ∧ g.priorityOf v = s.priority} →
      (s.enter z).move v = s.move v := by
    intro v hv
    have hmove : z.moves.get? v = none := by
      apply Option.eq_none_iff_forall_ne_some.2
      intro w hw
      exact ((hz.attractor.hasMove v).1 ⟨w, hw⟩).2.1 hv
    rw [hz.move_enter hg hs, hmove, Option.none_or]
  refine Game.QuasiDominion.attract ((hs.quasi s.priority).congr fun v hv => hnone v (Or.inl hv))
    rfl hz.partOf hz.contains (fun v hv => ⟨hv.2.2, ?_⟩)
    (hrank.congr fun v hv hnot howner => ?_) fun v hv => ?_
  · rw [hnone v (Or.inr hv)]
    apply Option.eq_none_iff_forall_ne_some.2
    intro w hw
    obtain ⟨r, hlabel, -⟩ := hs.owned v w hw
    rw [hv.2.1] at hlabel
    cases hlabel
  · obtain ⟨w, hw⟩ := (hz.attractor.hasMove v).2 ⟨hv, hnot, howner⟩
    simp [hz.move_enter hg hs, hw]
  · rcases hz.label_cases hs hv with hfree | hlabel
    · exact hs.low v (hz.active hv).1 hfree
    · exact (hs.quasi s.priority).low v hlabel

theorem owned_enter (hz : Grown g s h z) (hg : g.Coherent) (hs : s.Orderly g) {v w : Nat}
    (hmove : (s.enter z).move v = some w) :
    ∃ r, (s.enter z).label v = some r ∧ g.owner v = Player.ofPriority r := by
  rw [hz.label_enter hg hs]
  rw [hz.move_enter hg hs, Option.or_eq_some_iff] at hmove
  rcases hmove with hmove | ⟨-, hmove⟩
  · obtain ⟨hv, -, howner⟩ := (hz.attractor.hasMove v).1 ⟨w, hmove⟩
    exact ⟨s.priority, by rw [if_pos hv], by rwa [hz.partOf.owner] at howner⟩
  · obtain ⟨r, hlabel, howner⟩ := hs.owned v w hmove
    refine ⟨r, ?_, howner⟩
    split
    · rename_i hv
      rcases hz.label_cases hs hv with hfree | hsame
      · rw [hfree] at hlabel
        cases hlabel
      · exact hsame.symm.trans hlabel
    · exact hlabel

/-- Below the region every vertex has a successor there. -/
theorem total_rest (hz : Grown g s h z) (hs : s.Orderly g) {v : Nat} (hv : h.contains v = true)
    (hout : z.region.contains v = false) :
    ∃ w ∈ g.successors v, h.contains w = true ∧ z.region.contains w = false := by
  obtain ⟨hactive, habove⟩ := (hz.contains v).1 hv
  obtain ⟨w, hw, hbelow⟩ := hs.total s.priority (Nat.le_refl _) v hactive habove
  have hin := Game.contains_of_mem_successors hw
  have hw' : w ∈ h.successors v :=
    (hz.partOf.mem_successors hin).2 ⟨hw, (hz.contains w).2 ⟨hin, hbelow⟩⟩
  have hstay : ∃ x ∈ h.successors v, z.region.contains x = false := by
    by_cases howner : h.owner v = Player.ofPriority s.priority
    · exact ⟨w, hw', hz.attractor.escapes_own v hv hout howner w hw'⟩
    · exact hz.attractor.escapes_other v hv hout howner (List.ne_nil_of_mem hw')
  obtain ⟨x, hx, hxout⟩ := hstay
  have hxin := Game.contains_of_mem_successors hx
  exact ⟨x, ((hz.partOf.mem_successors ((hz.contains x).1 hxin).1).1 hx).1, hxin, hxout⟩

theorem label_above (hz : Grown g s h z) (hg : g.Coherent) (hs : s.Orderly g) {r : Nat}
    (hr : s.priority < r) (v : Nat) : (s.enter z).label v = some r ↔ s.label v = some r := by
  rw [hz.label_enter hg hs]
  split
  · rename_i hv
    have hne : s.label v ≠ some r := by
      intro hlabel
      exact (hz.active hv).2 ⟨r, hr, hlabel⟩
    simp only [hne, iff_false, Option.some.injEq]
    omega
  · rfl

theorem region_enter (hz : Grown g s h z) (hg : g.Coherent) (hs : s.Orderly g) {r : Nat}
    (hr : s.priority < r) : (s.enter z).region r = s.region r := by
  ext v
  exact hz.label_above hg hs hr v

theorem above_enter (hz : Grown g s h z) (hg : g.Coherent) (hs : s.Orderly g) {r : Nat}
    (hr : s.priority ≤ r) : (s.enter z).above r = s.above r := by
  ext v
  refine exists_congr fun q => and_congr_right fun hq => ?_
  exact hz.label_above hg hs (Nat.lt_of_le_of_lt hr hq) v

theorem quasi_above (hz : Grown g s h z) (hg : g.Coherent) (hs : s.Orderly g) {r : Nat}
    (hr : s.priority < r) :
    g.QuasiDominion (Player.ofPriority r) r (s.region r) (s.above r) (s.enter z).move := by
  apply (hs.quasi r).congr
  intro v hv
  have hnone : z.moves.get? v = none := by
    apply Option.eq_none_iff_forall_ne_some.2
    intro w hw
    exact (hz.active ((hz.attractor.hasMove v).1 ⟨w, hw⟩).1).2 ⟨r, hr, hv⟩
  rw [hz.move_enter hg hs, hnone, Option.none_or]

theorem at_least_enter (hz : Grown g s h z) (hg : g.Coherent) (hs : s.Orderly g) {v r : Nat}
    (hv : (s.enter z).label v = some r) : s.priority ≤ r := by
  rw [hz.label_enter hg hs] at hv
  split at hv
  · exact Nat.le_of_eq (Option.some.inj hv)
  · exact hs.at_least v r hv

/-- A vertex without a label from the priority on lies below the region. -/
theorem rest_of_low (hz : Grown g s h z) (hg : g.Coherent) (hs : s.Orderly g) {v : Nat}
    (hv : g.contains v = true) (hlow : ∀ q, (s.enter z).label v = some q → q < s.priority) :
    h.contains v = true ∧ z.region.contains v = false := by
  have hnone : (s.enter z).label v = none := by
    apply Option.eq_none_iff_forall_ne_some.2
    intro q hq
    have hle := hz.at_least_enter hg hs hq
    have hlt := hlow q hq
    omega
  rw [hz.label_enter hg hs] at hnone
  split at hnone
  · cases hnone
  · rename_i hout
    refine ⟨(hz.contains v).2 ⟨hv, ?_⟩, by simpa using hout⟩
    rintro ⟨q, -, hq⟩
    rw [hnone] at hq
    cases hq

theorem region_enter_self (hz : Grown g s h z) (hg : g.Coherent) (hs : s.Orderly g) :
    (s.enter z).region s.priority = z.area := by
  ext v
  rw [State.mem_region, hz.label_enter hg hs, Territory.mem_area]
  split
  · rename_i hv
    simp [hv]
  · rename_i hv
    simp only [hv, Bool.false_eq_true, iff_false]
    exact fun hin => hv (hz.of_label hin)

theorem quasi_enter (hz : Grown g s h z) (hg : g.Coherent) (hs : s.Orderly g) (r : Nat) :
    g.QuasiDominion (Player.ofPriority r) r ((s.enter z).region r) ((s.enter z).above r)
      (s.enter z).move := by
  rcases Nat.lt_trichotomy r s.priority with hr | rfl | hr
  · exact State.quasi_of_lt (fun v q hq => hz.at_least_enter hg hs hq) hr
  · rw [hz.region_enter_self hg hs, hz.above_enter hg hs (Nat.le_refl _)]
    exact hz.quasi hg hs
  · rw [hz.region_enter hg hs hr, hz.above_enter hg hs (Nat.le_of_lt hr)]
    exact hz.quasi_above hg hs hr

/-- The player of a region does not enter it from below. -/
theorem guarded_enter (hz : Grown g s h z) (hg : g.Coherent) (hs : s.Orderly g) {r v w : Nat}
    (hv : g.contains v = true) (hlow : ∀ q, (s.enter z).label v = some q → q < r)
    (howner : g.owner v = Player.ofPriority r) (hw : w ∈ g.successors v) :
    (s.enter z).label w ≠ some r := by
  intro hlabel
  rcases Nat.lt_trichotomy r s.priority with hr | rfl | hr
  · have hle := hz.at_least_enter hg hs hlabel
    omega
  · -- the region is an attractor of its player
    obtain ⟨hin, hout⟩ := hz.rest_of_low hg hs hv hlow
    have hwz : w ∈ z.area := by
      rw [← hz.region_enter_self hg hs]
      exact hlabel
    have hwin := (hz.contains w).2 (hz.active hwz)
    have hescape := hz.attractor.escapes_own v hin hout (by rwa [hz.partOf.owner]) w
      ((hz.partOf.mem_successors (hz.active hwz).1).2 ⟨hw, hwin⟩)
    rw [Territory.mem_area.1 hwz] at hescape
    cases hescape
  · refine hs.guarded r hr v w hv (fun q hq => ?_) howner hw ?_
    · by_cases hqr : s.priority < q
      · exact hlow q ((hz.label_above hg hs hqr v).2 hq)
      · omega
    · exact (hz.label_above hg hs hr w).1 hlabel

theorem total_enter (hz : Grown g s h z) (hg : g.Coherent) (hs : s.Orderly g) {r v : Nat}
    (hv : g.contains v = true) (hbelow : v ∉ (s.enter z).above r) :
    ∃ w ∈ g.successors v, w ∉ (s.enter z).above r := by
  by_cases hr : s.priority ≤ r
  · rw [hz.above_enter hg hs hr] at hbelow ⊢
    exact hs.total r hr v hv hbelow
  · obtain ⟨hin, hout⟩ := hz.rest_of_low hg hs hv fun q hq => by
      have hle : ¬ r < q := fun hrq => hbelow ⟨q, hrq, hq⟩
      omega
    obtain ⟨w, hw, hwin, hwout⟩ := hz.total_rest hs hin hout
    refine ⟨w, hw, ?_⟩
    rintro ⟨q, -, hq⟩
    rw [hz.label_enter hg hs, if_neg (by simp [hwout]), (hz.free hs hwin hwout).1] at hq
    cases hq

end Grown

theorem State.Orderly.exists_priority (hs : s.Orderly g) :
    ∃ u, g.contains u = true ∧ g.priorityOf u = s.priority := by
  obtain ⟨v, hv, hlabel | ⟨-, hpriority⟩⟩ := hs.target
  · exact hs.used v _ hlabel
  · exact ⟨v, hv, hpriority⟩

end Promotion

end ParityGames
