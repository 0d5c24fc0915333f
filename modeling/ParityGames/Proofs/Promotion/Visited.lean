import ParityGames.Proofs.Attractor.Least
import ParityGames.Proofs.Promotion.Search

/-! # The states that a search visits

Before every step of a search the regions are in order: the free vertices and those of the current
region make up a total part, and a region above is its own attractor in the part in which it was
grown. So a region that cannot be held leaves a lower one to grow, and from a region that is held
the opponent can escape only to higher regions of the same player.
-/

namespace ParityGames

namespace Promotion

variable {g h : Game} {s : State} {z : Territory} {top n k r : Nat}

namespace State

def assigned (s : State) (g : Game) (r : Nat) : List Nat :=
  g.vertices.filter fun v => s.label v = some r

structure InOrder (s : State) (g : Game) : Prop where
  at_least : ∀ v r, s.label v = some r → s.priority ≤ r
  low : ∀ v r, s.label v = some r → g.contains v = true ∧ g.priorityOf v ≤ r
  free : ∀ v, s.label v = none →
    s.move v = none ∧ (g.contains v = true → g.priorityOf v ≤ s.priority)
  moves : ∀ v w, s.move v = some w →
    w ∈ g.successors v ∧ ∃ r, s.label v = some r ∧ g.owner v = Player.ofPriority r
  rest_total : ∃ h, s.part g s.priority = .ok h ∧ h.isTotal = true ∧
    ∀ v, h.contains v = true ↔
      g.contains v = true ∧ (s.label v = none ∨ s.label v = some s.priority)
  attracted : ∀ r, s.priority < r → ∃ h z, s.part g r = .ok h ∧
    (∀ v, h.contains v = true ↔ g.contains v = true ∧ ∀ q, s.label v = some q → q ≤ r) ∧
    attractor h (Player.ofPriority r) (s.assigned g r) = .ok z ∧
    ∀ v, z.region.contains v = true ↔ s.label v = some r

/-- What growing the region of the current priority leads to. A region that is open or leaky leaves
a lower priority, and from one that is neither the opponent can only go to higher regions, which
belong to the same player. -/
structure Grows (s : State) (g h : Game) (z : Territory) : Prop where
  part : s.part g s.priority = .ok h
  region : attractor h (Player.ofPriority s.priority) (s.targets g h) = .ok z
  lower : (isOpen g h (Player.ofPriority s.priority) z.region ||
      isLeaky g h (Player.ofPriority s.priority) z.region) = true →
    ∃ next < s.priority, nextPriority? h z.region = some next ∧
      step g s = .ok (.descend { s.enter z with priority := next })
  escapes : isOpen g h (Player.ofPriority s.priority) z.region = false →
    isLeaky g h (Player.ofPriority s.priority) z.region = false →
    ∀ v w, z.region.contains v = true → g.owner v ≠ Player.ofPriority s.priority →
      w ∈ g.successors v → z.region.contains w = false →
      ∃ r, (s.enter z).label w = some r ∧ s.priority < r ∧ r % 2 = s.priority % 2

theorem mem_assigned {v : Nat} :
    v ∈ s.assigned g r ↔ g.contains v = true ∧ s.label v = some r := by
  rw [assigned, List.mem_filter, Game.mem_vertices, decide_eq_true_eq]

theorem not_mem_above_iff {v : Nat} :
    v ∉ s.above r ↔ ∀ q, s.label v = some q → q ≤ r := by
  simp only [mem_above, not_exists, not_and, ← Nat.not_lt, imp_not_comm]

theorem label_low {v : Nat} (hlow : v ∉ s.above r) (hnot : s.label v ≠ some r) :
    ∀ q, s.label v = some q → q < r := by
  intro q hq
  refine Nat.lt_of_le_of_ne (not_mem_above_iff.1 hlow q hq) ?_
  rintro rfl
  exact hnot hq

namespace Orderly

/-- A region above takes in whatever its player can pull into it from below. -/
theorem absorbs (hs : s.Orderly g) (hr : s.priority < r) (hof : h.PartOf g)
    (hin : ∀ v, h.contains v = true ↔ g.contains v = true ∧ v ∉ s.above r) :
    h.Absorbs (Player.ofPriority r) {v | v ∈ s.assigned g r} (s.region r) where
  active := by
    intro v hv
    refine (hin v).2 ⟨hs.active hv, not_mem_above_iff.2 fun q hq => ?_⟩
    exact Nat.le_of_eq (Option.some.inj (hq.symm.trans hv))
  targets := fun v hv _ => (mem_assigned.1 hv).2
  own := by
    rintro v hv howner ⟨w, hw, hlabel⟩
    by_contra hnot
    obtain ⟨hactive, hlow⟩ := (hin v).1 hv
    have hedge := (hof.mem_successors (hs.active hlabel)).1 hw
    exact hs.guarded r hr v w hactive (label_low hlow hnot) (by rwa [← hof.owner]) hedge.1
      hlabel
  other := by
    intro v hv _ _ hall
    by_contra hnot
    obtain ⟨hactive, hlow⟩ := (hin v).1 hv
    -- below the region there is a successor below it
    have hbelow : v ∉ s.above (r - 1) := not_mem_above_iff.2 fun q hq => by
      have hlt := label_low hlow hnot q hq
      omega
    obtain ⟨w, hw, hwbelow⟩ := hs.total (r - 1) (by omega) v hactive hbelow
    have hwactive := Game.contains_of_mem_successors hw
    have hle := not_mem_above_iff.1 hwbelow
    have hwin : h.contains w = true := (hin w).2 ⟨hwactive, not_mem_above_iff.2 fun q hq => by
      have hq' := hle q hq
      omega⟩
    have hlabel := hall w ((hof.mem_successors hwactive).2 ⟨hw, hwin⟩)
    have hle' := hle r hlabel
    omega

/-- A region above is its own attractor in the part in which it was grown. -/
theorem attracted (hs : s.Orderly g) (hg : g.Coherent) (hr : s.priority < r) :
    ∃ h z, s.part g r = .ok h ∧
      (∀ v, h.contains v = true ↔ g.contains v = true ∧ ∀ q, s.label v = some q → q ≤ r) ∧
      attractor h (Player.ofPriority r) (s.assigned g r) = .ok z ∧
      ∀ v, z.region.contains v = true ↔ s.label v = some r := by
  obtain ⟨h, hpart, hcoherent, hof, hin⟩ := s.part_spec hg r
  obtain ⟨z, hz, -, hleast⟩ :=
    attractor_isLeast hcoherent (Player.ofPriority r) (s.assigned g r)
  have habsorbs := hs.absorbs hr hof hin
  refine ⟨h, z, hpart, fun v => (hin v).trans (and_congr_right fun _ => not_mem_above_iff), hz,
    fun v => ⟨fun hv => hleast.2 habsorbs hv, fun hv => ?_⟩⟩
  exact hleast.1.targets v (mem_assigned.2 ⟨hs.active hv, hv⟩) (habsorbs.active v hv)

theorem rest_total (hs : s.Orderly g) (hg : g.Coherent) :
    ∃ h, s.part g s.priority = .ok h ∧ h.isTotal = true ∧
      ∀ v, h.contains v = true ↔
        g.contains v = true ∧ (s.label v = none ∨ s.label v = some s.priority) := by
  obtain ⟨h, hpart, -, hof, hin⟩ := s.part_spec hg s.priority
  refine ⟨h, hpart, Game.isTotal_iff.2 fun v hv => ?_, fun v => (hin v).trans ?_⟩
  · obtain ⟨hactive, hlow⟩ := (hin v).1 hv
    obtain ⟨w, hw, hwlow⟩ := hs.total s.priority (Nat.le_refl _) v hactive hlow
    have hwactive := Game.contains_of_mem_successors hw
    exact ⟨w, (hof.mem_successors hwactive).2 ⟨hw, (hin w).2 ⟨hwactive, hwlow⟩⟩⟩
  · refine and_congr_right fun _ => ?_
    rw [not_mem_above_iff]
    cases hlabel : s.label v with
    | none => simp
    | some r =>
        have hle := hs.at_least v r hlabel
        simp only [Option.some.injEq, forall_eq', reduceCtorEq, false_or]
        omega

theorem inOrder (hs : s.Orderly g) (hg : g.Coherent) : s.InOrder g where
  at_least := hs.at_least
  low := fun v r hv => ⟨hs.active hv, (hs.quasi r).low v hv⟩
  free := by
    intro v hv
    refine ⟨Option.eq_none_iff_forall_ne_some.2 fun w hw => ?_, fun hactive => hs.low v hactive hv⟩
    obtain ⟨r, hlabel, -⟩ := hs.owned v w hw
    rw [hv] at hlabel
    cases hlabel
  moves := by
    intro v w hw
    obtain ⟨r, hlabel, howner⟩ := hs.owned v w hw
    rcases (hs.quasi r).own v hlabel howner with ⟨x, -, hmove, hedge⟩ | ⟨hnone, -⟩
    · rw [hw] at hmove
      exact ⟨Option.some.inj hmove ▸ hedge, r, hlabel, howner⟩
    · rw [hw] at hnone
      cases hnone
  rest_total := hs.rest_total hg
  attracted := fun _ hr => hs.attracted hg hr

theorem exists_grows (hs : s.Orderly g) (hg : g.Coherent) : ∃ h z, s.Grows g h z := by
  obtain ⟨h, z, hpart, hregion, hz⟩ := grow_spec hg hs
  refine ⟨h, z, hpart, hregion, fun hway => ?_, fun hopen hleaky v w hv howner hw hout => ?_⟩
  · obtain ⟨next, hnext⟩ := hz.exists_next hs hway
    obtain ⟨⟨u, hu, huout, hupriority⟩, -⟩ := nextPriority?_eq_some hnext
    rw [hz.partOf.priorityOf] at hupriority
    refine ⟨next, hupriority ▸ (hz.free hs hu huout).2, hnext, ?_⟩
    rw [step_eq hpart hregion, if_pos hway, hnext]
  · have ht := hz.held hg hs hopen hleaky
    obtain ⟨r, hr, hlabel⟩ := (ht.other v hv howner w hw).resolve_left (by
      simp [Territory.mem_area, hout])
    have hlabel' := (hz.label_above hg hs hr w).2 hlabel
    obtain ⟨-, -, hparity⟩ :=
      ht.escape_above hz hg hs hv howner hw hout ((ht.label_eq w).trans hlabel')
    refine ⟨r, hlabel', hr, ?_⟩
    unfold Player.ofPriority at hparity
    split at hparity <;> split at hparity <;> first | omega | cases hparity

end Orderly

end State

/-- The states in which a search stands before its steps, after so many of them, so many of which
were promotions. -/
inductive Visits (g : Game) (top : Nat) : Nat → Nat → State → Prop
  | start : Visits g top 0 0 (startAt g top)
  | descend {n k : Nat} {s next : State} (before : Visits g top n k s)
      (made : step g s = .ok (.descend next)) : Visits g top (n + 1) k next
  | promote {n k vertices : Nat} {s next : State} (before : Visits g top n k s)
      (made : step g s = .ok (.promote vertices next)) : Visits g top (n + 1) (k + 1) next

namespace Visits

theorem orderly (h : Visits g top n k s) (hg : g.Coherent) (htotal : g.isTotal = true)
    (htop : g.maxPriority? = some top) : s.Orderly g := by
  induction h with
  | start => exact orderly_startAt hg htotal htop
  | descend _ made ih => exact (StepHolds.of_step hg ih made).1
  | promote _ made ih => exact (StepHolds.of_step hg ih made).1

theorem outcome (h : Visits g top n k s) (fuel promotions : Nat) :
    (search g (fuel + n) (startAt g top) promotions).outcome =
      (search g fuel s (promotions + k)).outcome := by
  induction h generalizing fuel with
  | start => rfl
  | @descend n k s next _ made ih =>
      rw [Nat.add_comm n, ← Nat.add_assoc, ih (fuel + 1), outcome_search made]
  | @promote n k vertices s next _ made ih =>
      rw [Nat.add_comm n, ← Nat.add_assoc, ih (fuel + 1), outcome_search made, Nat.add_assoc]

end Visits

/-- In a total game that is not empty, the regions are in order in every state that the search from
the greatest priority comes to, and the next step does not fail. -/
theorem visited_in_order (hg : g.Reachable) (htotal : g.isTotal = true)
    (hsome : ∃ v, g.contains v = true) :
    ∃ top, g.maxPriority? = some top ∧ ∀ n k s, Visits g top n k s →
      (∀ fuel promotions, (search g (fuel + n) (startAt g top) promotions).outcome =
        (search g fuel s (promotions + k)).outcome) ∧
      s.InOrder g ∧ (∃ h z, s.Grows g h z) ∧ ∃ result, step g s = .ok result := by
  have hcoherent := hg.coherent
  obtain ⟨top, htop⟩ := hcoherent.exists_maxPriority hsome
  refine ⟨top, htop, fun n k s hvisits => ?_⟩
  have hs := hvisits.orderly hcoherent htotal htop
  obtain ⟨result, hstep, -⟩ := step_spec hcoherent hs
  exact ⟨hvisits.outcome, hs.inOrder hcoherent, hs.exists_grows hcoherent, result, hstep⟩

/-- Three vertices, of which the lower two are promoted into the region of the first. -/
def merging : GameBuilder :=
  ⟨VertexTable.ofList [⟨.even, 4, [1]⟩, ⟨.odd, 1, [0, 2]⟩, ⟨.even, 2, [1, 2]⟩]⟩

theorem visited_in_order_merging : ∃ g s t, merging.build = .ok g ∧ Visits g 4 1 0 s ∧
    Visits g 4 2 1 t ∧ s.InOrder g ∧ t.InOrder g ∧ t.assigned g 4 = [0, 1, 2] ∧
    ∃ h z, s.Grows g h z ∧ z.region.toList = [1, 2] ∧
      ∃ r, (s.enter z).label 0 = some r ∧ s.priority < r ∧ r % 2 = s.priority % 2 := by
  obtain ⟨g, hmade, htotal, hmax⟩ :
      ∃ g, merging.build = .ok g ∧ g.isTotal = true ∧ g.maxPriority? = some 4 :=
    ⟨_, rfl, by decide, by decide +kernel⟩
  have hg : g.Reachable := .build hmade
  obtain ⟨⟨v, hv, -⟩, -⟩ := hg.coherent.maxPriority_some hmax
  obtain ⟨top, htop, hvisited⟩ := visited_in_order hg htotal ⟨v, hv⟩
  obtain rfl : 4 = top := Option.some.inj (hmax.symm.trans htop)
  have hrun : (merging.build.toOption.any fun g =>
      match step g (startAt g 4) with
      | .ok (.descend s) =>
          ((s.part g s.priority).toOption.any fun h =>
            (attractor h (Player.ofPriority s.priority) (s.targets g h)).toOption.any fun z =>
              !isOpen g h (Player.ofPriority s.priority) z.region &&
              !isLeaky g h (Player.ofPriority s.priority) z.region && z.region.toList = [1, 2] &&
              g.owner 1 ≠ Player.ofPriority s.priority && (g.successors 1).contains 0) &&
          match step g s with
          | .ok (.promote _ t) => t.assigned g 4 = [0, 1, 2]
          | _ => false
      | _ => false) = true := by
    decide +kernel
  simp only [hmade, Except.toOption, Option.any_some] at hrun
  obtain ⟨-, -, -, first, hfirst⟩ := hvisited 0 0 _ .start
  rw [hfirst] at hrun
  cases first with
  | promote vertices s => cases hrun
  | closed t => cases hrun
  | descend s =>
      have hs := Visits.start.descend hfirst
      obtain ⟨-, hsorder, ⟨h, z, hgrows⟩, second, hsecond⟩ := hvisited 1 0 s hs
      simp only [hsecond, hgrows.part, hgrows.region, Option.any_some, Bool.and_eq_true,
        Bool.not_eq_true', decide_eq_true_eq, List.contains_iff_mem] at hrun
      obtain ⟨⟨⟨⟨⟨hopen, hleaky⟩, hregion⟩, howner⟩, hedge⟩, hpromote⟩ := hrun
      have hmem : ∀ v, z.region.contains v = true ↔ v ∈ [1, 2] := fun v => by
        rw [← VertexSet.mem_toList, hregion]
      cases second with
      | descend t => cases hpromote
      | closed t => cases hpromote
      | promote vertices t =>
          have ht := hs.promote hsecond
          refine ⟨g, s, t, hmade, hs, ht, hsorder, (hvisited 2 1 t ht).2.1,
            of_decide_eq_true hpromote, h, z, hgrows, hregion, ?_⟩
          refine hgrows.escapes hopen hleaky 1 0 ((hmem 1).2 (by simp)) howner hedge ?_
          rw [← Bool.not_eq_true, hmem]
          decide

end Promotion

end ParityGames
