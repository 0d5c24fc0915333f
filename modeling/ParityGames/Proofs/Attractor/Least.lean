import ParityGames.Proofs.Attractor.Search
import ParityGames.Proofs.Play.Holding
import Mathlib.Order.Bounds.Basic

/-! # The region of an attractor as a least fixpoint

A set of active vertices absorbs the targets if it has the active ones and everything the player
can pull into it. The region of an attractor is the least such set, in every game: a dead end of
the opponent is in it only as a target.
-/

namespace ParityGames

variable {g : Game} {p : Player} {target region : Set Nat}

/-- The set has the active targets, the vertices of the player that have a successor in it, and
the vertices of the opponent that have successors only in it, but do have one. -/
structure Game.Absorbs (g : Game) (p : Player) (target region : Set Nat) : Prop where
  active : ∀ v ∈ region, g.contains v = true
  targets : ∀ v ∈ target, g.contains v = true → v ∈ region
  own : ∀ v, g.contains v = true → g.owner v = p → (∃ w ∈ g.successors v, w ∈ region) → v ∈ region
  other : ∀ v, g.contains v = true → g.owner v ≠ p → (∃ w, w ∈ g.successors v) →
    (∀ w ∈ g.successors v, w ∈ region) → v ∈ region

/-- Only the active targets matter. -/
theorem Game.Absorbs.congr {target' : Set Nat} (h : g.Absorbs p target region)
    (hsame : ∀ v, g.contains v = true → (v ∈ target' ↔ v ∈ target)) :
    g.Absorbs p target' region :=
  { h with targets := fun v hv hactive => h.targets v ((hsame v hactive).1 hv) hactive }

/-- What is pulled into the target along edges is in every set that absorbs the target, by
induction on the rank that falls along the way. -/
theorem Game.Attracts.subset_absorbs {other : Set Nat} {move : Nat → Option Nat} {rank : Nat → Nat}
    (h : g.Attracts p target region move rank)
    (hedge : ∀ v ∈ region, v ∉ target → ∃ w, w ∈ g.successors v)
    (hother : g.Absorbs p target other) : region ⊆ other := by
  intro v hv
  induction hr : rank v using Nat.strong_induction_on generalizing v with
  | _ r ih =>
      subst hr
      have hactive := h.active v hv
      by_cases hin : v ∈ target
      · exact hother.targets v hin hactive
      · by_cases howner : g.owner v = p
        · obtain ⟨w, hw, -, hstep, hlt⟩ := h.own v hv hin howner
          exact hother.own v hactive howner ⟨w, hstep, ih (rank w) hlt hw rfl⟩
        · refine hother.other v hactive howner (hedge v hv hin) fun w hstep => ?_
          obtain ⟨hw, hlt⟩ := h.other v hv hin howner w hstep
          exact ih (rank w) hlt hw rfl

theorem Territory.IsAttractor.absorbs {t : Territory} (h : t.IsAttractor g p target) :
    g.Absorbs p target t.area where
  active v hv := h.active hv
  targets v hv _ := h.of_target hv
  own := by
    rintro v hactive howner ⟨w, hstep, hw⟩
    by_contra hout
    have hstay := h.escapes_own v hactive (by simpa [mem_area] using hout) howner w hstep
    exact Bool.false_ne_true (hstay.symm.trans hw)
  other := by
    rintro v hactive howner ⟨x, hx⟩ hall
    by_contra hout
    obtain ⟨w, hstep, hstay⟩ := h.escapes_other v hactive (by simpa [mem_area] using hout) howner
      (List.ne_nil_of_mem hx)
    exact Bool.false_ne_true (hstay.symm.trans (hall w hstep))

/-! ## Who joins has an edge -/

namespace Attractor

variable {s t : State} {u v : Nat}

/-- Besides the targets, only vertices with an edge are in the region. -/
structure Led (g : Game) (target : Set Nat) (s : State) : Prop where
  pending : ∀ v ∈ s.pending, g.contains v = true
  edge : ∀ v, s.region.contains v = true → v ∉ target → ∃ w, w ∈ g.successors v

theorem meetEdge_cases (h : meetEdge g p v s u = .ok t) :
    (t.region = s.region ∧ t.pending = s.pending) ∨
      (t.region = s.region.insert u ∧ t.pending = u :: s.pending) := by
  unfold meetEdge at h
  split at h
  · cases h
    exact Or.inl ⟨rfl, rfl⟩
  · split at h
    · cases h
      exact Or.inr ⟨rfl, rfl⟩
    · split at h
      · cases h
      · cases h
        split
        · exact Or.inr ⟨rfl, rfl⟩
        · exact Or.inl ⟨rfl, rfl⟩

theorem Led.meetEdge (h : Led g target s) (hu : g.contains u = true) (hedge : v ∈ g.successors u)
    (hstep : meetEdge g p v s u = .ok t) : Led g target t := by
  obtain ⟨hregion, hpending⟩ | ⟨hregion, hpending⟩ := meetEdge_cases hstep
  · exact {
      pending := hpending ▸ h.pending
      edge := hregion ▸ h.edge }
  · exact {
      pending := by
        rw [hpending]
        exact List.forall_mem_cons.2 ⟨hu, h.pending⟩
      edge := by
        intro w hw hnot
        rw [hregion, VertexSet.contains_insert] at hw
        by_cases heq : w = u
        · exact ⟨v, heq ▸ hedge⟩
        · exact h.edge w (by simpa [heq] using hw) hnot }

theorem Led.search (hg : g.Coherent) {fuel : Nat} (h : Led g target s)
    (hrun : search g p fuel s = .ok t) : Led g target t := by
  induction fuel generalizing s with
  | zero =>
      unfold Attractor.search at hrun
      cases hpending : s.pending with
      | nil =>
          rw [hpending] at hrun
          cases hrun
          exact h
      | cons v rest =>
          rw [hpending] at hrun
          cases hrun
  | succ fuel ih =>
      unfold Attractor.search at hrun
      cases hpending : s.pending with
      | nil =>
          rw [hpending] at hrun
          cases hrun
          exact h
      | cons v rest =>
          rw [hpending] at hrun
          obtain ⟨next, hfold, hrun⟩ := bind_eq_ok_iff.1 hrun
          have hactive := List.forall_mem_cons.1 (hpending ▸ h.pending)
          refine ih (foldlM_keeps hfold { pending := hactive.2, edge := h.edge } ?_) hrun
          intro u hu s s' hs hstep
          obtain ⟨hcontains, hedge⟩ := (hg.mem_predecessors hactive.1).1 hu
          exact hs.meetEdge hcontains hedge hstep

theorem Led.start (hg : g.Coherent) (targets : List Nat) :
    Led g {v | v ∈ targets} (start g targets) := by
  obtain ⟨-, -, -, -, hregion, hpending⟩ := start_spec hg targets
  exact {
    pending := fun v hv => (List.mem_filter.1 ((hpending v).1 hv)).2
    edge := fun v hv hnot =>
      absurd (List.mem_filter.1 ((hpending v).1 ((hregion v).1 hv))).1 hnot }

end Attractor

theorem edge_of_attractor (hg : g.Coherent) {targets : List Nat} {t : Territory}
    (ht : attractor g p targets = .ok t) {v : Nat} (hv : t.region.contains v = true)
    (hnot : v ∉ targets) : ∃ w, w ∈ g.successors v := by
  obtain ⟨s, hsearch, hs⟩ := bind_eq_ok_iff.1 ht
  cases hs
  exact ((Attractor.Led.start hg targets).search hg hsearch).edge v hv hnot

theorem attractor_isLeast (hg : g.Coherent) (p : Player) (targets : List Nat) :
    ∃ t, attractor g p targets = .ok t ∧ t.region.capacity = g.vertexCount ∧
      IsLeast {region | g.Absorbs p {v | v ∈ targets} region} t.area := by
  obtain ⟨t, ht, hspec⟩ := attractor_spec hg p targets
  obtain ⟨rank, hrank⟩ := hspec.attracts
  have hsame : ∀ v, g.contains v = true →
      (v ∈ {v | v ∈ targets} ↔ v ∈ {v | v ∈ targets ∧ g.contains v = true}) :=
    fun v hactive => (and_iff_left hactive).symm
  refine ⟨t, ht, hspec.capacity, hspec.absorbs.congr hsame, fun other hother => ?_⟩
  refine hrank.subset_absorbs (fun v hv hnot => ?_) (hother.congr fun v hv => (hsame v hv).symm)
  exact edge_of_attractor hg ht hv fun hin => hnot ⟨hin, hspec.active hv⟩

/-- The attractor comes through in every game, and its region is the least set that absorbs the
active targets, so that neither their order nor their repetitions matter. -/
theorem attractor_region_least (hg : g.Reachable) (p : Player) (targets : List Nat) :
    ∃ t, attractor g p targets = .ok t ∧
      IsLeast {region | g.Absorbs p {v | v ∈ targets} region} t.area ∧
      ∀ targets', (∀ v, g.contains v = true → (v ∈ targets' ↔ v ∈ targets)) →
        ∃ t', attractor g p targets' = .ok t' ∧ t'.region = t.region := by
  obtain ⟨t, ht, hcap, hleast⟩ := attractor_isLeast hg.coherent p targets
  refine ⟨t, ht, hleast, fun targets' hsame => ?_⟩
  obtain ⟨t', ht', hcap', hleast'⟩ := attractor_isLeast hg.coherent p targets'
  have hareas : t'.area = t.area :=
    Set.Subset.antisymm (hleast'.2 (hleast.1.congr hsame))
      (hleast.2 (hleast'.1.congr fun v hv => (hsame v hv).symm))
  refine ⟨t', ht', VertexSet.ext (hcap'.trans hcap.symm) fun v => ?_⟩
  exact Bool.eq_iff_iff.2 (Set.ext_iff.1 hareas v)

/-- In what is left of a duel, `0` is a dead end of the opponent and out of reach. -/
theorem attractor_region_least_duel : ∃ g, duel.build = .ok g ∧
    ∃ part, g.difference (VertexSet.ofList 5 [1, 2]) = part ∧ part.isTotal = false ∧
      ∃ t, attractor part .odd [4, 9, 2, 4] = .ok t ∧ t.region.toList = [3, 4] ∧
        IsLeast {region | part.Absorbs .odd {v | v ∈ [4, 9, 2, 4]} region} t.area ∧
        ∃ t', attractor part .odd [4] = .ok t' ∧ t'.region = t.region := by
  obtain ⟨g, hmade, -, -⟩ := duel_total
  have hrun : (duel.build.toOption.any fun g =>
      let part := g.difference (VertexSet.ofList 5 [1, 2])
      !part.isTotal && !part.contains 9 && !part.contains 2 &&
        (attractor part .odd [4, 9, 2, 4]).toOption.any fun t => t.region.toList = [3, 4]) =
      true := by
    decide +kernel
  obtain ⟨t, ht, hleast, hsame⟩ := attractor_region_least
    (.difference (VertexSet.ofList 5 [1, 2]) (.build hmade)) .odd [4, 9, 2, 4]
  simp only [hmade, Except.toOption, Option.any_some, ht, Bool.and_eq_true, decide_eq_true_eq,
    Bool.not_eq_true'] at hrun
  obtain ⟨⟨⟨hdead, hunknown⟩, hinactive⟩, hregion⟩ := hrun
  refine ⟨g, hmade, _, rfl, hdead, t, ht, hregion, hleast, hsame [4] fun v hv => ?_⟩
  have hne : v ≠ 9 ∧ v ≠ 2 := ⟨fun heq => by simp [heq, hunknown] at hv,
    fun heq => by simp [heq, hinactive] at hv⟩
  simp [hne.1, hne.2]

end ParityGames
