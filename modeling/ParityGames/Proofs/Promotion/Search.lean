import ParityGames.Proofs.Promotion.Potential

/-! # Searches come to an end

A step of a search leads to another state in order, of a greater potential, or to a dominion that is
not empty. The potential is bounded, so every search finds a dominion.
-/

namespace ParityGames

namespace Promotion

variable {g : Game} {s : State} {p : Player} {t : Territory} {n k fuel : Nat}

def StepHolds (g : Game) (s : State) : Step → Prop
  | .descend t => t.Orderly g ∧ s.potential g < t.potential g
  | .promote _ t => t.Orderly g ∧ s.potential g < t.potential g
  | .closed t => t.Holds g (Player.ofPriority s.priority) ∧ ∃ v, t.region.contains v = true

/-- A region that takes in everything is neither open nor leaky. -/
theorem Grown.not_open_of_all {h : Game} {z : Territory} (hz : Grown g s h z) (hs : s.Orderly g)
    (hall : ∀ v, h.contains v = true → z.region.contains v = true) :
    isOpen g h (Player.ofPriority s.priority) z.region = false ∧
      isLeaky g h (Player.ofPriority s.priority) z.region = false := by
  rw [isOpen_eq_false, isLeaky_eq_false]
  refine ⟨fun v hv _ => ?_, fun v _ _ w hw => hall w (Game.contains_of_mem_successors hw)⟩
  obtain ⟨hactive, hbelow⟩ := hz.active hv
  obtain ⟨w, hw, hwbelow⟩ := hs.total s.priority (Nat.le_refl _) v hactive hbelow
  have hwactive := Game.contains_of_mem_successors hw
  have hwin := (hz.contains w).2 ⟨hwactive, hwbelow⟩
  exact ⟨w, (hz.partOf.mem_successors hwactive).2 ⟨hw, hwin⟩, hall w hwin⟩

/-- An open or leaky region leaves a vertex outside of it. -/
theorem Grown.exists_next {h : Game} {z : Territory} (hz : Grown g s h z) (hs : s.Orderly g)
    (hway : (isOpen g h (Player.ofPriority s.priority) z.region ||
      isLeaky g h (Player.ofPriority s.priority) z.region) = true) :
    ∃ next, nextPriority? h z.region = some next := by
  cases hnext : nextPriority? h z.region with
  | some next => exact ⟨next, rfl⟩
  | none =>
      obtain ⟨hopen, hleaky⟩ := hz.not_open_of_all hs (nextPriority?_eq_none hnext)
      rw [hopen, hleaky] at hway
      cases hway

theorem step_eq {h : Game} {z : Territory} (hpart : s.part g s.priority = .ok h)
    (hregion : attractor h (Player.ofPriority s.priority) (s.targets g h) = .ok z) :
    step g s =
      if isOpen g h (Player.ofPriority s.priority) z.region ||
          isLeaky g h (Player.ofPriority s.priority) z.region then
        match nextPriority? h z.region with
        | some next => .ok (.descend { s.enter z with priority := next })
        | none => .error .openRegionWithoutRest
      else
        let t := (s.enter z).complete g h (Player.ofPriority s.priority) z.region
        match escape? t g (Player.ofPriority s.priority) z.region with
        | none => .ok (.closed (t.territory g (Player.ofPriority s.priority) z.region))
        | some target => .ok (.promote z.region.size (t.promote g z.region target)) := by
  have hpart' : g.subgame (VertexSet.ofList g.vertexCount (s.below g)) = .ok h := hpart
  unfold step
  simp only [hpart', hregion, ok_bind]
  rfl

theorem step_spec (hg : g.Coherent) (hs : s.Orderly g) :
    ∃ result, step g s = .ok result ∧ StepHolds g s result := by
  obtain ⟨h, z, hpart, hregion, hz⟩ := grow_spec hg hs
  rw [step_eq hpart hregion]
  split
  · rename_i hway
    obtain ⟨next, hnext⟩ := hz.exists_next hs hway
    rw [hnext]
    exact ⟨_, rfl, hz.descend hg hs hnext, hz.potential_descend hg hs hnext⟩
  · rename_i hheld
    rw [Bool.or_eq_true, not_or, Bool.not_eq_true, Bool.not_eq_true] at hheld
    have ht := hz.held hg hs hheld.1 hheld.2
    dsimp only
    split
    · rename_i hescape
      refine ⟨_, rfl, ht.closed hz hg hs hescape, ?_⟩
      obtain ⟨v, hv, hlabel | ⟨hfree, hpriority⟩⟩ := hs.target
      · exact ⟨v, hz.of_label hlabel⟩
      · exact ⟨v, hz.attractor.of_target (Or.inr ⟨hv, hfree, hpriority⟩)⟩
    · rename_i target hescape
      exact ⟨_, rfl, ht.promote hz hg hs hescape, ht.potential_promote hz hg hs hescape⟩

theorem StepHolds.of_step (hg : g.Coherent) (hs : s.Orderly g) {result : Step}
    (h : step g s = .ok result) : StepHolds g s result := by
  obtain ⟨result', hstep, hresult⟩ := step_spec hg hs
  cases h.symm.trans hstep
  exact hresult

theorem orderly_startAt (hg : g.Coherent) (htotal : g.isTotal = true) {top : Nat}
    (htop : g.maxPriority? = some top) : (startAt g top).Orderly g := by
  have hlabel : ∀ v, (startAt g top).label v = none := by
    intro v
    simp [State.label, startAt]
  have hmove : ∀ v, (startAt g top).move v = none := by
    intro v
    simp [State.move, startAt]
  obtain ⟨⟨u, hu, hpriority⟩, hmax⟩ := hg.maxPriority_some htop
  exact {
    labels_length := VertexTable.length_fill _ _
    moves_length := VertexTable.length_fill _ _
    low := fun v hv _ => hmax v hv
    owned := by simp [hmove]
    at_least := by simp [hlabel]
    used := by simp [hlabel]
    quasi := by
      intro r
      have hempty : (startAt g top).region r = ∅ := by
        ext v
        simp [hlabel]
      rw [hempty]
      exact Game.QuasiDominion.empty g _ r _ _
    guarded := by simp [hlabel]
    total := by
      intro r _ v hv _
      obtain ⟨w, hw⟩ := Game.isTotal_iff.1 htotal v hv
      exact ⟨w, hw, by simp [hlabel]⟩
    target := ⟨u, hu, Or.inr ⟨hlabel u, hpriority⟩⟩ }

theorem outcome_search {result : Step} (made : step g s = .ok result) (fuel promotions : Nat) :
    (search g (fuel + 1) s promotions).outcome =
      match result with
      | .descend next => (search g fuel next promotions).outcome
      | .promote _ next => (search g fuel next (promotions + 1)).outcome
      | .closed t => .ok (Player.ofPriority s.priority, t, promotions) := by
  conv_lhs => unfold search
  simp only [Run.outcome_bind, Run.outcome_check, Run.liftM_eq_attempt, made, Run.attempt_ok,
    Run.outcome_pure, ok_bind]
  cases result <;> rfl

/-- A search comes to a territory in so many steps, with so many promotions among them. -/
inductive Finds (g : Game) : State → Nat → Nat → Player → Territory → Prop
  | closed {s : State} {t : Territory} (made : step g s = .ok (.closed t)) :
      Finds g s 1 0 (Player.ofPriority s.priority) t
  | descend {s next : State} {n k : Nat} {p : Player} {t : Territory}
      (made : step g s = .ok (.descend next)) (rest : Finds g next n k p t) :
      Finds g s (n + 1) k p t
  | promote {s next : State} {vertices n k : Nat} {p : Player} {t : Territory}
      (made : step g s = .ok (.promote vertices next)) (rest : Finds g next n k p t) :
      Finds g s (n + 1) (k + 1) p t

namespace Finds

theorem outcome (h : Finds g s n k p t) (hfuel : n ≤ fuel) (promotions : Nat) :
    (search g fuel s promotions).outcome = .ok (p, t, promotions + k) := by
  induction h generalizing fuel promotions with
  | closed made =>
      obtain ⟨fuel, rfl⟩ := Nat.exists_eq_add_of_le' hfuel
      exact outcome_search made fuel promotions
  | descend made rest ih =>
      obtain ⟨fuel, rfl⟩ := Nat.exists_eq_add_of_le' hfuel
      rw [← Nat.add_assoc, outcome_search made]
      exact ih (Nat.le_add_left _ _) promotions
  | @promote s next vertices n k p t made rest ih =>
      obtain ⟨fuel, rfl⟩ := Nat.exists_eq_add_of_le' hfuel
      rw [← Nat.add_assoc, outcome_search made, Nat.add_comm k 1, ← Nat.add_assoc]
      exact ih (Nat.le_add_left _ _) (promotions + 1)

/-- What is found, and how soon. -/
theorem spec (h : Finds g s n k p t) (hg : g.Coherent) (hs : s.Orderly g) :
    t.Holds g p ∧ (∃ v, t.region.contains v = true) ∧ n + s.potential g ≤ searchBound g := by
  induction h with
  | closed made =>
      obtain ⟨hholds, hnonempty⟩ := StepHolds.of_step hg hs made
      have hlt := hs.potential_lt hg
      exact ⟨hholds, hnonempty, by omega⟩
  | descend made rest ih =>
      obtain ⟨hnext, hlt⟩ := StepHolds.of_step hg hs made
      obtain ⟨hholds, hnonempty, hle⟩ := ih hnext
      exact ⟨hholds, hnonempty, by omega⟩
  | promote made rest ih =>
      obtain ⟨hnext, hlt⟩ := StepHolds.of_step hg hs made
      obtain ⟨hholds, hnonempty, hle⟩ := ih hnext
      exact ⟨hholds, hnonempty, by omega⟩

end Finds

theorem exists_finds (hg : g.Coherent) (hs : s.Orderly g) : ∃ n k p t, Finds g s n k p t := by
  induction hleft : searchBound g - s.potential g using Nat.strong_induction_on generalizing s with
  | _ left ih =>
      subst hleft
      have hbound := hs.potential_lt hg
      obtain ⟨result, hstep, hresult⟩ := step_spec hg hs
      cases result with
      | descend next =>
          obtain ⟨hnext, hlt⟩ := hresult
          obtain ⟨n, k, p, t, hfinds⟩ := ih _ (by omega) hnext rfl
          exact ⟨n + 1, k, p, t, .descend hstep hfinds⟩
      | promote vertices next =>
          obtain ⟨hnext, hlt⟩ := hresult
          obtain ⟨n, k, p, t, hfinds⟩ := ih _ (by omega) hnext rfl
          exact ⟨n + 1, k + 1, p, t, .promote hstep hfinds⟩
      | closed t => exact ⟨1, 0, _, t, .closed hstep⟩

end Promotion

end ParityGames
