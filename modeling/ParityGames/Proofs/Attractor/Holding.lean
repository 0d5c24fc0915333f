import ParityGames.Proofs.Attractor.Search
import ParityGames.Proofs.Play.Holding

/-! # Attractors and territories that hold

The attractor of a territory that holds, with the moves of both, holds. What holds for the player
in the rest that the opponent's attractor leaves holds in the whole game. The moves of an attractor,
of its target and of what holds in the rest are made at different vertices.
-/

namespace ParityGames

namespace Territory

variable {g part : Game} {p : Player} {a t m : Territory} {target : Set Nat}

theorem Holds.attracted (ht : t.Holds g p)
    (ha : a.IsAttractor g p {v | t.region.contains v = true ∧ g.contains v = true})
    (hm : m.Unites a t) :
    m.Holds g p ∧ ∀ v, m.region.contains v = a.region.contains v := by
  have htarget : ∀ v, t.region.contains v = true →
      t.region.contains v = true ∧ g.contains v = true := fun v hv => ⟨hv, ht.dominion.active v hv⟩
  have hcontains : ∀ v, m.region.contains v = a.region.contains v := by
    intro v
    rw [hm.contains]
    cases hv : t.region.contains v with
    | false => simp
    | true => simpa using (ha.of_target (htarget v hv)).symm
  have hinner : ∀ v, t.region.contains v = true → m.moves.get? v = t.moves.get? v := by
    intro v hv
    simp [hm.moves, ha.move_of_target (htarget v hv)]
  obtain ⟨rank, hattracts⟩ := ha.attracts
  refine ⟨{ capacity := hm.capacity.trans ha.capacity, dominion := ?_, hasMove := ?_ }, hcontains⟩
  · have harea : m.area = {v | a.region.contains v = true} := by
      ext v
      rw [mem_area, hcontains]
      rfl
    rw [harea]
    refine (hattracts.congr fun v hv hnot howner => ?_).dominion ?_
    · obtain ⟨w, hw⟩ := (ha.hasMove v).2 ⟨hv, hnot, howner⟩
      simp [hm.moves, hw]
    · have heq : {v | t.region.contains v = true ∧ g.contains v = true} = t.area := by
        ext v
        exact ⟨fun hv => hv.1, htarget v⟩
      rw [heq]
      exact ht.dominion.congr fun v hv _ => hinner v hv
  · intro v
    rw [hcontains]
    by_cases hv : t.region.contains v = true
    · rw [hinner v hv, ht.hasMove]
      simp [hv, ha.of_target (htarget v hv)]
    · rw [hm.moves, ht.moves_eq_none (by simpa using hv), Option.or_none, ha.hasMove]
      simp [hv]

theorem Holds.of_rest (hb : a.IsAttractor g p.opponent target) (hof : part.PartOf g)
    (hpart : ∀ v, part.contains v = (g.contains v && !a.region.contains v))
    (ht : t.Holds part p) : t.Holds g p := by
  have hpartOf : ∀ v, part.contains v = true ↔ g.contains v = true ∧ a.region.contains v = false :=
    fun v => by simp [hpart]
  refine ht.of_part hof (fun v hv => ((hpartOf v).1 hv).1) fun v hv howner w hw => ?_
  obtain ⟨hactive, hout⟩ := (hpartOf v).1 (ht.dominion.active v hv)
  have hw' := hb.escapes_own v hactive hout (Player.eq_opponent_of_ne howner) w hw
  exact (hpartOf w).2 ⟨Game.contains_of_mem_successors hw, hw'⟩

/-! ## Moves that do not compete -/

/-- What holds in the rest has no moves in the region that was taken out. -/
theorem Holds.move_eq_none (ht : t.Holds part p)
    (hpart : ∀ v, part.contains v = (g.contains v && !a.region.contains v)) {v : Nat}
    (hv : a.region.contains v = true) : t.moves.get? v = none := by
  refine ht.moves_eq_none (Bool.eq_false_iff.2 fun hin => ?_)
  have hactive := ht.dominion.active v hin
  simp [hpart, hv] at hactive

theorem Holds.apart_attractor (ht : t.Holds part p)
    (hpart : ∀ v, part.contains v = (g.contains v && !a.region.contains v))
    (ha : a.IsAttractor g p target) : t.MovesApart a := by
  intro v
  cases hmove : a.moves.get? v with
  | none => exact Or.inr rfl
  | some w => exact Or.inl (ht.move_eq_none hpart ((ha.hasMove v).1 ⟨w, hmove⟩).1)

/-- The territory whose attractor was taken out has its moves where neither the attractor nor what
holds in the rest has any. -/
theorem Holds.apart_target {taken : Territory} (ht : t.Holds part p)
    (hpart : ∀ v, part.contains v = (g.contains v && !a.region.contains v))
    (ha : a.IsAttractor g p {v | taken.region.contains v = true ∧ g.contains v = true})
    (htaken : taken.Holds g p) (hm : t.merge a = .ok m) : m.MovesApart taken := by
  intro v
  cases hmove : taken.moves.get? v with
  | none => exact Or.inr rfl
  | some w =>
      have hv := ((htaken.hasMove v).1 ⟨w, hmove⟩).1
      have htarget := And.intro hv (htaken.dominion.active v hv)
      left
      rw [get?_of_merge hm, ht.move_eq_none hpart (ha.of_target htarget),
        ha.move_of_target htarget]
      rfl

end Territory

end ParityGames
