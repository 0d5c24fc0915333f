import ParityGames.Proofs.Attractor.Least
import ParityGames.Proofs.Game.Alike

/-! # Attractors of alike games

The search of an attractor reads nothing of a game that alike games do not share, so the same
targets in the same order lead to the same territory. The region does not even depend on the order
of the targets: in a total game only one set is an attractor of the target.
-/

namespace ParityGames

variable {g g' : Game} {p : Player} {target : Set Nat} {t t' : Territory}

/-! ## The same targets in the same order -/

namespace Attractor

theorem search_withIndex (priorities : VertexTable Nat) (buckets : SortedMap (List Nat))
    (fuel : Nat) (s : State) :
    search (g.withIndex priorities buckets) p fuel s = search g p fuel s := by
  induction fuel generalizing s with
  | zero =>
      unfold search
      cases s.pending with
      | nil => rfl
      | cons v rest => rfl
  | succ fuel ih =>
      unfold search
      cases s.pending with
      | nil => rfl
      | cons v rest => exact congrArg _ (funext ih)

end Attractor

theorem Game.Alike.attractor (h : g.Alike g') : attractor g = attractor g' := by
  funext p targets
  rw [h.eq_withIndex]
  unfold ParityGames.attractor
  rw [Attractor.search_withIndex]
  rfl

theorem Game.Alike.attractorOfSet (h : g.Alike g') : attractorOfSet g = attractorOfSet g' := by
  unfold ParityGames.attractorOfSet
  rw [h.attractor]

/-! ## The same targets in any order -/

namespace Territory.IsAttractor

theorem alike (h : t.IsAttractor g' p target) (halike : g.Alike g') : t.IsAttractor g p target := by
  obtain ⟨rank, hrank⟩ := h.attracts
  exact {
    capacity := h.capacity.trans halike.vertexCount.symm
    attracts := ⟨rank, {
      subset := hrank.subset
      active := fun v hv => (halike.contains v).trans (hrank.active v hv)
      own := by
        rw [halike.owner, halike.successors]
        exact hrank.own
      other := by
        rw [halike.owner, halike.successors]
        exact hrank.other }⟩
    hasMove := by
      rw [halike.owner]
      exact h.hasMove
    escapes_own := by
      intro v hv
      rw [halike.owner, halike.successors]
      exact h.escapes_own v ((halike.contains v).symm.trans hv)
    escapes_other := by
      intro v hv
      rw [halike.owner, halike.successors]
      exact h.escapes_other v ((halike.contains v).symm.trans hv) }

/-- What the player can force into the target is in every attractor of it, for a total game has no
dead end that would keep it out. -/
theorem contains_of_contains (h : t.IsAttractor g p target) (h' : t'.IsAttractor g p target)
    (htotal : g.isTotal = true) {v : Nat} (hv : t.region.contains v = true) :
    t'.region.contains v = true := by
  obtain ⟨rank, hrank⟩ := h.attracts
  exact hrank.subset_absorbs (fun u hu _ => Game.isTotal_iff.1 htotal u (hrank.active u hu))
    h'.absorbs hv

theorem region_eq (h : t.IsAttractor g p target) (h' : t'.IsAttractor g p target)
    (htotal : g.isTotal = true) : t.region = t'.region := by
  refine VertexSet.ext (h.capacity.trans h'.capacity.symm) fun v => ?_
  exact Bool.eq_iff_iff.2
    ⟨h.contains_of_contains h' htotal, h'.contains_of_contains h htotal⟩

end Territory.IsAttractor

end ParityGames
