import ParityGames.Solver.Promotion
import ParityGames.Proofs.Attractor.Alike

/-! # Priority promotion on alike games

The targets of a region are the vertices of its priority in increasing order, so growing it comes to
the same in alike games, and with it every search for a dominion and the whole run.
-/

namespace ParityGames

namespace Promotion

variable {g g' part part' : Game}

/-! ## Growing a region -/

theorem State.below_alike (h : g.Alike g') (s : State) : s.below g = s.below g' := by
  unfold below
  rw [h.vertices]

theorem State.targets_alike (h : g.Alike g') (hpart : part.Alike part') (s : State) :
    s.targets g part = s.targets g' part' := by
  unfold targets
  rw [h.priority?, hpart.vertices]

theorem State.complete_alike (h : g.Alike g') (hpart : part.Alike part') (s : State) :
    s.complete g part = s.complete g' part' := by
  unfold complete
  rw [h.owner, hpart.successors]

theorem State.promote_alike (h : g.Alike g') (s : State) : s.promote g = s.promote g' := by
  unfold promote
  rw [h.vertices]

theorem State.territory_alike (h : g.Alike g') (s : State) : s.territory g = s.territory g' := by
  unfold territory
  rw [h.owner]

theorem isOpen_alike (h : g.Alike g') (hpart : part.Alike part') :
    isOpen g part = isOpen g' part' := by
  unfold isOpen
  rw [h.owner, hpart.successors]

theorem isLeaky_alike (h : g.Alike g') (hpart : part.Alike part') :
    isLeaky g part = isLeaky g' part' := by
  unfold isLeaky
  rw [h.owner, hpart.successors]

theorem nextPriority?_alike (hpart : part.Alike part') :
    nextPriority? part = nextPriority? part' := by
  unfold nextPriority?
  rw [hpart.vertices, hpart.priority?]

theorem escape?_alike (h : g.Alike g') (s : State) : escape? s g = escape? s g' := by
  unfold escape?
  rw [h.owner, h.successors]

theorem step_alike (h : g.Alike g') (s : State) : step g s = step g' s := by
  unfold step
  rw [← h.vertexCount, ← s.below_alike h]
  obtain ⟨cause, hpart, hpart'⟩ | ⟨part, part', hpart, hpart', halike⟩ :=
    h.subgame (VertexSet.ofList g.vertexCount (s.below g))
  · rw [hpart, hpart']
    rfl
  · simp only [hpart, hpart', ok_bind, ← s.targets_alike h halike, ← halike.attractor,
      ← isOpen_alike h halike, ← isLeaky_alike h halike, ← nextPriority?_alike halike,
      ← State.complete_alike h halike, ← escape?_alike h, ← State.territory_alike h,
      ← State.promote_alike h]

/-! ## The run -/

theorem search_alike (h : g.Alike g') (fuel : Nat) (s : State) (promotions : Nat) :
    search g fuel s promotions = search g' fuel s promotions := by
  induction fuel generalizing s promotions with
  | zero => rfl
  | succ fuel ih => simp only [search, step_alike h, ih]

theorem collect_alike (fuel : Nat) (h : g.Alike g') (solution : Solution) (promotions : Nat) :
    collect fuel g solution promotions = collect fuel g' solution promotions := by
  induction fuel generalizing g g' solution promotions with
  | zero =>
      unfold collect
      rw [h.maxPriority?]
      cases g'.maxPriority? with
      | none => rfl
      | some top => rfl
  | succ fuel ih =>
      have hbound : searchBound g = searchBound g' := by
        unfold searchBound
        rw [h.vertexCount]
      have hstart : startAt g = startAt g' := by
        unfold startAt
        rw [h.vertexCount]
      unfold collect
      rw [← h.maxPriority?]
      cases g.maxPriority? with
      | none => rfl
      | some top =>
          simp only [← hbound, ← hstart, ← search_alike h, ← h.attractorOfSet,
            ih (h.difference _)]

theorem solve_alike (h : g.Alike g') : solve g = solve g' := by
  unfold solve
  rw [h.isTotal, h.size, h.vertexCount, collect_alike g'.size h]

end Promotion

end ParityGames
