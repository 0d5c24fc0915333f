import ParityGames.Solver.Zielonka
import ParityGames.Proofs.Attractor.Alike
import ParityGames.Proofs.Run.Lockstep

/-! # Zielonka's algorithm on alike games

The vertices of the greatest priority are listed in different orders in alike games, so their
attractors may have different moves. They have the same region, which is all that the recursion, its
records and the regions that it returns depend on.
-/

namespace ParityGames

def Solution.SameRegions (s s' : Solution) : Prop := ∀ p, s.region p = s'.region p

theorem Solution.SameRegions.ofWinner {won won' lost lost' : Territory} (p : Player)
    (hwon : won.region = won'.region) (hlost : lost.region = lost'.region) :
    (Solution.ofWinner p won lost).SameRegions (Solution.ofWinner p won' lost') := by
  intro q
  cases p <;> cases q <;> assumption

theorem Territory.map_region_merge (t other : Territory) :
    (t.merge other).map region = t.region.unite other.region := by
  unfold merge
  cases t.region.unite other.region <;> rfl

/-- The moves do not matter for the region of a union. -/
theorem Territory.lockstep_merge {t t' other other' : Territory} (h : t.region = t'.region)
    (hother : other.region = other'.region) :
    (Run.attempt (t.merge other)).Lockstep (fun m m' => m.region = m'.region)
      (Run.attempt (t'.merge other')) := by
  refine .attempt ?_
  rw [map_region_merge, map_region_merge, h, hother]

namespace Zielonka

open Run

variable {g g' : Game}

/-- What a call returns, but for the moves. -/
def SameResult (result result' : Solution × Nat) : Prop :=
  result.1.SameRegions result'.1 ∧ result.2 = result'.2

theorem solveWithin_lockstep (fuel : Nat) (depth : Nat) (h : g.Alike g')
    (htotal : g.isTotal = true) :
    (solveWithin fuel g depth).Lockstep SameResult (solveWithin fuel g' depth) := by
  induction fuel generalizing g g' depth with
  | zero => exact .stop _
  | succ fuel ih =>
      unfold solveWithin
      refine .bind_left check fun _ => ?_
      rw [← h.maxPriority?]
      cases g.maxPriority? with
      | none =>
          refine .value ⟨fun p => ?_, rfl⟩
          rw [h.vertexCount]
      | some d =>
          simp only [liftM_eq_attempt]
          generalize Player.ofPriority d = p
          obtain ⟨a, hattractor, ha⟩ := attractor_spec h.coherent p (g.verticesWithPriority d)
          obtain ⟨a', hattractor', ha'⟩ := attractor_spec h.coherent' p (g'.verticesWithPriority d)
          -- the targets come in different orders, so only the regions are compared
          have hregion : a.region = a'.region := by
            refine ha.region_eq (Territory.IsAttractor.alike ?_ h) htotal
            simpa only [h.mem_verticesWithPriority, h.contains] using ha'
          obtain ⟨-, hof, hpart⟩ := Game.difference_spec h.coherent a.region
          have htotal' := ha.total_rest hof hpart htotal
          simp only [hattractor, hattractor', attempt_ok, pure_bind, ← hregion, ← h.size]
          refine .bind_left (write _) fun _ => (ih _ (h.difference a.region) htotal').bind ?_
          rintro ⟨rest, calls⟩ ⟨rest', _⟩ ⟨hrest, rfl⟩
          have htaken : (rest.of p.opponent).region = (rest'.of p.opponent).region :=
            hrest p.opponent
          simp only [← htaken]
          split
          · refine (Territory.lockstep_merge (hrest p) hregion).bind fun won won' hwon => ?_
            refine .value ⟨.ofWinner p hwon ?_, rfl⟩
            rw [h.vertexCount]
          · -- the targets are a set this time, so both calls go on with the same attractor
            obtain ⟨b, hattractor, hb⟩ :=
              attractorOfSet_spec h.coherent p.opponent (rest.of p.opponent).region
            obtain ⟨-, hof, hpart⟩ := Game.difference_spec h.coherent b.region
            have htotal' := hb.total_rest hof hpart htotal
            simp only [← h.attractorOfSet, hattractor, attempt_ok, pure_bind]
            refine .bind_left (write _) fun _ => (ih _ (h.difference b.region) htotal').bind ?_
            rintro ⟨rest, more⟩ ⟨rest', _⟩ ⟨hrest, rfl⟩
            refine (Territory.lockstep_merge (hrest p.opponent) rfl).bind fun lost lost' hlost => ?_
            refine (Territory.lockstep_merge hlost htaken).bind fun lost lost' hlost => ?_
            exact .value ⟨.ofWinner p (hrest p) hlost, rfl⟩

theorem solve_lockstep (h : g.Alike g') (htotal : g.isTotal = true) :
    (solve g).Lockstep Solution.SameRegions (solve g') := by
  have htotal' : g'.isTotal = true := h.isTotal ▸ htotal
  simp only [solve, htotal, htotal', Bool.not_true, Bool.false_eq_true, if_false, ← h.size]
  refine (solveWithin_lockstep _ 0 h htotal).bind ?_
  rintro ⟨s, calls⟩ ⟨s', _⟩ ⟨hs, rfl⟩
  exact .bind_left (write _) fun _ => .value hs

end Zielonka

end ParityGames
