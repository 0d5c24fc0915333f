import ParityGames.Improvement.Solve
import ParityGames.Proofs.Game.Alike
import ParityGames.Proofs.Improvement.Cuts
import ParityGames.Proofs.Run.Lockstep

/-! # Strategy improvement on alike games

Strategy improvement copies the priorities of the active vertices into its state when it starts, and
never reads the index of the game after that. So another index changes nothing of what it does, and
the copies that alike games start with are equal.
-/

namespace ParityGames

variable (priorities : VertexTable Nat) (buckets : SortedMap (List Nat))

def Improvement.withIndex (s : Improvement) : Improvement :=
  { s with game := s.game.withIndex priorities buckets }

/-! ## Components -/

namespace Component

def withIndex (c : Component) : Component :=
  { c with state := c.state.withIndex priorities buckets }

theorem noteMeeting_withIndex (c : Component) (vertices : List Nat) (u : Nat) :
    (c.withIndex priorities buckets).noteMeeting vertices u =
      (c.noteMeeting vertices u).withIndex priorities buckets := by
  unfold noteMeeting
  have hfold : vertices.foldl (fun s v => s.meet v u) (c.state.withIndex priorities buckets) =
      (vertices.foldl (fun s v => s.meet v u) c.state).withIndex priorities buckets :=
    List.foldl_hom _ fun _ _ => rfl
  exact congrArg (fun state => { c with state := state }) hfold

theorem evade_withIndex (c : Component) (u : Nat) : (c.withIndex priorities buckets).evade u =
    (c.evade u).withIndex priorities buckets := by
  unfold evade
  dsimp only
  rw [noteMeeting_withIndex]
  rfl

theorem pursue_withIndex (c : Component) (u : Nat) : (c.withIndex priorities buckets).pursue u =
    (c.pursue u).withIndex priorities buckets := by
  unfold pursue
  dsimp only
  rw [noteMeeting_withIndex]
  rfl

theorem settleLateFrom_withIndex (fuel : Nat) (c : Component) (unsettled : VertexTable Nat)
    (arrivals : List Arrival) :
    settleLateFrom fuel (c.withIndex priorities buckets) unsettled arrivals =
      (settleLateFrom fuel c unsettled arrivals).map (withIndex priorities buckets) := by
  induction fuel generalizing c unsettled arrivals with
  | zero =>
      cases arrivals with
      | nil => rfl
      | cons a rest => rfl
  | succ fuel ih =>
      cases arrivals with
      | nil => rfl
      | cons a rest =>
          -- the members that arrive next are found by edges and moves alone
          let settled := { c with state := c.state.settle a.vertex a.move a.distance }
          let sources := (settled.livePredecessors a.vertex).filter fun u => u ≠ settled.head
          change (sources.foldlM countDown (unsettled, []) >>= fun state =>
              settleLateFrom fuel (settled.withIndex priorities buckets) state.1 _) =
            (sources.foldlM countDown (unsettled, []) >>= fun state =>
              settleLateFrom fuel settled state.1 _).map _
          cases sources.foldlM countDown (unsettled, []) with
          | error cause => rfl
          | ok state => exact ih _ _ _

theorem settleSoonFrom_withIndex (fuel : Nat) (c : Component) (seen : VertexSet)
    (arrivals : List Arrival) :
    settleSoonFrom fuel (c.withIndex priorities buckets) seen arrivals =
      (settleSoonFrom fuel c seen arrivals).map (withIndex priorities buckets) := by
  induction fuel generalizing c seen arrivals with
  | zero =>
      cases arrivals with
      | nil => rfl
      | cons a rest => rfl
  | succ fuel ih =>
      cases arrivals with
      | nil => rfl
      | cons a rest =>
          unfold settleSoonFrom
          dsimp only
          split
          · exact ih _ _ _
          · exact ih { c with state := c.state.settle a.vertex a.move a.distance } _ _

theorem settleLate_withIndex (c : Component) : (c.withIndex priorities buckets).settleLate =
    c.settleLate.map (withIndex priorities buckets) := by
  unfold settleLate
  rw [show (c.withIndex priorities buckets).headMove = c.headMove from rfl]
  cases c.headMove with
  | error cause => rfl
  | ok first => exact settleLateFrom_withIndex ..

theorem settleSoon_withIndex (c : Component) : (c.withIndex priorities buckets).settleSoon =
    c.settleSoon.map (withIndex priorities buckets) := by
  unfold settleSoon
  rw [show (c.withIndex priorities buckets).headMove = c.headMove from rfl]
  cases c.headMove with
  | error cause => rfl
  | ok first => exact settleSoonFrom_withIndex ..

theorem reset_withIndex (c : Component) :
    (c.withIndex priorities buckets).reset = c.reset.withIndex priorities buckets := by
  have hfold : c.byRelevance.foldl
      (fun s v => s.setProfile v { s.profile v with head := c.head, before := [] })
      (c.state.withIndex priorities buckets) =
      (c.byRelevance.foldl
        (fun s v => s.setProfile v { s.profile v with head := c.head, before := [] })
        c.state).withIndex priorities buckets :=
    List.foldl_hom _ fun _ _ => rfl
  exact congrArg (fun state => { c with state := state }) hfold

theorem cutFor_withIndex (c : Component) (u : Nat) :
    (c.withIndex priorities buckets).cutFor u = (c.cutFor u).withIndex priorities buckets := by
  have hwinner : ((c.withIndex priorities buckets).state.relevance u).winner =
    (c.state.relevance u).winner := rfl
  unfold cutFor
  rw [evade_withIndex, pursue_withIndex, hwinner]
  cases (c.state.relevance u).winner <;> rfl

theorem evaluate_withIndex (c : Component) : (c.withIndex priorities buckets).evaluate =
    c.evaluate.map (withIndex priorities buckets) := by
  have hcut : (c.withIndex priorities buckets).above.foldl cutFor
      (c.withIndex priorities buckets).reset =
      (c.above.foldl cutFor c.reset).withIndex priorities buckets := by
    rw [reset_withIndex]
    exact List.foldl_hom _ fun c u => cutFor_withIndex priorities buckets c u
  have hwinner : ((c.withIndex priorities buckets).state.relevance
      (c.withIndex priorities buckets).head).winner = (c.state.relevance c.head).winner := rfl
  rw [evaluate_eq, evaluate_eq, hcut, hwinner]
  cases (c.state.relevance c.head).winner with
  | even => exact settleLate_withIndex priorities buckets _
  | odd => exact settleSoon_withIndex priorities buckets _

end Component

namespace Improvement

/-! ## Valuation -/

theorem tryHead_withIndex (state : Improvement × VertexSet) (w : Nat) :
    tryHead (state.1.withIndex priorities buckets, state.2) w =
      (tryHead state w).map fun state => (state.1.withIndex priorities buckets, state.2) := by
  obtain ⟨s, evaluated⟩ := state
  unfold tryHead
  dsimp only
  rw [show (s.withIndex priorities buckets).headsCycle = s.headsCycle from rfl]
  split
  · rfl
  · -- the component is found by edges, moves and relevances alone
    change ((Component.start s w (s.basin evaluated w fun _ => true)).withIndex priorities
        buckets).evaluate >>= _ = _
    rw [Component.evaluate_withIndex]
    cases (Component.start s w (s.basin evaluated w fun _ => true)).evaluate with
    | error cause => rfl
    | ok c => rfl

theorem valuation_withIndex (s : Improvement) : (s.withIndex priorities buckets).valuation =
    s.valuation.map (withIndex priorities buckets) := by
  let start := (s, VertexSet.empty s.game.vertexCount)
  have hfold : s.heads.foldlM tryHead (s.withIndex priorities buckets, start.2) =
      (s.heads.foldlM tryHead start).map fun state =>
        (state.1.withIndex priorities buckets, state.2) :=
    foldlM_hom _ (tryHead_withIndex priorities buckets) s.heads start
  change (s.heads.foldlM tryHead (s.withIndex priorities buckets, start.2) >>= fun state =>
      pure state.1) =
    (s.heads.foldlM tryHead start >>= fun state => pure state.1).map _
  rw [hfold]
  cases s.heads.foldlM tryHead start <;> rfl

/-! ## The run -/

theorem stabilise_lockstep (limit? : Option Nat) (fuel : Nat) (s : Improvement) (iterations : Nat) :
    (stabilise limit? fuel s iterations).Lockstep
      (fun result result' => result' = (result.1.withIndex priorities buckets, result.2))
      (stabilise limit? fuel (s.withIndex priorities buckets) iterations) := by
  induction fuel generalizing s iterations with
  | zero => exact .stop _
  | succ fuel ih =>
      unfold stabilise
      refine .bind_left Run.check fun _ => ?_
      rw [valuation_withIndex]
      cases s.valuation with
      | error cause => exact .stop _
      | ok valued =>
          simp only [Except.map, Run.liftM_eq_attempt, Run.attempt_ok, pure_bind]
          rw [show (valued.withIndex priorities buckets).improve =
            (valued.improve.1.withIndex priorities buckets, valued.improve.2) from rfl]
          obtain ⟨improved, more⟩ := valued.improve
          cases more with
          | false => exact .value rfl
          | true =>
              refine .bind_left (Run.write _) fun _ => ?_
              cases limit? with
              | none => exact ih _ _
              | some limit =>
                  dsimp only
                  split
                  · exact .stop _
                  · exact ih _ _

theorem solution_withIndex (s : Improvement) :
    (s.withIndex priorities buckets).solution = s.solution := rfl

variable {g g' : Game}

/-- The priorities of alike games are entered in different orders, but come to the same table. -/
theorem start_alike (h : g.Alike g') :
    start g' = (start g).withIndex g'.priorities g'.buckets := by
  have hentered : (fun (t : VertexTable Nat) p =>
      (g.verticesWithPriority p).foldl (fun t v => t.put v p) t) =
      fun t p => (g'.verticesWithPriority p).foldl (fun t v => t.put v p) t := by
    funext t p
    refine VertexTable.ext_getD ?_ 0 fun v => ?_
    · rw [VertexTable.length_foldl_put _ fun _ => p, VertexTable.length_foldl_put _ fun _ => p]
    · rw [VertexTable.getD_foldl_put _ fun _ => p, VertexTable.getD_foldl_put _ fun _ => p]
      simp only [h.mem_verticesWithPriority]
  unfold start
  rw [← hentered, h.activePriorities, h.vertexCount, h.vertices, h.successors]
  exact congrArg (fun game => Improvement.mk game _ _ _) h.eq_withIndex

theorem solve_alike (h : g.Alike g') (limit? : Option Nat) : solve limit? g = solve limit? g' := by
  have hbound : roundBound g = roundBound g' := by
    unfold roundBound
    rw [h.vertexCount]
  refine Run.Lockstep.eq ?_
  unfold solve
  rw [← h.isTotal, ← hbound, ← h.size, start_alike h]
  dsimp only
  split
  · exact .stop _
  · refine (stabilise_lockstep _ _ limit? _ (start g) 0).bind ?_
    rintro ⟨s, iterations⟩ _ rfl
    rw [solution_withIndex]
    exact .refl _

end Improvement

end ParityGames
