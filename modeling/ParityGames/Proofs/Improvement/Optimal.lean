import Mathlib.Data.Finset.Max
import Mathlib.Order.Interval.Finset.Nat
import ParityGames.Proofs.Improvement.Described
import ParityGames.Proofs.Improvement.Progress

/-! # The valuation is the best response of player odd

Any moves of player odd against those of player even lead from a vertex along a play, and the play
has a profile. The profile that a valuation finds is the least of all of them in the order of player
even, and the moves that the valuation leaves behind attain it from every vertex.
-/

namespace ParityGames

namespace Improvement

variable {s t : Improvement} {g : Game} {choice next : Nat → Nat} {v begin stop : Nat}
  {profile : Profile}

/-- The moves of player even in the state, and any moves of player odd against them. -/
def against (s : Improvement) (tau : Nat → Nat) (v : Nat) : Nat :=
  match s.game.owner v with
  | .even => s.move v
  | .odd => tau v

/-- The walk along `next` from `v` until a vertex repeats, summed up by a profile: the head is the
most relevant vertex on the cycle, the distance says when it is met first, and the more relevant
vertices that are met until then are listed. -/
structure Traces (s : Improvement) (next : Nat → Nat) (v : Nat) (profile : Profile)
    (start stop : Nat) : Prop where
  lasso : Lasso (fun i => next^[i] v) start stop
  on_cycle : ∃ i, start ≤ i ∧ i < stop ∧ next^[i] v = profile.head
  greatest : ∀ i, start ≤ i → i < stop → ¬ s.MoreRelevant (next^[i] v) profile.head
  arrives : next^[profile.distance] v = profile.head
  first : ∀ i, i < profile.distance → next^[i] v ≠ profile.head
  sorted : profile.before.Pairwise s.MoreRelevant
  mem_before : ∀ x, x ∈ profile.before ↔ s.MoreRelevant x profile.head ∧
    ∃ i, i < profile.distance ∧ next^[i] v = x

theorem Describes.traces (h : s.Describes v begin stop) :
    s.Traces s.move v (s.profile v) begin stop :=
  ⟨h.lasso, h.on_cycle, h.greatest, h.arrives, h.first, h.sorted, h.mem_before⟩

/-! ## The profile of a play -/

namespace Traces

theorem head_active (h : s.Traces next v profile begin stop)
    (hactive : ∀ i, g.contains (next^[i] v) = true) : g.contains profile.head = true :=
  h.arrives ▸ hactive profile.distance

theorem lists (h : s.Traces next v profile begin stop) (hs : s.Keeps g choice)
    (hactive : ∀ i, g.contains (next^[i] v) = true) : g.Lists profile where
  head_active := h.head_active hactive
  before_eq := by
    have hmet : ∀ x ∈ profile.before, g.contains x = true := by
      intro x hx
      obtain ⟨i, -, rfl⟩ := ((h.mem_before x).1 hx).2
      exact hactive i
    refine Game.eq_filter_above hs.coherent (h.sorted.imp_of_mem fun hx hy hmore => ?_)
      fun x hx => ?_
    · exact (hs.moreRelevant_iff (hmet _ hx) (hmet _ hy)).1 hmore
    · have hmore := ((h.mem_before x).1 hx).1
      exact Game.mem_above.2
        ⟨hmet x hx, (hs.moreRelevant_iff (hmet x hx) (h.head_active hactive)).1 hmore⟩

theorem standing_eq (h : s.Traces next v profile begin stop) (hs : s.Keeps g choice)
    (hactive : ∀ i, g.contains (next^[i] v) = true) :
    g.standingOf profile = standingAlong g next v profile.head profile.distance := by
  refine Game.standing_congr fun x hx => decide_eq_decide.2 ?_
  obtain ⟨hcontains, hrank⟩ := Game.mem_above.1 hx
  rw [h.mem_before, List.mem_iterate, and_iff_right
    ((hs.moreRelevant_iff hcontains (h.head_active hactive)).2 hrank)]
  exact ⟨fun ⟨i, hi, heq⟩ => ⟨i, hi, heq.symm⟩, fun ⟨i, hi, heq⟩ => ⟨i, hi, heq.symm⟩⟩

/-- The walk comes to the head of its profile, and goes round below it from there on. -/
theorem arrives_head (h : s.Traces next v profile begin stop) (hs : s.Keeps g choice)
    (harc : ∀ i, g.Arc choice (next^[i] v) (next^[i + 1] v)) :
    Arrives g choice next v profile.head profile.distance := by
  obtain ⟨k, hstart, -, hk⟩ := h.on_cycle
  have hactive : ∀ i, g.contains (next^[i] v) = true := fun i => (harc i).1
  exact {
    arc := harc
    arrives := h.arrives
    first := h.first
    rank_le := by
      intro i
      rw [← hk, ← Function.iterate_add_apply]
      obtain ⟨j, hj, hlt, heq⟩ := h.lasso.exists_on_cycle (i := i + k) (by omega)
      have hgreatest := h.greatest j hj hlt
      rw [hs.moreRelevant_iff (hactive j) (h.head_active hactive), ← hk, heq] at hgreatest
      exact Nat.le_of_not_lt hgreatest
    often := by
      intro i
      obtain ⟨j, -, hj, heq⟩ := h.lasso.exists_later hstart (k + i)
      obtain ⟨n, rfl⟩ := Nat.exists_eq_add_of_le' (show k ≤ j by omega)
      refine ⟨n, by omega, ?_⟩
      rw [← hk, ← Function.iterate_add_apply]
      exact heq }

end Traces

/-- Every walk inside of the game has a profile. -/
theorem Keeps.exists_traces (hs : s.Keeps g choice)
    (hactive : ∀ i, g.contains (next^[i] v) = true) :
    ∃ profile start stop, s.Traces next v profile start stop := by
  classical
  obtain ⟨start, stop, hlasso⟩ := exists_lasso fun i => hs.coherent.contains_lt (hactive i)
  obtain ⟨k, hk, hgreatest⟩ := Finset.exists_max_image (Finset.Ico start stop)
    (fun i => g.rank (next^[i] v)) ⟨start, Finset.mem_Ico.2 ⟨Nat.le_refl start, hlasso.lt⟩⟩
  obtain ⟨hstart, hstop⟩ := Finset.mem_Ico.1 hk
  have harrives : ∃ n, next^[n] v = next^[k] v := ⟨k, rfl⟩
  have hmore : ∀ i, s.MoreRelevant (next^[i] v) (next^[k] v) ↔
      g.rank (next^[k] v) < g.rank (next^[i] v) := fun i =>
    hs.moreRelevant_iff (hactive i) (hactive k)
  refine ⟨⟨next^[k] v, (g.above (next^[k] v)).filter fun x =>
    x ∈ List.iterate next v (Nat.find harrives), Nat.find harrives⟩, start, stop, ?_⟩
  exact {
    lasso := hlasso
    on_cycle := ⟨k, hstart, hstop, rfl⟩
    greatest := by
      intro i hi hlt
      rw [hmore]
      exact Nat.not_lt.2 (hgreatest i (Finset.mem_Ico.2 ⟨hi, hlt⟩))
    arrives := Nat.find_spec harrives
    first := fun i hi => Nat.find_min harrives hi
    sorted := by
      refine ((Game.above_sorted hs.coherent _).filter _).imp_of_mem fun hx hy hlt => ?_
      have hx := (Game.mem_above.1 (List.mem_filter.1 hx).1).1
      have hy := (Game.mem_above.1 (List.mem_filter.1 hy).1).1
      exact (hs.moreRelevant_iff hx hy).2 hlt
    mem_before := by
      intro x
      rw [List.mem_filter, decide_eq_true_eq, List.mem_iterate, Game.mem_above]
      constructor
      · rintro ⟨⟨-, hrank⟩, i, hi, rfl⟩
        exact ⟨(hmore i).2 hrank, i, hi, rfl⟩
      · rintro ⟨hrelevant, i, hi, rfl⟩
        exact ⟨⟨hactive i, (hmore i).1 hrelevant⟩, i, hi, rfl⟩ }

/-! ## The least profile -/

theorem against_move (s : Improvement) : s.against s.move = s.move := by
  funext v
  unfold against
  cases s.game.owner v <;> rfl

/-- With moves of player odd along edges, the walk stays on the arcs of the state. -/
theorem Keeps.arc_against (hs : s.Keeps g choice) {tau : Nat → Nat}
    (htau : ∀ u, g.contains u = true → g.owner u = .odd → tau u ∈ g.successors u)
    (hv : g.contains v = true) (i : Nat) :
    g.Arc choice ((s.against tau)^[i] v) ((s.against tau)^[i + 1] v) := by
  have hstep : ∀ u, g.contains u = true → g.Arc choice u (s.against tau u) := by
    intro u hu
    unfold against
    rw [hs.game]
    cases howner : g.owner u with
    | even =>
        have hmove := hs.move u hu howner
        exact ⟨hu, hmove ▸ hs.chosen u hu howner, fun _ => hmove⟩
    | odd => exact ⟨hu, htau u hu howner, fun heven => nomatch howner.symm.trans heven⟩
  rw [Function.iterate_succ_apply']
  refine hstep _ ?_
  induction i with
  | zero => exact hv
  | succ i ih =>
      rw [Function.iterate_succ_apply']
      exact Game.contains_of_mem_successors (hstep _ ih).2.1

theorem Valued.advances_self (hs : s.Valued g choice) : s.Advances g choice :=
  hs.advances fun _ _ _ => Ordering.isLE_of_eq_eq Std.ReflCmp.compare_self

/-- A valuation finds the best response of player odd to the moves of player even. Whatever else
player odd moves, the profile of the play from a vertex is not less than the one that was found for
the vertex, and the moves that the valuation leaves behind attain those from all vertices. -/
theorem valuation_optimal (h : s.Ready) :
    ∃ t, s.valuation = .ok t ∧
      (∀ v, s.game.contains v = true → s.game.owner v = .even → t.move v = s.move v) ∧
      (∀ v, s.game.contains v = true → t.move v ∈ s.game.successors v) ∧
      ∀ v, s.game.contains v = true →
        (∃ start stop, t.Traces (t.against t.move) v (t.profile v) start stop) ∧
        ∀ tau : Nat → Nat, (∀ u, s.game.contains u = true → s.game.owner u = .odd →
            tau u ∈ s.game.successors u) →
          (∃ profile start stop, t.Traces (t.against tau) v profile start stop) ∧
          ∀ profile start stop, t.Traces (t.against tau) v profile start stop →
            (Preference.cmp (t.rate (t.profile v)) (t.rate profile)).isLE := by
  obtain ⟨t, hrun, ht⟩ := valuation_spec h.keeps h.total
  refine ⟨t, hrun, ht.keeps.move, fun v hv => (ht.move_arc hv).2.1,
    fun v hv => ⟨?_, fun tau htau => ?_⟩⟩
  · obtain ⟨start, stop, hdescribes⟩ := ht.describes hv
    refine ⟨start, stop, ?_⟩
    rw [against_move]
    exact hdescribes.traces
  · have harc := ht.keeps.arc_against htau hv
    have hactive : ∀ i, s.game.contains ((t.against tau)^[i] v) = true := fun i => (harc i).1
    refine ⟨ht.keeps.exists_traces hactive, fun profile start stop htraces => ?_⟩
    exact (htraces.arrives_head ht.keeps harc).rate_isLE ht ht.advances_self
      (htraces.lists ht.keeps hactive) (htraces.standing_eq ht.keeps hactive)

/-- Player odd finds the way to `3`. If it goes to `0` and `4` instead, the play from `1` ends at
`0`, which is not less. -/
theorem valuation_optimal_duel : ∃ g, duel.build = .ok g ∧ ∃ t, (start g).valuation = .ok t ∧
    (t.profile 1).head = 3 ∧ t.against (fun v => if v = 1 then 0 else 4) 1 = 0 ∧
      ∃ profile begin stop,
        t.Traces (t.against fun v => if v = 1 then 0 else 4) 1 profile begin stop ∧
          (Preference.cmp (t.rate (t.profile 1)) (t.rate profile)).isLE := by
  obtain ⟨g, hmade, htotal, -⟩ := duel_total
  obtain ⟨t, hrun, -, -, hoptimal⟩ := valuation_optimal (start_ready (.build hmade) htotal)
  have hgame : (start g).game = g := rfl
  rw [hgame] at hoptimal
  have hshape : (duel.build.toOption.any fun g =>
      (start g).valuation.toOption.any fun t => decide ((t.profile 1).head = 3 ∧
        t.against (fun v => if v = 1 then 0 else 4) 1 = 0) && g.contains 1 &&
          g.vertices.all fun u => decide (g.owner u = .odd →
            (if u = 1 then 0 else 4) ∈ g.successors u)) = true := by
    decide +kernel
  simp only [hmade, Except.toOption, Option.any_some, hrun, Bool.and_eq_true, decide_eq_true_eq,
    List.all_eq_true] at hshape
  obtain ⟨⟨⟨hhead, hmove⟩, hactive⟩, hedges⟩ := hshape
  obtain ⟨⟨profile, begin, stop, htraces⟩, hleast⟩ := (hoptimal 1 hactive).2
    (fun v => if v = 1 then 0 else 4) fun u hu => hedges u (Game.mem_vertices.2 hu)
  exact ⟨g, hmade, t, hrun, hhead, hmove, profile, begin, stop, htraces,
    hleast profile begin stop htraces⟩

end Improvement

end ParityGames
