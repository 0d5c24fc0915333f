import ParityGames.Proofs.Improvement.Parts
import ParityGames.Proofs.Improvement.Ready
import ParityGames.Proofs.Improvement.Walks

/-! # What the profiles describe

After every valuation of a run the profile of an active vertex describes the walk along the moves:
the head is the most relevant vertex of the cycle in which the walk ends, the distance says when it
is met first, and the vertices listed before it are the more relevant ones that are met until then.
-/

namespace ParityGames

namespace Improvement

variable {s t : Improvement} {g : Game} {choice : Nat → Nat} {head v : Nat}
  {region : Nat → Prop} {above : List Nat}

def MoreRelevant (s : Improvement) (u v : Nat) : Prop :=
  Relevance.cmp (s.relevance u) (s.relevance v) = .gt

/-- The walk along the moves from `v` until a vertex repeats, and what the profile of `v` says of
it. -/
structure Describes (s : Improvement) (v start stop : Nat) : Prop where
  lasso : Lasso (fun i => s.move^[i] v) start stop
  on_cycle : ∃ i, start ≤ i ∧ i < stop ∧ s.move^[i] v = (s.profile v).head
  greatest : ∀ i, start ≤ i → i < stop → ¬ s.MoreRelevant (s.move^[i] v) (s.profile v).head
  arrives : s.move^[(s.profile v).distance] v = (s.profile v).head
  first : ∀ i, i < (s.profile v).distance → s.move^[i] v ≠ (s.profile v).head
  sorted : (s.profile v).before.Pairwise s.MoreRelevant
  mem_before : ∀ x, x ∈ (s.profile v).before ↔ s.MoreRelevant x (s.profile v).head ∧
    ∃ i, i < (s.profile v).distance ∧ s.move^[i] v = x

theorem Keeps.moreRelevant_iff (h : s.Keeps g choice) {u : Nat} (hu : g.contains u = true)
    (hv : g.contains v = true) : s.MoreRelevant u v ↔ g.rank v < g.rank u := by
  unfold MoreRelevant
  rw [h.cmp_relevance hu hv, Nat.compare_eq_gt]

theorem Valued.describes (hs : s.Valued g choice) (hv : g.contains v = true) :
    ∃ start stop, s.Describes v start stop := by
  obtain ⟨above, habove⟩ := hs.surveyed v hv
  have hself : g.contains v = true ∧ (s.profile v).head = (s.profile v).head := ⟨hv, rfl⟩
  have hwalk := habove.region_iterate hself
  have hhead := hs.head_active v hv
  have hmore := fun {u} hu => @Keeps.moreRelevant_iff s g choice _ hs.keeps u hu hhead
  obtain ⟨start, stop, hlasso⟩ := exists_lasso fun i =>
    hs.keeps.coherent.contains_lt (hwalk i).1
  refine ⟨start, stop, hlasso, ?_, fun i hi _ => ?_, habove.iterate_distance hself,
    fun i hi => habove.iterate_ne_head hself hi, ?_, fun x => ?_⟩
  · obtain ⟨i, hi, heq⟩ := habove.often_head hself start
    obtain ⟨j, hj, hlt, hsame⟩ := hlasso.exists_on_cycle hi
    exact ⟨j, hj, hlt, hsame.trans heq⟩
  · obtain ⟨j, -, hj, heq⟩ := hlasso.exists_later hi (s.profile v).distance
    obtain ⟨k, rfl⟩ := Nat.exists_eq_add_of_le' hj
    rw [hmore (hwalk i).1, ← heq, Function.iterate_add_apply, habove.iterate_distance hself,
      Nat.not_lt]
    exact habove.rank_iterate_head_le k
  · have hsorted := habove.sorted.filter fun x => x ∈ (s.profile v).before
    rw [← habove.listed v hself] at hsorted
    apply hsorted.imp_of_mem
    intro x y hx hy hlt
    have hx := ((habove.mem_above x).1 (habove.mem_of_mem_before hself hx)).1.1
    have hy := ((habove.mem_above y).1 (habove.mem_of_mem_before hself hy)).1.1
    exact (hs.keeps.moreRelevant_iff hx hy).2 hlt
  · rw [habove.mem_before_iff_iterate hself]
    refine and_congr_left fun hmet => ?_
    obtain ⟨i, -, rfl⟩ := hmet
    exact (hmore (hwalk i).1).symm

/-- The states with which the rounds of a run begin. -/
inductive Reached (g : Game) : Improvement → Prop
  | start : Reached g (start g)
  | round {s t : Improvement} (h : Reached g s) (hrun : s.valuation = .ok t) :
      Reached g t.improve.1

theorem Reached.ready (h : Reached g s) (hg : g.Reachable) (htotal : g.isTotal = true) :
    s.Ready ∧ s.game = g := by
  induction h with
  | start => exact ⟨start_ready hg htotal, rfl⟩
  | @round s t _ hrun ih =>
      obtain ⟨hready, hgame⟩ := ih
      have hsame : t.game = s.game := (hready.valued hrun).keeps.game
      exact ⟨hready.improve hrun, hsame.trans hgame⟩

/-- A valuation evaluates every active vertex in exactly one component. It keeps the moves of player
even, all moves lead to active successors, and the profiles describe the walks along them. -/
theorem profiles_describe (hg : g.Reachable) (htotal : g.isTotal = true) (h : Reached g s) :
    ∃ t parts evaluated, s.valuation = .ok t ∧ s.Tried s.heads parts t evaluated ∧
      (parts.Pairwise fun part other =>
        ∀ v, ¬ (part.2.contains v = true ∧ other.2.contains v = true)) ∧
      (∀ v, (∃ part ∈ parts, part.2.contains v = true) ↔ g.contains v = true) ∧
      (∀ v, g.contains v = true → g.owner v = .even → t.move v = s.move v) ∧
      (∀ v, g.contains v = true → t.move v ∈ g.successors v ∧ g.contains (t.move v) = true) ∧
      ∀ v, g.contains v = true → ∃ start stop, t.Describes v start stop := by
  obtain ⟨hready, rfl⟩ := h.ready hg htotal
  obtain ⟨t, parts, evaluated, hrun, htried, hparts, hall, ht⟩ :=
    valuation_parts hready.keeps htotal
  refine ⟨t, parts, evaluated, hrun, htried, hparts.apart, fun v => ?_, ht.keeps.move,
    fun v hv => ⟨(ht.move_arc hv).2.1, (ht.move_active hv).1⟩, fun v hv => ht.describes hv⟩
  rw [← hparts.covers, hall]

theorem profiles_describe_duel : ∃ g, duel.build = .ok g ∧ ∃ s t, (start g).valuation = .ok s ∧
    s.improve.1.valuation = .ok t ∧ g.contains 4 = true ∧ (t.profile 4).before = [4, 0] ∧
      ∃ begin stop, t.Describes 4 begin stop := by
  obtain ⟨g, hmade, htotal, -⟩ := duel_total
  have hreach := Game.Reachable.build hmade
  obtain ⟨s, -, -, hrun, -⟩ := profiles_describe hreach htotal Reached.start
  obtain ⟨t, -, -, hnext, -, -, -, -, -, hdescribes⟩ :=
    profiles_describe hreach htotal (Reached.start.round hrun)
  have hlist : (duel.build.toOption.any fun g =>
      g.contains 4 && (start g).valuation.toOption.any fun s =>
        s.improve.1.valuation.toOption.any fun t => (t.profile 4).before = [4, 0]) = true := by
    decide +kernel
  simp only [hmade, Except.toOption, Option.any_some, Bool.and_eq_true, hrun, hnext,
    decide_eq_true_eq] at hlist
  exact ⟨g, hmade, s, t, hrun, hnext, hlist.1, hlist.2, hdescribes 4 hlist.1⟩

end Improvement

end ParityGames
