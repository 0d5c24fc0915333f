import Mathlib.Data.Nat.Find
import ParityGames.Proofs.Improvement.Surveyed

/-! # Walks along the moves

A walk along moves ends in a cycle. Within a component the moves lead from every vertex to the head
in as many steps as its distance says, and from the head back to it through vertices of no greater
rank.
-/

namespace ParityGames

/-- A walk up to the first vertex that it meets twice. -/
structure Lasso (walk : Nat → Nat) (start stop : Nat) : Prop where
  lt : start < stop
  closes : walk stop = walk start
  fresh : ∀ i j, i < stop → j < stop → walk i = walk j → i = j

theorem exists_lasso {walk : Nat → Nat} {n : Nat} (hlt : ∀ i, walk i < n) :
    ∃ start stop, Lasso walk start stop := by
  classical
  have hrepeat : ∃ stop, ∃ start, start < stop ∧ walk start = walk stop := by
    by_contra hnone
    have hnodup : ((List.range (n + 1)).map walk).Nodup := by
      refine List.pairwise_map.2 (List.pairwise_lt_range.imp fun {i j} hij heq => ?_)
      exact hnone ⟨j, i, hij, heq⟩
    have hle := length_le_of_lt hnodup fun v hv => by
      obtain ⟨i, -, rfl⟩ := List.mem_map.1 hv
      exact hlt i
    rw [List.length_map, List.length_range] at hle
    omega
  obtain ⟨start, hstart, heq⟩ := Nat.find_spec hrepeat
  have hfirst : ∀ i j, i < j → j < Nat.find hrepeat → walk i ≠ walk j := fun i j hij hj hsame =>
    Nat.find_min hrepeat hj ⟨i, hij, hsame⟩
  refine ⟨start, Nat.find hrepeat, hstart, heq.symm, fun i j hi hj hsame => ?_⟩
  rcases Nat.lt_trichotomy i j with hij | hij | hij
  · exact absurd hsame (hfirst i j hij hj)
  · exact hij
  · exact absurd hsame.symm (hfirst j i hij hi)

namespace Lasso

variable {next : Nat → Nat} {v start stop i : Nat}

theorem iterate_add (h : Lasso (fun i => next^[i] v) start stop) (hi : start ≤ i) :
    next^[i + (stop - start)] v = next^[i] v := by
  have hlt := h.lt
  have hcloses := h.closes
  obtain ⟨k, rfl⟩ := Nat.exists_eq_add_of_le' hi
  rw [show k + start + (stop - start) = k + stop by omega, Function.iterate_add_apply,
    Function.iterate_add_apply]
  exact congrArg _ hcloses

/-- Whatever is met from the start of the cycle on lies on the cycle. -/
theorem exists_on_cycle (h : Lasso (fun i => next^[i] v) start stop) (hi : start ≤ i) :
    ∃ j, start ≤ j ∧ j < stop ∧ next^[j] v = next^[i] v := by
  have hlt := h.lt
  induction i using Nat.strongRecOn with
  | ind i ih =>
      by_cases hin : i < stop
      · exact ⟨i, hi, hin, rfl⟩
      · obtain ⟨j, hj, hjs, heq⟩ := ih (i - (stop - start)) (by omega) (by omega)
        have hback := h.iterate_add (i := i - (stop - start)) (by omega)
        rw [Nat.sub_add_cancel (by omega)] at hback
        exact ⟨j, hj, hjs, heq.trans hback.symm⟩

theorem exists_later (h : Lasso (fun i => next^[i] v) start stop) (hi : start ≤ i) (k : Nat) :
    ∃ j, start ≤ j ∧ k ≤ j ∧ next^[j] v = next^[i] v := by
  have hlt := h.lt
  induction k with
  | zero => exact ⟨i, hi, Nat.zero_le i, rfl⟩
  | succ k ih =>
      obtain ⟨j, hj, hjk, heq⟩ := ih
      exact ⟨j + (stop - start), by omega, by omega, (h.iterate_add hj).trans heq⟩

end Lasso

namespace Improvement

namespace Surveyed

variable {s : Improvement} {g : Game} {choice : Nat → Nat} {head v : Nat}
  {region : Nat → Prop} {above : List Nat}

theorem region_iterate (h : s.Surveyed g choice head region above) (hv : region v) (i : Nat) :
    region (s.move^[i] v) := by
  induction i with
  | zero => exact hv
  | succ i ih =>
      rw [Function.iterate_succ_apply']
      exact (h.moves _ ih).2

theorem iterate_distance (h : s.Surveyed g choice head region above) (hv : region v) :
    s.move^[(s.profile v).distance] v = head := by
  induction hd : (s.profile v).distance generalizing v with
  | zero =>
      by_contra hne
      have hstep := h.distance v hv hne
      omega
  | succ d ih =>
      have hne : v ≠ head := by
        rintro rfl
        have hzero := h.zero
        omega
      have hstep := h.distance v hv hne
      exact ih (h.moves v hv).2 (by omega)

theorem often_head (h : s.Surveyed g choice head region above) (hv : region v) (i : Nat) :
    ∃ j, i ≤ j ∧ s.move^[j] v = head := by
  refine ⟨(s.profile (s.move^[i] v)).distance + i, Nat.le_add_left _ _, ?_⟩
  rw [Function.iterate_add_apply]
  exact h.iterate_distance (h.region_iterate hv i)

theorem before_iterate_head (h : s.Surveyed g choice head region above) (i : Nat) :
    (s.profile (s.move^[i] head)).before = [] := by
  induction i with
  | zero => exact h.before_head
  | succ i ih =>
      rw [Function.iterate_succ_apply']
      by_cases hhead : s.move^[i] head = head
      · rw [hhead]
        exact h.before_move_head
      · rw [List.eq_nil_iff_forall_not_mem] at ih ⊢
        intro x hx
        exact ih x ((h.mem_before_iff (h.region_iterate h.head_mem i) hhead).2 (Or.inr hx))

theorem rank_iterate_head_le (h : s.Surveyed g choice head region above) (i : Nat) :
    g.rank (s.move^[i] head) ≤ g.rank head := by
  by_contra hlt
  have hrank := Nat.lt_of_not_le hlt
  have hne : s.move^[i] head ≠ head := by
    intro heq
    rw [heq] at hrank
    exact Nat.lt_irrefl _ hrank
  have hmet := (h.mem_before_iff (h.region_iterate h.head_mem i) hne).2 (Or.inl ⟨rfl, hrank⟩)
  rw [h.before_iterate_head] at hmet
  cases hmet

/-- Before the walk has come to the head it does not meet it. -/
theorem iterate_ne_head (h : s.Surveyed g choice head region above) (hv : region v) {i : Nat}
    (hi : i < (s.profile v).distance) : s.move^[i] v ≠ head := by
  induction i generalizing v with
  | zero =>
      rintro rfl
      have hzero := h.zero
      rw [Function.iterate_zero_apply] at hzero
      omega
  | succ i ih =>
      have hne : v ≠ head := by
        rintro rfl
        have hzero := h.zero
        omega
      have hstep := h.distance v hv hne
      exact ih (h.moves v hv).2 (by omega)

/-- A vertex is listed if the walk meets it before the head and it is above the head. -/
theorem mem_before_iff_iterate (h : s.Surveyed g choice head region above) (hv : region v)
    {x : Nat} : x ∈ (s.profile v).before ↔
      g.rank head < g.rank x ∧ ∃ i, i < (s.profile v).distance ∧ s.move^[i] v = x := by
  induction hd : (s.profile v).distance generalizing v with
  | zero =>
      have hhead := h.iterate_distance hv
      rw [hd, Function.iterate_zero_apply] at hhead
      rw [hhead, h.before_head]
      simp
  | succ d ih =>
      have hne : v ≠ head := by
        rintro rfl
        have hzero := h.zero
        omega
      have hstep := h.distance v hv hne
      rw [h.mem_before_iff hv hne, ih (h.moves v hv).2 (by omega)]
      constructor
      · rintro (⟨rfl, hrank⟩ | ⟨hrank, i, hi, heq⟩)
        · exact ⟨hrank, 0, Nat.succ_pos d, rfl⟩
        · exact ⟨hrank, i + 1, Nat.succ_lt_succ hi, heq⟩
      · rintro ⟨hrank, i, hi, heq⟩
        cases i with
        | zero =>
            obtain rfl : v = x := heq
            exact Or.inl ⟨rfl, hrank⟩
        | succ i => exact Or.inr ⟨hrank, i, Nat.lt_of_succ_lt_succ hi, heq⟩

end Surveyed

end Improvement

end ParityGames
