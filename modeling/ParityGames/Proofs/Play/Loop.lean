import ParityGames.Proofs.Play.Dominion
import Mathlib.Logic.Relation

/-! # Loops

A walk that comes back to its start can be walked for ever. In a dominion the greatest priority on
such a walk favours the player.
-/

namespace ParityGames

theorem exists_walk {R : Nat → Nat → Prop} {u v : Nat} (h : Relation.TransGen R u v) :
    ∃ walk : Nat → Nat, ∃ n, 0 < n ∧ walk 0 = u ∧ walk n = v ∧
      ∀ i, i < n → R (walk i) (walk (i + 1)) := by
  induction h with
  | @single w hedge =>
      refine ⟨fun i => if i = 0 then u else w, 1, Nat.one_pos, rfl, rfl, fun i hi => ?_⟩
      obtain rfl : i = 0 := by omega
      exact hedge
  | @tail x w _ hedge ih =>
      obtain ⟨walk, n, hn, hstart, hend, hsteps⟩ := ih
      refine ⟨fun i => if i ≤ n then walk i else w, n + 1, Nat.succ_pos n, ?_, ?_, fun i hi => ?_⟩
      · simpa using hstart
      · simp
      · by_cases hlast : i = n
        · subst hlast
          have hbeyond : ¬ i + 1 ≤ i := by omega
          simp only [Nat.le_refl, if_true, if_neg hbeyond, hend]
          exact hedge
        · have hlt : i + 1 ≤ n := by omega
          have hle : i ≤ n := by omega
          simp only [if_pos hle, if_pos hlt]
          exact hsteps i hlt

/-- A walk back to the start, walked again and again. -/
theorem exists_loop {R : Nat → Nat → Prop} {v : Nat} (h : Relation.TransGen R v v) :
    ∃ play : Nat → Nat, play 0 = v ∧ (∀ i, R (play i) (play (i + 1))) ∧
      ∀ i, ∃ j, i ≤ j ∧ play j = v := by
  obtain ⟨walk, n, hn, hstart, hend, hsteps⟩ := exists_walk h
  refine ⟨fun i => walk (i % n), by simpa using hstart, fun i => ?_, fun i => ?_⟩
  · have hlt := Nat.mod_lt i hn
    have hstep := hsteps (i % n) hlt
    by_cases hlast : i % n + 1 = n
    · have hnext : (i + 1) % n = 0 := by
        rw [← Nat.mod_add_mod, hlast, Nat.mod_self]
      rw [hlast, hend, ← hstart] at hstep
      simpa only [hnext] using hstep
    · have hnext : (i + 1) % n = i % n + 1 := by
        rw [← Nat.mod_add_mod, Nat.mod_eq_of_lt (by omega)]
      simpa only [hnext] using hstep
  · refine ⟨n * i, Nat.le_mul_of_pos_left i hn, ?_⟩
    simpa using hstart

/-- What a play meets again and again lies on a closed walk. -/
theorem transGen_of_often {R : Nat → Nat → Prop} {play : Nat → Nat} {v k : Nat}
    (hsteps : ∀ i, k ≤ i → R (play i) (play (i + 1)))
    (hoften : ∀ i, ∃ j, i ≤ j ∧ play j = v) : Relation.TransGen R v v := by
  obtain ⟨i, hi, hiv⟩ := hoften k
  obtain ⟨j, hj, hjv⟩ := hoften (i + 1)
  have hwalk : ∀ n, Relation.TransGen R (play i) (play (i + 1 + n)) := by
    intro n
    induction n with
    | zero => exact Relation.TransGen.single (hsteps i hi)
    | succ n ih => exact ih.tail (hsteps _ (by omega))
  have hloop := hwalk (j - (i + 1))
  rwa [Nat.add_sub_cancel' hj, hiv, hjv] at hloop

namespace Game

theorem Dominion.favours_of_loop {g : Game} {p : Player} {region : Set Nat}
    {move : Nat → Option Nat} (h : g.Dominion p region move) {v top : Nat} (hv : v ∈ region)
    (htop : g.priorityOf v = top)
    (hloop : Relation.TransGen (fun a b => g.priorityOf a ≤ top ∧ g.Step p move a b) v v) :
    Player.ofPriority top = p := by
  obtain ⟨play, hstart, hsteps, hoften⟩ := exists_loop hloop
  have hplay : g.Obeys p move play := fun i => (hsteps i).2
  have hwon := h.wins_of_mem hplay (k := 0) (by rwa [hstart])
  have hwon' := wonBy_of_top rfl (fun i => (hsteps i).1) fun i => by
    obtain ⟨j, hj, hjv⟩ := hoften i
    exact ⟨j, hj, by rw [hjv, htop]⟩
  by_contra hne
  rw [Player.eq_opponent_of_ne hne] at hwon'
  exact hwon.not_opponent hwon'

end Game

end ParityGames
