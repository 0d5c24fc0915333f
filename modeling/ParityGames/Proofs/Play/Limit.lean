import ParityGames.Game.Play
import Mathlib.Order.Monotone.Basic
import Mathlib.Tactic.Push

/-! # Limit priorities

The greatest priority that a play meets infinitely often. It is one only, every play whose
priorities are bounded has it, and it does not change if the first vertices of the play are left
out. So no play is won by both players.
-/

namespace ParityGames

def tail (play : Nat → Nat) (k : Nat) : Nat → Nat := fun i => play (k + i)

@[simp] theorem tail_apply (play : Nat → Nat) (k i : Nat) : tail play k i = play (k + i) := rfl

/-- A bounded sequence has a greatest value among those that it takes infinitely often. -/
theorem exists_limit {f : Nat → Nat} {b : Nat} (hb : ∀ i, f i ≤ b) :
    ∃ d, (∀ i, ∃ j, i ≤ j ∧ f j = d) ∧ ∃ i, ∀ j, i ≤ j → f j ≤ d := by
  induction b generalizing f with
  | zero => exact ⟨0, fun i => ⟨i, Nat.le_refl i, Nat.le_zero.1 (hb i)⟩, 0, fun j _ => hb j⟩
  | succ b ih =>
      by_cases recurs : ∀ i, ∃ j, i ≤ j ∧ f j = b + 1
      · exact ⟨b + 1, recurs, 0, fun j _ => hb j⟩
      · -- from some place on the value `b + 1` is not taken any more
        push Not at recurs
        obtain ⟨k, hk⟩ := recurs
        obtain ⟨d, hd, n, bound⟩ := @ih (tail f k) fun i => by
          have hle := hb (k + i)
          have hne := hk (k + i) (by omega)
          rw [tail_apply]
          omega
        refine ⟨d, fun i => ?_, k + n, fun j hj => ?_⟩
        · obtain ⟨j, hj, hfd⟩ := hd i
          exact ⟨k + j, by omega, hfd⟩
        · have hbound := bound (j - k) (by omega)
          rwa [tail_apply, Nat.add_sub_cancel' (by omega)] at hbound

/-- No sequence of numbers falls infinitely often without ever rising. -/
theorem no_descent {f : Nat → Nat} (hle : ∀ i, f (i + 1) ≤ f i)
    (hlt : ∀ i, ∃ j, i ≤ j ∧ f (j + 1) < f j) : False := by
  have hfar := Nat.rel_of_forall_rel_succ_of_le (fun a b => b ≤ a) hle
  have hbelow : ∀ n i, f i ≠ n := by
    intro n
    induction n using Nat.strongRecOn with
    | ind n ih =>
        intro i hi
        obtain ⟨j, hj, hfall⟩ := hlt i
        have hfirst := hfar hj
        exact ih (f (j + 1)) (by omega) (j + 1) rfl
  exact hbelow (f 0) 0 rfl

/-- Nor does a pair of numbers of which the first counts more. -/
theorem no_lex_descent {f d : Nat → Nat}
    (h : ∀ i, f (i + 1) < f i ∨ f (i + 1) = f i ∧ d (i + 1) < d i) : False := by
  have hle : ∀ i, f (i + 1) ≤ f i := by
    intro i
    rcases h i with hlt | ⟨heq, -⟩
    · exact Nat.le_of_lt hlt
    · exact Nat.le_of_eq heq
  have hfew : ¬ ∀ i, ∃ j, i ≤ j ∧ f (j + 1) < f j := no_descent hle
  push Not at hfew
  obtain ⟨k, hk⟩ := hfew
  have hfalls : ∀ i, tail d k (i + 1) < tail d k i := by
    intro i
    have hstay := hk (k + i) (by omega)
    rcases h (k + i) with hlt | ⟨-, hlt⟩
    · omega
    · exact hlt
  exact no_descent (fun i => Nat.le_of_lt (hfalls i)) fun i => ⟨i, Nat.le_refl i, hfalls i⟩

namespace Game

variable {g : Game} {p : Player} {play : Nat → Nat}

theorem IsLimitPriority.of_tail {k d : Nat} (h : g.IsLimitPriority (tail play k) d) :
    g.IsLimitPriority play d := by
  obtain ⟨recurs, n, bound⟩ := h
  refine ⟨fun i => ?_, k + n, fun j hj => ?_⟩
  · obtain ⟨j, hj, hd⟩ := recurs i
    exact ⟨k + j, by omega, hd⟩
  · have hb := bound (j - k) (by omega)
    rwa [tail_apply, Nat.add_sub_cancel' (by omega)] at hb

theorem WonBy.of_tail {k : Nat} (h : g.WonBy p (tail play k)) : g.WonBy p play := by
  obtain ⟨d, hd, hp⟩ := h
  exact ⟨d, hd.of_tail, hp⟩

theorem IsLimitPriority.unique {d e : Nat} (hd : g.IsLimitPriority play d)
    (he : g.IsLimitPriority play e) : d = e := by
  have key : ∀ {a b : Nat}, g.IsLimitPriority play a → g.IsLimitPriority play b → a ≤ b := by
    intro a b ha hb
    obtain ⟨n, bound⟩ := hb.2
    obtain ⟨j, hj, rfl⟩ := ha.1 n
    exact bound j hj
  exact Nat.le_antisymm (key hd he) (key he hd)

theorem WonBy.not_opponent (h : g.WonBy p play) : ¬ g.WonBy p.opponent play := by
  rintro ⟨e, he, hp⟩
  obtain ⟨d, hd, rfl⟩ := h
  rw [hd.unique he] at hp
  exact Player.ne_opponent _ hp

theorem wonBy_of_top {top : Nat} (hp : Player.ofPriority top = p)
    (hle : ∀ i, g.priorityOf (play i) ≤ top)
    (hoften : ∀ i, ∃ j, i ≤ j ∧ g.priorityOf (play j) = top) : g.WonBy p play :=
  ⟨top, ⟨hoften, 0, fun j _ => hle j⟩, hp⟩

theorem exists_wonBy {b : Nat} (hb : ∀ i, g.priorityOf (play i) ≤ b) : ∃ p, g.WonBy p play := by
  obtain ⟨d, hd⟩ := exists_limit hb
  exact ⟨_, d, hd, rfl⟩

theorem WonBy.congr {other : Game} (h : ∀ v, other.priorityOf v = g.priorityOf v)
    (hw : other.WonBy p play) : g.WonBy p play := by
  obtain ⟨d, ⟨recurs, n, bound⟩, hp⟩ := hw
  refine ⟨d, ⟨fun i => ?_, n, fun j hj => ?_⟩, hp⟩
  · obtain ⟨j, hj, hd⟩ := recurs i
    exact ⟨j, hj, by rw [← h, hd]⟩
  · rw [← h]
    exact bound j hj

end Game

end ParityGames
