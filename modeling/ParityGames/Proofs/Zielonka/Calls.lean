import ParityGames.Solver.Zielonka
import ParityGames.Proofs.Data.Checked

/-! # The calls of Zielonka's recursion

A call is described by the game that it receives, the solution that it returns and what is done in
between: which parts are passed on to nested calls, and which territories are united. The runs that
come to a solution are these calls, whatever bound they put on the nesting.
-/

namespace ParityGames

namespace Run

variable {α β : Type}

theorem outcome_bind_eq_ok_iff {r : Run α} {f : α → Run β} {b : β} :
    (r >>= f).outcome = .ok b ↔ ∃ a, r.outcome = .ok a ∧ (f a).outcome = .ok b := by
  rw [outcome_bind, bind_eq_ok_iff]

theorem outcome_attempt_eq_ok_iff {request : Except Fault α} {a : α} :
    (attempt request).outcome = .ok a ↔ request = .ok a := by
  cases request <;> simp

end Run

namespace Zielonka

inductive Event where
  /-- The game passes a part of it on to a call that is nested so deep. -/
  | call (depth : Nat) (game part : Game)
  /-- Two territories are united. -/
  | merge (first second united : Territory)

def Event.isCall : Event → Bool
  | .call .. => true
  | .merge .. => false

def callCount (events : List Event) : Nat := events.countP Event.isCall

@[simp] theorem callCount_nil : callCount [] = 0 := rfl

@[simp] theorem callCount_call (depth : Nat) (game part : Game) (events : List Event) :
    callCount (.call depth game part :: events) = callCount events + 1 :=
  List.countP_cons_of_pos rfl

@[simp] theorem callCount_merge (first second united : Territory) (events : List Event) :
    callCount (.merge first second united :: events) = callCount events :=
  List.countP_cons_of_neg (by simp [Event.isCall])

@[simp] theorem callCount_append (events events' : List Event) :
    callCount (events ++ events') = callCount events + callCount events' :=
  List.countP_append

/-- A call that is nested so deep, from the game that it receives to the solution that it returns,
with what is done in it and in the calls nested in it, in this order. A call polls the token once,
before it does anything else, so a cancelled run stops where it enters one of these calls. -/
inductive Call : Nat → Game → Solution → List Event → Prop
  /-- No vertex is active. -/
  | blank {depth : Nat} {g : Game} (highest : g.maxPriority? = none) :
      Call depth g (Solution.empty g.vertexCount) []
  /-- The opponent wins nothing below the top. -/
  | topped {depth d : Nat} {g : Game} {p : Player} {a won : Territory} {rest : Solution}
      {below : List Event} (highest : g.maxPriority? = some d)
      (favoured : Player.ofPriority d = p)
      (attracts : attractor g p (g.verticesWithPriority d) = .ok a)
      (lower : Call (depth + 1) (g.difference a.region) rest below)
      (conceded : (rest.of p.opponent).region.isEmpty = true)
      (merged : (rest.of p).merge a = .ok won) :
      Call depth g
        (Solution.ofWinner p (completeTop g p (g.verticesWithPriority d) won)
          (Territory.empty g.vertexCount))
        (.call (depth + 1) g (g.difference a.region) :: below ++ [.merge (rest.of p) a won])
  /-- The opponent wins something below the top, and what that does not attract is solved again. -/
  | setback {depth d : Nat} {g : Game} {p : Player} {a b united lost : Territory}
      {rest final : Solution} {below beside : List Event} (highest : g.maxPriority? = some d)
      (favoured : Player.ofPriority d = p)
      (attracts : attractor g p (g.verticesWithPriority d) = .ok a)
      (lower : Call (depth + 1) (g.difference a.region) rest below)
      (contested : (rest.of p.opponent).region.isEmpty = false)
      (attracts' : attractorOfSet g p.opponent (rest.of p.opponent).region = .ok b)
      (again : Call (depth + 1) (g.difference b.region) final beside)
      (merged : (final.of p.opponent).merge b = .ok united)
      (merged' : united.merge (rest.of p.opponent) = .ok lost) :
      Call depth g (Solution.ofWinner p (final.of p) lost)
        (.call (depth + 1) g (g.difference a.region) :: below ++
          (.call (depth + 1) g (g.difference b.region) :: beside ++
            [.merge (final.of p.opponent) b united, .merge united (rest.of p.opponent) lost]))

variable {g : Game} {s s' : Solution} {events events' : List Event} {depth n : Nat}

/-- A run that comes to a solution is a call, and counts itself and the calls nested in it. -/
theorem exists_call {fuel : Nat} (h : (solveWithin fuel g depth).outcome = .ok (s, n)) :
    ∃ events, Call depth g s events ∧ n = callCount events + 1 := by
  induction fuel generalizing g depth s n with
  | zero => cases h
  | succ fuel ih =>
      unfold solveWithin at h
      obtain ⟨-, -, h⟩ := Run.outcome_bind_eq_ok_iff.1 h
      cases highest : g.maxPriority? with
      | none =>
          simp only [highest] at h
          cases h
          exact ⟨[], .blank highest, rfl⟩
      | some d =>
          simp only [highest, Run.liftM_eq_attempt] at h
          obtain ⟨a, attracts, h⟩ := Run.outcome_bind_eq_ok_iff.1 h
          obtain ⟨-, -, h⟩ := Run.outcome_bind_eq_ok_iff.1 h
          obtain ⟨⟨rest, calls⟩, hlower, h⟩ := Run.outcome_bind_eq_ok_iff.1 h
          obtain ⟨below, lower, rfl⟩ := ih hlower
          rw [Run.outcome_attempt_eq_ok_iff] at attracts
          split at h
          · rename_i conceded
            obtain ⟨won, merged, h⟩ := Run.outcome_bind_eq_ok_iff.1 h
            rw [Run.outcome_attempt_eq_ok_iff] at merged
            cases h
            exact ⟨_, .topped highest rfl attracts lower conceded merged, by simp⟩
          · rename_i contested
            obtain ⟨b, attracts', h⟩ := Run.outcome_bind_eq_ok_iff.1 h
            obtain ⟨-, -, h⟩ := Run.outcome_bind_eq_ok_iff.1 h
            obtain ⟨⟨final, more⟩, hagain, h⟩ := Run.outcome_bind_eq_ok_iff.1 h
            obtain ⟨beside, again, rfl⟩ := ih hagain
            obtain ⟨united, merged, h⟩ := Run.outcome_bind_eq_ok_iff.1 h
            obtain ⟨lost, merged', h⟩ := Run.outcome_bind_eq_ok_iff.1 h
            rw [Run.outcome_attempt_eq_ok_iff] at attracts' merged merged'
            cases h
            refine ⟨_, .setback highest rfl attracts lower (Bool.eq_false_iff.2 contested)
              attracts' again merged merged', ?_⟩
            simp only [callCount_call, callCount_merge, callCount_append, callCount_nil]

namespace Call

/-- Nested calls are events, so a bound above the number of events is never reached. -/
theorem outcome (h : Call depth g s events) {fuel : Nat} (hfuel : events.length < fuel) :
    (solveWithin fuel g depth).outcome = .ok (s, callCount events + 1) := by
  induction h generalizing fuel with
  | blank highest =>
      obtain ⟨fuel, rfl⟩ := Nat.exists_eq_succ_of_ne_zero (Nat.ne_zero_of_lt hfuel)
      simp only [solveWithin, highest, Run.outcome_bind, Run.outcome_check, ok_bind,
        Run.outcome_pure, callCount_nil]
  | topped highest favoured attracts _ conceded merged ih =>
      obtain ⟨fuel, rfl⟩ := Nat.exists_eq_succ_of_ne_zero (Nat.ne_zero_of_lt hfuel)
      simp only [List.length_append, List.length_cons, List.length_nil] at hfuel
      have hlower := @ih fuel (by omega)
      simp only [solveWithin, highest, favoured, Run.liftM_eq_attempt, attracts, conceded, merged,
        hlower, Run.outcome_bind, Run.outcome_check, Run.outcome_write, Run.attempt_ok, ok_bind,
        Run.outcome_pure, if_true, callCount_call, callCount_append, callCount_merge, callCount_nil,
        Nat.add_zero]
  | setback highest favoured attracts _ contested attracts' _ merged merged' ih ih' =>
      obtain ⟨fuel, rfl⟩ := Nat.exists_eq_succ_of_ne_zero (Nat.ne_zero_of_lt hfuel)
      simp only [List.length_append, List.length_cons, List.length_nil] at hfuel
      have hlower := @ih fuel (by omega)
      have hagain := @ih' fuel (by omega)
      simp only [solveWithin, highest, favoured, Run.liftM_eq_attempt, attracts, contested,
        attracts', merged, merged', hlower, hagain, Run.outcome_bind, Run.outcome_check,
        Run.outcome_write, Run.attempt_ok, ok_bind, Run.outcome_pure, Bool.false_eq_true, if_false,
        callCount_call, callCount_append, callCount_merge, callCount_nil]

/-- What a call returns depends on its game alone. -/
theorem result_unique (h : Call depth g s events) (h' : Call depth g s' events') :
    s = s' ∧ callCount events = callCount events' := by
  have hrun := h.outcome (Nat.lt_succ_of_le (Nat.le_add_right events.length events'.length))
  rw [h'.outcome (by omega)] at hrun
  simp only [Except.ok.injEq, Prod.mk.injEq, Nat.add_right_cancel_iff] at hrun
  exact ⟨hrun.1.symm, hrun.2.symm⟩

end Call

end Zielonka

end ParityGames
