import ParityGames.Proofs.Progress.Lifting
import ParityGames.Proofs.Progress.Turns

/-! # The course of the lifting

The lifting proceeds in turns: the schedule hands out a vertex, which is lifted if that raises it.
Between two lifts no vertex comes twice, and lifts raise the sum of the levels, so the schedule ends
after finitely many turns, and then every vertex is settled.
-/

namespace ParityGames

namespace ProgressMeasures

structure Stage where
  measures : ProgressMeasures
  schedule : Schedule
  lifts : Nat

variable {m : ProgressMeasures} {s t u : Stage} {n fuel : Nat}

namespace Stage

def start (m : ProgressMeasures) (policy : Policy) : Stage :=
  ⟨m, Schedule.start m.game policy, 0⟩

def next? (s : Stage) : Option Stage :=
  match s.schedule.next with
  | (none, _) => none
  | (some v, schedule) =>
      if (s.measures.measure v).isTop then some { s with schedule := schedule }
      else
        match s.measures.lifted? v with
        | some m => some ⟨m, schedule.lifted v, s.lifts + 1⟩
        | none => some { s with schedule := schedule }

inductive Turns : Stage → Nat → Stage → Prop
  | refl (s : Stage) : Turns s 0 s
  | head {s t u : Stage} {n : Nat} : s.next? = some t → Turns t n u → Turns s (n + 1) u

/-! ## Turns are what the loop does -/

theorem next?_eq_none : s.next? = none ↔ s.schedule.next.1 = none := by
  unfold next?
  cases hn : s.schedule.next with
  | mk first schedule =>
      cases first with
      | none => simp
      | some v =>
          dsimp only
          split
          · simp
          · split <;> simp

theorem outcome_of_end (hend : s.next? = none) :
    (liftAll fuel s.measures s.schedule s.lifts).outcome = .ok (s.measures, s.lifts) := by
  rw [next?_eq_none] at hend
  unfold liftAll
  cases hn : s.schedule.next with
  | mk first schedule =>
      rw [hn] at hend
      cases hend
      rfl

theorem outcome_of_next (hnext : s.next? = some t) :
    (liftAll (fuel + 1) s.measures s.schedule s.lifts).outcome =
      (liftAll fuel t.measures t.schedule t.lifts).outcome := by
  unfold next? at hnext
  conv_lhs => unfold liftAll
  cases hn : s.schedule.next with
  | mk first schedule =>
      rw [hn] at hnext
      cases first with
      | none => cases hnext
      | some v =>
          dsimp only at hnext ⊢
          rw [Run.outcome_bind, Run.outcome_check, ok_bind]
          by_cases htop : (s.measures.measure v).isTop = true
          · rw [if_pos htop] at hnext ⊢
            obtain rfl := Option.some.inj hnext
            rfl
          · rw [if_neg htop] at hnext ⊢
            cases hlifted : s.measures.lifted? v with
            | none =>
                simp only [hlifted] at hnext
                obtain rfl := Option.some.inj hnext
                rfl
            | some m =>
                simp only [hlifted] at hnext
                obtain rfl := Option.some.inj hnext
                rfl

theorem Turns.outcome (h : s.Turns n t) (hend : t.next? = none) (hfuel : n ≤ fuel) :
    (liftAll fuel s.measures s.schedule s.lifts).outcome = .ok (t.measures, t.lifts) := by
  induction h generalizing fuel with
  | refl s => exact outcome_of_end hend
  | head hnext _ ih =>
      obtain ⟨fuel, rfl⟩ := Nat.exists_eq_add_of_le' hfuel
      rw [← Nat.add_assoc, outcome_of_next hnext]
      exact ih hend (Nat.le_add_left _ _)

/-! ## What turns keep -/

/-- The measures keep their form, and every vertex is settled that need not come again. -/
structure Sound (s : Stage) : Prop where
  proper : s.measures.Proper
  covers : s.schedule.Covers s.measures.game s.measures.Settled

/-- A later stage: the measures were lifted, and every counted lift raised the sum of the levels. -/
structure Later (s t : Stage) : Prop where
  sound : t.Sound
  lifted : s.measures.LiftedTo t.measures
  counted : t.lifts + s.measures.total ≤ s.lifts + t.measures.total

theorem Later.refl (hs : s.Sound) : s.Later s :=
  ⟨hs, .refl hs.proper, Nat.le_refl _⟩

theorem Later.trans (h : s.Later t) (h' : t.Later u) : s.Later u := by
  have hcounted := h.counted
  have hcounted' := h'.counted
  exact ⟨h'.sound, h.lifted.trans h'.lifted, by omega⟩

/-- A bound on the turns still to come: no more than a round for every lift that may succeed, and
the turns until the schedule ends without another lift. -/
def left (s : Stage) : Nat :=
  (s.measures.liftBound - s.measures.total) * (s.measures.game.vertexCount + 1) +
    s.schedule.turnsLeft s.measures.game

theorem Sound.pass (hs : s.Sound) {v : Nat} {schedule : Schedule}
    (hnext : s.schedule.next = (some v, schedule)) (hv : s.measures.Settled v) :
    s.Later { s with schedule := schedule } ∧ left { s with schedule := schedule } < s.left := by
  obtain ⟨hcovers, hlt⟩ := Schedule.covers_next hs.covers hnext hv
  exact ⟨⟨⟨hs.proper, hcovers⟩, .refl hs.proper, Nat.le_refl _⟩, Nat.add_lt_add_left hlt _⟩

theorem Sound.lift (hs : s.Sound) {v : Nat} {schedule : Schedule}
    (hnext : s.schedule.next = (some v, schedule)) (hlifted : s.measures.lifted? v = some m) :
    s.Later ⟨m, schedule.lifted v, s.lifts + 1⟩ ∧
      left ⟨m, schedule.lifted v, s.lifts + 1⟩ < s.left := by
  have hv := Schedule.contains_of_next hs.covers hnext
  obtain ⟨hm, hrise, hself, hothers⟩ := hs.proper.lifted?_spec hv hlifted
  obtain ⟨hcovers, hturns⟩ := Schedule.covers_lifted hs.proper.coherent hs.covers hnext
    (fun u _ huv hedge => hothers u huv hedge) hself
  refine ⟨⟨⟨hm.proper, hm.game ▸ hcovers⟩, hm, ?_⟩, ?_⟩
  · show s.lifts + 1 + s.measures.total ≤ s.lifts + m.total
    omega
  · have hbound : m.liftBound = s.measures.liftBound := by
      unfold liftBound
      rw [hm.game, hm.bounds]
    have htotal := hm.proper.total_le
    have hcount := hs.proper.coherent.length_vertices_le
    -- the lift pays for a whole round
    have hround : (s.measures.liftBound - m.total) * (s.measures.game.vertexCount + 1) +
        (s.measures.game.vertexCount + 1) ≤
          (s.measures.liftBound - s.measures.total) * (s.measures.game.vertexCount + 1) := by
      rw [← Nat.succ_mul]
      exact Nat.mul_le_mul_right _ (by omega)
    unfold left
    dsimp only
    rw [hbound, hm.game]
    omega

theorem Sound.next (hs : s.Sound) (h : s.next? = some t) : s.Later t ∧ t.left < s.left := by
  unfold next? at h
  cases hn : s.schedule.next with
  | mk first schedule =>
      rw [hn] at h
      cases first with
      | none => cases h
      | some v =>
          have hv := Schedule.contains_of_next hs.covers hn
          dsimp only at h
          split at h
          · rename_i htop
            obtain rfl := Option.some.inj h
            exact hs.pass hn (hs.proper.settled_of_top hv htop)
          · split at h
            · rename_i m hlifted
              obtain rfl := Option.some.inj h
              exact hs.lift hn hlifted
            · rename_i hlifted
              obtain rfl := Option.some.inj h
              exact hs.pass hn (hs.proper.settled_of_lifted?_none hv hlifted)

theorem Sound.turns (hs : s.Sound) (h : s.Turns n t) : s.Later t := by
  induction h with
  | refl s => exact .refl hs
  | head hnext _ ih =>
      have hfirst := (hs.next hnext).1
      exact hfirst.trans (ih hfirst.sound)

theorem Sound.settled_of_end (hs : s.Sound) (hend : s.next? = none) (v : Nat)
    (hv : s.measures.game.contains v = true) : s.measures.Settled v :=
  Schedule.settled_of_next_none hs.covers (next?_eq_none.1 hend) hv

theorem Sound.exists_end (hs : s.Sound) : ∃ n t, s.Turns n t ∧ t.next? = none ∧ n ≤ s.left := by
  induction hleft : s.left using Nat.strong_induction_on generalizing s with
  | _ left ih =>
      subst hleft
      cases hnext : s.next? with
      | none => exact ⟨0, s, .refl s, hnext, Nat.zero_le _⟩
      | some t =>
          obtain ⟨hlater, hlt⟩ := hs.next hnext
          obtain ⟨n, u, hturns, hend, hle⟩ := ih t.left hlt hlater.sound rfl
          exact ⟨n + 1, u, .head hnext hturns, hend, Nat.succ_le_of_lt (Nat.lt_of_le_of_lt hle hlt)⟩

theorem sound_start (hm : m.Proper) (policy : Policy) : (start m policy).Sound :=
  ⟨hm, (Schedule.covers_start hm.coherent policy).1⟩

theorem left_start_le (hm : m.Proper) (policy : Policy) :
    (start m policy).left ≤ m.turnBound := by
  have hturns := (@Schedule.covers_start m.game m.Settled hm.coherent policy).2
  have hcount := hm.coherent.length_vertices_le
  have hrounds := Nat.mul_le_mul_right (m.game.vertexCount + 1)
    (Nat.sub_le m.liftBound m.total)
  unfold left turnBound start
  dsimp only
  rw [hturns, Nat.add_mul, Nat.one_mul]
  omega

/-- From the start on, the turns end within the bound that the solver allows for. -/
theorem exists_course (hm : m.Proper) (policy : Policy) :
    ∃ n t, (start m policy).Turns n t ∧ t.next? = none ∧ n ≤ m.turnBound ∧
      (start m policy).Later t := by
  have hsound := sound_start hm policy
  obtain ⟨n, t, hturns, hend, hle⟩ := hsound.exists_end
  exact ⟨n, t, hturns, hend, Nat.le_trans hle (left_start_le hm policy), hsound.turns hturns⟩

end Stage

end ProgressMeasures

end ParityGames
