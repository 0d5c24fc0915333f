import ParityGames.Run

/-! # Runs under a token

A run does not depend on its token, so it comes to the same under every token up to the first poll
that finds the token raised. There it ends as cancelled, with the records that it has written.
-/

namespace ParityGames

namespace Run

variable {α β : Type} {raised : Moment → Bool} {r : Run α} {moment : Moment}

/-- The moments at which an uncancelled run polls, if it goes on from the given moment. -/
def pollsFrom : Moment → Run α → List Moment
  | _, .finish _ => []
  | moment, .poll next => moment :: pollsFrom { moment with polls := moment.polls + 1 } (next ())
  | moment, .record _ next => pollsFrom { moment with records := moment.records + 1 } (next ())

def polls (r : Run α) : List Moment := r.pollsFrom ⟨0, 0⟩

theorem follow_of_unraised (h : ∀ m ∈ r.pollsFrom moment, raised m = false) :
    follow raised moment r = (r.outcome, r.records) := by
  induction r generalizing moment with
  | finish result => rfl
  | poll next ih =>
      have hrest := ih () fun m hm => h m (List.mem_cons_of_mem _ hm)
      rw [follow, h moment List.mem_cons_self]
      exact hrest
  | record entry next ih =>
      have hrest := @ih () { moment with records := moment.records + 1 } h
      simp only [follow, hrest]
      rfl

theorem follow_of_raised (h : ∃ m ∈ r.pollsFrom moment, raised m = true) :
    (follow raised moment r).1 = .error .cancelled ∧
      (follow raised moment r).2 <+: r.records := by
  induction r generalizing moment with
  | finish result =>
      obtain ⟨_, hm, -⟩ := h
      cases hm
  | poll next ih =>
      cases hraised : raised moment with
      | true =>
          rw [follow, hraised]
          exact ⟨rfl, List.nil_prefix⟩
      | false =>
          -- this poll does not find the token raised, so it is a later one that does
          obtain ⟨m, hm, hlater⟩ := h
          have hne : m ≠ moment := by
            rintro rfl
            rw [hraised] at hlater
            cases hlater
          have hrest := ih () ⟨m, (List.mem_cons.1 hm).resolve_left hne, hlater⟩
          rw [follow, hraised]
          exact hrest
  | record entry next ih =>
      obtain ⟨hcancelled, hrecords⟩ :=
        @ih () { moment with records := moment.records + 1 } h
      exact ⟨hcancelled, (List.prefix_cons_inj entry).2 hrecords⟩

/-- What the token can do to a run: the run comes to its result with all of its records, or it is
cancelled because some poll found the token raised, with the records up to there. -/
structure AllOrNothing (r : Run α) (raised : Moment → Bool) : Prop where
  result : (r.report raised).1 = .error .cancelled ∨
    r.report raised = r.report fun _ => false
  cancelled_iff : (r.report raised).1 = .error .cancelled ↔ ∃ m ∈ r.polls, raised m = true
  records : (r.report raised).2 <+: (r.report fun _ => false).2

/-- The run does not end as cancelled unless a poll makes it. -/
def Uncancelled (r : Run α) : Prop := r.outcome ≠ .error .cancelled

theorem Uncancelled.allOrNothing (h : r.Uncancelled) (raised : Moment → Bool) :
    r.AllOrNothing raised := by
  have hnever : r.report (fun _ => false) = (r.outcome, r.records) := r.report_never _ fun _ => rfl
  by_cases hraised : ∃ m ∈ r.polls, raised m = true
  · obtain ⟨hcancelled, hrecords⟩ := follow_of_raised hraised
    exact {
      result := Or.inl hcancelled
      cancelled_iff := iff_of_true hcancelled hraised
      records := hnever ▸ hrecords }
  · have hreport : r.report raised = (r.outcome, r.records) := by
      refine follow_of_unraised fun m hm => Bool.eq_false_iff.2 fun hm' => hraised ⟨m, hm, hm'⟩
    exact {
      result := Or.inr (hreport.trans hnever.symm)
      cancelled_iff := iff_of_false (by rw [hreport]; exact h) hraised
      records := ⟨[], by rw [List.append_nil, hreport, hnever]⟩ }

/-! ## Runs that do not cancel themselves -/

theorem uncancelled_pure (value : α) : (pure value : Run α).Uncancelled := fun h => nomatch h

theorem uncancelled_fail (cause : Fault) : (fail cause : Run α).Uncancelled := fun h => nomatch h

theorem uncancelled_limit (limit : Nat) :
    (.finish (.error (.iterationLimit limit)) : Run α).Uncancelled := fun h => nomatch h

theorem uncancelled_attempt (request : Except Fault α) : (attempt request).Uncancelled := by
  cases request with
  | ok value => exact uncancelled_pure value
  | error cause => exact uncancelled_fail cause

theorem Uncancelled.bind {f : α → Run β} (h : r.Uncancelled) (hf : ∀ value, (f value).Uncancelled) :
    (r >>= f).Uncancelled := by
  unfold Uncancelled at h ⊢
  rw [outcome_bind]
  cases houtcome : r.outcome with
  | ok value => exact hf value
  | error stop =>
      rw [houtcome] at h
      exact fun hsame => h (congrArg Except.error (Except.error.inj hsame))

theorem uncancelled_check : check.Uncancelled := fun h => nomatch h

theorem uncancelled_write (entry : Record) : (write entry).Uncancelled := fun h => nomatch h

/-! ## Runs that poll at once -/

def PollsFirst (r : Run α) : Prop := ∃ next, r = .poll next

theorem PollsFirst.bind (h : r.PollsFirst) (f : α → Run β) : (r >>= f).PollsFirst := by
  obtain ⟨next, rfl⟩ := h
  exact ⟨_, rfl⟩

/-- A token that is raised from the start cancels the run before it writes a record. -/
theorem PollsFirst.report (h : r.PollsFirst) (hraised : raised ⟨0, 0⟩ = true) :
    r.report raised = (.error .cancelled, []) := by
  obtain ⟨next, rfl⟩ := h
  rw [Run.report, follow, hraised]
  rfl

end Run

end ParityGames
