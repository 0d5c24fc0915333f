import ParityGames.Run

/-! # Runs in lockstep

Two runs are in lockstep if they poll and write the same records in the same order, and then end
for the same reason or with values that are related. No token can tell them apart before they end.
-/

namespace ParityGames

namespace Run

variable {α α' β β' : Type} {R : α → α' → Prop} {S : β → β' → Prop} {r : Run α} {r' : Run α'}

inductive Lockstep (R : α → α' → Prop) : Run α → Run α' → Prop
  | value {a : α} {a' : α'} (h : R a a') : Lockstep R (.finish (.ok a)) (.finish (.ok a'))
  | stop (cause : Stop) : Lockstep R (.finish (.error cause)) (.finish (.error cause))
  | poll {next : Unit → Run α} {next' : Unit → Run α'} (h : ∀ u, Lockstep R (next u) (next' u)) :
      Lockstep R (.poll next) (.poll next')
  | record (entry : Record) {next : Unit → Run α} {next' : Unit → Run α'}
      (h : ∀ u, Lockstep R (next u) (next' u)) :
      Lockstep R (.record entry next) (.record entry next')

namespace Lockstep

theorem bind {f : α → Run β} {f' : α' → Run β'} (h : r.Lockstep R r')
    (hf : ∀ a a', R a a' → (f a).Lockstep S (f' a')) : (r >>= f).Lockstep S (r' >>= f') := by
  change (r.bind f).Lockstep S (r'.bind f')
  induction h with
  | value ha => exact hf _ _ ha
  | stop cause => exact .stop cause
  | poll _ ih => exact .poll ih
  | record entry _ ih => exact .record entry ih

theorem refl (r : Run α) : r.Lockstep Eq r := by
  induction r with
  | finish result =>
      cases result with
      | ok value => exact .value rfl
      | error cause => exact .stop cause
  | poll next ih => exact .poll ih
  | record entry next ih => exact .record entry ih

theorem eq {r' : Run α} (h : r.Lockstep Eq r') : r = r' := by
  induction h with
  | value ha => rw [ha]
  | stop cause => rfl
  | poll _ ih => exact congrArg Run.poll (funext ih)
  | record entry _ ih => exact congrArg (Run.record entry) (funext ih)

theorem bind_left (r : Run α) {f : α → Run β} {f' : α → Run β'}
    (hf : ∀ a, (f a).Lockstep S (f' a)) : (r >>= f).Lockstep S (r >>= f') :=
  (refl r).bind fun a _ h => h ▸ hf a

theorem attempt {γ : Type} {f : α → γ} {f' : α' → γ} {request : Except Fault α}
    {request' : Except Fault α'} (h : request.map f = request'.map f') :
    (Run.attempt request).Lockstep (fun a a' => f a = f' a') (Run.attempt request') := by
  cases request with
  | ok value =>
      cases request' with
      | ok value' => exact .value (Except.ok.inj h)
      | error cause => cases h
  | error cause =>
      cases request' with
      | ok value' => cases h
      | error cause' =>
          cases Except.error.inj h
          exact .stop _

/-- A token stops both runs at the same record. -/
theorem follow (h : r.Lockstep R r') (raised : Moment → Bool) (moment : Moment) :
    (follow raised moment r).2 = (Run.follow raised moment r').2 := by
  induction h generalizing moment with
  | value ha => rfl
  | stop cause => rfl
  | poll _ ih =>
      unfold Run.follow
      split
      · rfl
      · exact ih () _
  | record entry _ ih =>
      exact congrArg (entry :: ·) (ih () { moment with records := moment.records + 1 })

theorem outcome {a : α} (h : r.Lockstep R r') (hrun : r.outcome = .ok a) :
    ∃ a', r'.outcome = .ok a' ∧ R a a' := by
  induction h with
  | value ha =>
      cases hrun
      exact ⟨_, rfl, ha⟩
  | stop cause => cases hrun
  | poll _ ih => exact ih () hrun
  | record entry _ ih => exact ih () hrun

end Lockstep

end Run

end ParityGames
