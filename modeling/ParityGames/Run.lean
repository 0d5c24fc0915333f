import ParityGames.Player
import ParityGames.Fault

/-!
# Runs

A run of a solver is what it does for others to see: it polls the token by which it can be
cancelled, it writes records, and it ends with a result. The run itself does not depend on the
token; `Run.follow` follows a run up to the first poll that finds the token raised.
-/

namespace ParityGames

inductive Level where
  | debug
  | trace
deriving DecidableEq, Repr

def Level.name : Level → String
  | .debug => "DEBUG"
  | .trace => "TRACE"

inductive Record where
  /-- A game was split by the attractor of its greatest priority. -/
  | layer (depth priority vertices attracted : Nat)
  /-- The opponent's winnings below attracted this many vertices. -/
  | setback (depth attracted : Nat)
  | recursionDone (vertices calls : Nat)
  | promoted (priority vertices target : Nat)
  | dominion (vertices : Nat) (player : Player)
  | promotionDone (vertices promotions : Nat)
  | lifted (lifts : Nat) (player : Player) (vertices : Nat)
  | measuresDone (even odd : Nat)
  | improved (iteration : Nat)
  | improvementDone (vertices iterations : Nat)
deriving DecidableEq, Repr

namespace Record

def level : Record → Level
  | .layer .. | .setback .. | .promoted .. | .lifted .. | .improved .. => .trace
  | .recursionDone .. | .dominion .. | .promotionDone .. | .measuresDone ..
  | .improvementDone .. => .debug

def indent (depth : Nat) : String := String.ofList (List.replicate depth ' ')

def text : Record → String
  | .layer depth priority vertices attracted =>
      indent depth ++ s!"d = {priority}, |G| = {vertices}, |A| = {attracted}"
  | .setback depth attracted => indent depth ++ s!"|B| = {attracted}"
  | .recursionDone vertices calls =>
      s!"zielonka: {vertices} vertices solved in {calls} recursive calls"
  | .promoted priority vertices target =>
      s!"promotion: region at {priority} of {vertices} vertices promoted to {target}"
  | .dominion vertices player => s!"promotion: dominion of {vertices} vertices for {player.name}"
  | .promotionDone vertices promotions =>
      s!"promotion: solved {vertices} vertices with {promotions} promotions"
  | .lifted lifts player vertices => s!"spm: {lifts} lifts for {player.name} on {vertices} vertices"
  | .measuresDone even odd => s!"spm: {even} vertices won by P0, {odd} by P1"
  | .improved iteration => s!"improvement: iteration {iteration}"
  | .improvementDone vertices iterations =>
      s!"improvement: {vertices} vertices solved in {iterations} iterations"

def line (r : Record) : String := r.level.name ++ " " ++ r.text

end Record

inductive Stop where
  | cancelled
  /-- Strategy improvement did not come to an end within the allowed number of steps. -/
  | iterationLimit (limit : Nat)
  | fault (cause : Fault)
deriving DecidableEq, Repr

/-- A run that ends with a value. -/
inductive Run (α : Type) where
  | finish (result : Except Stop α)
  | poll (next : Unit → Run α)
  | record (entry : Record) (next : Unit → Run α)

namespace Run

variable {α β : Type}

def bind : Run α → (α → Run β) → Run β
  | .finish (.ok value), f => f value
  | .finish (.error stop), _ => .finish (.error stop)
  | .poll next, f => .poll fun u => (next u).bind f
  | .record entry next, f => .record entry fun u => (next u).bind f

instance : Monad Run where
  pure value := .finish (.ok value)
  bind := bind

def check : Run Unit := .poll fun _ => pure ()

def write (entry : Record) : Run Unit := .record entry fun _ => pure ()

def fail (cause : Fault) : Run α := .finish (.error (.fault cause))

def attempt : Except Fault α → Run α
  | .ok value => pure value
  | .error cause => fail cause

instance : MonadLift (Except Fault) Run := ⟨attempt⟩

structure Moment where
  polls : Nat
  records : Nat
deriving DecidableEq, Repr

/-- Follow a run from a moment on. The token is raised at the moments for which `raised` holds;
a poll that finds it raised cancels the run. -/
def follow (raised : Moment → Bool) : Moment → Run α → Except Stop α × List Record
  | _, .finish result => (result, [])
  | moment, .poll next =>
      if raised moment then (.error .cancelled, [])
      else follow raised { moment with polls := moment.polls + 1 } (next ())
  | moment, .record entry next =>
      let (result, entries) :=
        follow raised { moment with records := moment.records + 1 } (next ())
      (result, entry :: entries)

def report (raised : Moment → Bool) (r : Run α) : Except Stop α × List Record :=
  follow raised ⟨0, 0⟩ r

/-- The token is raised while the given record is written; `0` is before the start. -/
def fromRecord (count : Nat) : Moment → Bool := fun moment => count ≤ moment.records

def outcome : Run α → Except Stop α
  | .finish result => result
  | .poll next => (next ()).outcome
  | .record _ next => (next ()).outcome

def records : Run α → List Record
  | .finish _ => []
  | .poll next => (next ()).records
  | .record entry next => entry :: (next ()).records

theorem bind_pure (r : Run α) : r.bind (fun value => .finish (.ok value)) = r := by
  induction r with
  | finish result => cases result <;> rfl
  | poll next ih => exact congrArg Run.poll (funext ih)
  | record entry next ih => exact congrArg (Run.record entry) (funext ih)

theorem bind_assoc {γ : Type} (r : Run α) (f : α → Run β) (g : β → Run γ) :
    (r.bind f).bind g = r.bind fun value => (f value).bind g := by
  induction r with
  | finish result => cases result <;> rfl
  | poll next ih => exact congrArg Run.poll (funext ih)
  | record entry next ih => exact congrArg (Run.record entry) (funext ih)

instance : LawfulMonad Run :=
  LawfulMonad.mk' Run bind_pure (fun _ _ => rfl) bind_assoc

/-! ## What an uncancelled run comes to -/

@[simp] theorem outcome_pure (value : α) : (pure value : Run α).outcome = .ok value := rfl

@[simp] theorem records_pure (value : α) : (pure value : Run α).records = [] := rfl

@[simp] theorem outcome_bind (r : Run α) (f : α → Run β) :
    (r >>= f).outcome = r.outcome >>= fun value => (f value).outcome := by
  change (r.bind f).outcome = _
  induction r with
  | finish result => cases result <;> rfl
  | poll next ih => exact ih ()
  | record entry next ih => exact ih ()

theorem records_bind (r : Run α) (f : α → Run β) :
    (r >>= f).records =
      r.records ++ match r.outcome with
        | .ok value => (f value).records
        | .error _ => [] := by
  change (r.bind f).records = _
  induction r with
  | finish result => cases result <;> rfl
  | poll next ih => exact ih ()
  | record entry next ih => exact congrArg (entry :: ·) (ih ())

@[simp] theorem outcome_check : check.outcome = .ok () := rfl

@[simp] theorem outcome_write (entry : Record) : (write entry).outcome = .ok () := rfl

@[simp] theorem records_write (entry : Record) : (write entry).records = [entry] := rfl

@[simp] theorem outcome_fail (cause : Fault) :
    (fail cause : Run α).outcome = .error (.fault cause) := rfl

@[simp] theorem attempt_ok (value : α) : attempt (.ok value) = (pure value : Run α) := rfl

@[simp] theorem attempt_error (cause : Fault) : attempt (.error cause) = (fail cause : Run α) := rfl

theorem liftM_eq_attempt (request : Except Fault α) : (liftM request : Run α) = attempt request :=
  rfl

theorem report_never (r : Run α) (raised : Moment → Bool) (h : ∀ moment, raised moment = false) :
    r.report raised = (r.outcome, r.records) := by
  suffices ∀ moment, follow raised moment r = (r.outcome, r.records) from this ⟨0, 0⟩
  induction r with
  | finish result => intro moment; rfl
  | poll next ih =>
      intro moment
      simp only [follow, h moment]
      exact ih () _
  | record entry next ih =>
      intro moment
      simp only [follow, ih () _]
      rfl

end Run

end ParityGames
