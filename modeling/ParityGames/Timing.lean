import ParityGames.Run
import ParityGames.Solution.Basic

/-!
# Timed solving

A solver works apart from its caller, who waits for it for a limited time. However the work ends,
the caller gets a verdict: a solution, or one of three failures with a code each.
-/

namespace ParityGames

inductive Refusal where
  | cancelled
  /-- Strategy improvement did not come to an end within the allowed number of steps. -/
  | iterationLimit (limit : Nat)
deriving DecidableEq, Repr

def Refusal.message : Refusal → String
  | .cancelled => "solving was cancelled"
  | .iterationLimit limit => s!"strategy did not stabilise after {limit} iterations"

inductive Ending where
  | solved (solution : Solution)
  | refused (reason : Refusal)
  /-- The work broke off, with a message if there was one. -/
  | broken (message? : Option String)
  /-- The time was over first. -/
  | overdue
deriving DecidableEq

def Ending.ofOutcome : Except Stop Solution → Ending
  | .ok solution => .solved solution
  | .error .cancelled => .refused .cancelled
  | .error (.iterationLimit limit) => .refused (.iterationLimit limit)
  | .error (.fault cause) => .broken cause.text?

inductive Timing where
  | solved (solution : Solution)
  | timeout
  | outOfMemory
  | failed (message : String)
deriving DecidableEq

namespace Timing

def occursIn (part : List Char) : List Char → Bool
  | [] => part.isEmpty
  | c :: rest => part.isPrefixOf (c :: rest) || occursIn part rest

/-- Whether a message speaks of storage that could not be had. -/
def isAllocationFailure (message : String) : Bool :=
  ["capacity overflow", "memory allocation"].any fun part =>
    occursIn part.toList message.toList

def ofEnding : Ending → Timing
  | .solved solution => .solved solution
  | .refused .cancelled => .timeout
  | .refused reason => .failed reason.message
  | .broken message? =>
      let message := message?.getD "unknown panic"
      if isAllocationFailure message then .outOfMemory else .failed message
  | .overdue => .timeout

def solution? : Timing → Option Solution
  | .solved solution => some solution
  | _ => none

/-- The code of a failure. A solved game has the time it took instead. -/
def code? : Timing → Option Int
  | .solved _ => none
  | .timeout => some (-1)
  | .outOfMemory => some (-2)
  | .failed _ => some (-3)

end Timing

end ParityGames
