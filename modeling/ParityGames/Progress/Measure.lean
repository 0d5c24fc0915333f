import ParityGames.Data.Ranking
import ParityGames.Fault

/-!
# Measures

A measure has one counter per priority, or is the top measure, which no play can pay for.
Measures are compared by the counters of the greatest priorities first, and the top measure is
above all others.
-/

namespace ParityGames

inductive Measure where
  | finite (counters : List Nat)
  | top
deriving DecidableEq, Repr, Inhabited

namespace Measure

def zero (length : Nat) : Measure := .finite (List.replicate length 0)

/-- All counters at zero, if so many can be stored; a counter takes 8 bytes. -/
def create (length : Nat) : Except Fault Measure := do
  checkStorage length 8
  return zero length

def isTop : Measure → Bool
  | .top => true
  | .finite _ => false

def cmp : Measure → Measure → Ordering
  | .top, .top => .eq
  | .top, .finite _ => .gt
  | .finite _, .top => .lt
  | .finite a, .finite b => List.compareLex compare a.reverse b.reverse

/-- The measures in increasing order; equal ones keep their order. -/
def sort (measures : List Measure) : List Measure :=
  Ranking.sortBy (fun a b => cmp a b ≠ .gt) measures

def greatest? (measures : List Measure) : Option Measure := Ranking.lastGreatest cmp measures

def least? (measures : List Measure) : Option Measure := Ranking.firstLeast cmp measures

/-- Add one to the first counter. A counter at its bound goes back to zero, and the carry goes to
the counter after the next; it is lost behind the last one. -/
def increment : List Nat → List Nat → Option (List Nat)
  | bound :: bounds, counter :: counters =>
      if counter < bound then some ((counter + 1) :: counters)
      else
        match bounds, counters with
        | _ :: bounds, skipped :: counters =>
            (increment bounds counters).map fun rest => 0 :: skipped :: rest
        | _, _ => none
  | _, _ => none

/-- The least measure that is, from the counter at `priority` on, at least `m`, or above `m` if
`strictly`. -/
def raise (bounds : List Nat) (priority : Nat) (strictly : Bool) : Measure → Measure
  | .top => .top
  | .finite counters =>
      let cleared := List.replicate priority 0
      if strictly then
        match increment (bounds.drop priority) (counters.drop priority) with
        | some raised => .finite (cleared ++ raised)
        | none => .top
      else .finite (cleared ++ counters.drop priority)

end Measure

end ParityGames
