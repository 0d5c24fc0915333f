/-!
# Faults

A fault ends a request that breaks a condition its caller has to keep. It is not an answer about
a game: errors that describe a game, a file or a solution have types of their own.
-/

namespace ParityGames

/-- The solving methods. Each of them needs a total game. -/
inductive Method where
  | zielonka
  | promotion
  | progressMeasures
  | improvement
deriving DecidableEq, Repr

def Method.requirement : Method → String
  | .zielonka => "Zielonka's algorithm requires a total game"
  | .promotion => "priority promotion requires a total game"
  | .progressMeasures => "progress measures require a total game"
  | .improvement => "strategy improvement requires a total game"

inductive Fault where
  /-- The number is too large to name a vertex. -/
  | numberOutOfRange
  /-- Two vertex sets of different capacities met in one operation. -/
  | capacityMismatch
  /-- Two vertex sets of different capacities were compared. -/
  | unequalCapacities
  /-- A position lies outside a table or a vertex set. -/
  | outsideTable
  /-- The storage asked for is larger than any storage. -/
  | capacityOverflow
  /-- A sum of two numbers is larger than any number in use. -/
  | additionOverflow
  /-- A counter went below zero. -/
  | counterUnderflow
  /-- A game with a dead end was given to a method that needs a total one. -/
  | notTotal (method : Method)
  /-- An open region was left without any vertex outside of it. -/
  | openRegionWithoutRest
  /-- The measures of the two players left vertices to neither of them. -/
  | measuresDisagree
  /-- The head of a cycle was left without a live successor. -/
  | cycleLostEdges
  /-- A bounded search ended before its work was done. -/
  | unfinished
deriving DecidableEq, Repr

namespace Fault

def text? : Fault → Option String
  | .numberOutOfRange => some "index out of range"
  | .capacityMismatch => some "vertex sets over different games"
  | .capacityOverflow => some "capacity overflow"
  | .additionOverflow => some "attempt to add with overflow"
  | .counterUnderflow => some "attempt to subtract with overflow"
  | .notTotal method => some method.requirement
  | .openRegionWithoutRest => some "an open region leaves vertices outside of it"
  | .unequalCapacities | .outsideTable | .measuresDisagree | .cycleLostEdges | .unfinished => none

/-- Whether the fault reports its wording to the caller. The others only say that the request
failed. -/
def isReported : Fault → Bool
  | .numberOutOfRange | .capacityMismatch | .notTotal _ => true
  | _ => false

def message? (fault : Fault) : Option String :=
  if fault.isReported then fault.text? else none

end Fault

/-! ## Bounds -/

def numberBound : Nat := 1 <<< 64

/-- No storage has as many bytes as this. -/
def storageBound : Nat := 1 <<< 63

/-- No vertex set has a capacity as large as this. -/
def capacityBound : Nat := 1 <<< 61

/-- Refuse storage for `count` items of `bytes` bytes each if there cannot be so much. -/
def checkStorage (count bytes : Nat) : Except Fault Unit :=
  if count * bytes < storageBound then .ok () else .error .capacityOverflow

end ParityGames
