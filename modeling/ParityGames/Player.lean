/-!
# Players

The two players of a parity game. A play is infinite, and the largest priority it meets
infinitely often decides it: player even wins if that priority is even, player odd otherwise.
-/

namespace ParityGames

/-- A player, named for the priorities that favour it. -/
inductive Player where
  | even
  | odd
deriving DecidableEq, Repr, Inhabited

namespace Player

def ofPriority (priority : Nat) : Player :=
  if priority % 2 = 0 then .even else .odd

def opponent : Player → Player
  | .even => .odd
  | .odd => .even

def number : Player → Nat
  | .even => 0
  | .odd => 1

/-- Player even for `0`, player odd for every other number. -/
def ofNumber : Nat → Player
  | 0 => .even
  | _ => .odd

def name (p : Player) : String :=
  "player " ++ toString p.number

def sign (p : Player) : String :=
  "P" ++ toString p.number

def both : List Player := [.even, .odd]

@[simp] theorem opponent_opponent (p : Player) : p.opponent.opponent = p := by
  cases p <;> rfl

@[simp] theorem opponent_ne (p : Player) : p.opponent ≠ p := by
  cases p <;> decide

@[simp] theorem ne_opponent (p : Player) : p ≠ p.opponent := by
  cases p <;> decide

theorem eq_opponent_of_ne {p q : Player} (h : p ≠ q) : p = q.opponent := by
  cases p <;> cases q <;> simp_all [opponent]

@[simp] theorem mem_both (p : Player) : p ∈ both := by
  cases p <;> simp [both]

theorem ofPriority_eq_even_iff {priority : Nat} :
    ofPriority priority = .even ↔ priority % 2 = 0 := by
  unfold ofPriority
  split <;> simp_all

end Player

end ParityGames
