import ParityGames.Fault

/-!
# Vertices

A vertex is its number. Numbers that come from outside are checked once, when they become
vertices; afterwards a vertex is an ordinary natural number.
-/

namespace ParityGames

namespace Vertex

/-- The vertex with the given number. The greatest number in use names no vertex. -/
def ofNumber (n : Nat) : Except Fault Nat :=
  if n + 1 < numberBound then .ok n else .error .numberOutOfRange

def ofNumbers (numbers : List Nat) : Except Fault (List Nat) :=
  numbers.mapM ofNumber

/-- The numbers before the first that names no vertex, and the fault of that one. -/
def takeNumbers : List Nat → List Nat × Option Fault
  | [] => ([], none)
  | n :: rest =>
      match ofNumber n with
      | .error fault => ([], some fault)
      | .ok v =>
          let (vertices, fault?) := takeNumbers rest
          (v :: vertices, fault?)

def label (v : Nat) : String := "v" ++ toString v

end Vertex

end ParityGames
