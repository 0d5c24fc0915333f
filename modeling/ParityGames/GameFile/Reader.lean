import ParityGames.Fault
import ParityGames.GameFile.Basic
import ParityGames.Text.Scanner

/-!
# Reading game files

A game file has an optional header `parity n;`, an optional header `start n;`, and rows
`id priority player successors "name";` with a name that may be missing and any comment before the
semicolon. Blanks may stand around numbers, commas, names and semicolons. What cannot be read as a
list item, a name or a header is left to what comes next, so that it may end up as a comment.
-/

namespace ParityGames

namespace GameFile

open Text Scanner

def number : Scanner Nat := padded (integer numberBound)

def comma : Scanner Unit := padded (char ',')

def semicolon : Scanner Unit := padded (char ';')

def header (word : String) : Scanner Nat := do
  padded (keyword word.toList)
  let n ← number
  semicolon
  return n

def player : Scanner Player
  | '0' :: rest => ⟨some (.even, rest), none⟩
  | '1' :: rest => ⟨some (.odd, rest), none⟩
  | text => failAt text

def quotedName : Scanner String := do
  char '"'
  let chars ← span (· ≠ '"')
  char '"'
  return String.ofList chars

/-- A row without its semicolon. -/
def rowBody : Scanner GameRow := do
  let id ← number
  let priority ← number
  let player ← player
  let successors ← separated number comma
  let name? ← optional (padded quotedName)
  skip (· ≠ ';')
  return ⟨id, priority, player, successors, name?⟩

def row : Scanner GameRow := do
  let row ← rowBody
  semicolon
  return row

def file : Scanner GameFile := do
  let maxId? ← optional (header "parity")
  let start? ← optional (header "start")
  let rows ← many row
  ending
  return ⟨maxId?, start?, rows⟩

/-- Read a game file, or tell the furthest place, counted in characters, at which it could not be
read on. -/
def read (text : String) : Except Nat GameFile :=
  let chars := text.toList
  match file chars with
  | ⟨some (f, _), _⟩ => .ok f
  | ⟨none, failed?⟩ => .error (chars.length - failed?.getD 0)

end GameFile

end ParityGames
