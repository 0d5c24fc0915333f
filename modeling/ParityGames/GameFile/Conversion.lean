import ParityGames.Game.Builder
import ParityGames.GameFile.Basic

/-!
# Games from files

The vertices of the game are numbered in the order of the rows. Before the game is built, all ids
have to be distinct, then all successors have to be declared, then the start vertex.
-/

namespace ParityGames

inductive ConversionError where
  | duplicateId (id : Nat)
  | unknownSuccessor (id successor : Nat)
  | unknownStart (id : Nat)
  | game (cause : GameError)
deriving DecidableEq, Repr

def ConversionError.message : ConversionError → String
  | .duplicateId id => s!"vertex {id} is declared twice"
  | .unknownSuccessor id successor => s!"vertex {id} has undeclared successor {successor}"
  | .unknownStart id => s!"start vertex {id} is not declared"
  | .game cause => s!"invalid game: {cause.message}"

/-- A game together with the ids of its vertices in the file. -/
structure FileGame where
  game : Game
  ids : VertexTable Nat
  /-- The vertex where plays start. -/
  start? : Option Nat
deriving DecidableEq

def FileGame.idOf (f : FileGame) (v : Nat) : Nat := f.ids.getD v 0

namespace GameFile

def vertexOfId (rows : List GameRow) : Except ConversionError (SortedMap Nat) :=
  rows.zipIdx.foldlM
    (fun known entry =>
      if known.contains entry.1.id then .error (.duplicateId entry.1.id)
      else .ok (known.insert entry.1.id entry.2))
    SortedMap.empty

def target (known : SortedMap Nat) (id successor : Nat) : Except ConversionError Nat :=
  match known.get? successor with
  | some v => .ok v
  | none => .error (.unknownSuccessor id successor)

def draft (known : SortedMap Nat) (row : GameRow) : Except ConversionError Draft := do
  return ⟨row.player, row.priority, ← row.successors.mapM (target known row.id)⟩

def startVertex (known : SortedMap Nat) : Option Nat → Except ConversionError (Option Nat)
  | none => .ok none
  | some id =>
      match known.get? id with
      | some v => .ok (some v)
      | none => .error (.unknownStart id)

def toGame (f : GameFile) : Except ConversionError FileGame := do
  let known ← vertexOfId f.rows
  let drafts ← f.rows.mapM (draft known)
  let start? ← startVertex known f.start?
  match (⟨VertexTable.ofList drafts⟩ : GameBuilder).build with
  | .ok game => return { game, ids := VertexTable.ofList (f.rows.map (·.id)), start? }
  | .error cause => throw (.game cause)

end GameFile

end ParityGames
