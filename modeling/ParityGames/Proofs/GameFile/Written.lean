import ParityGames.Fault
import ParityGames.GameFile.Basic
import ParityGames.Proofs.Text.Scanning

/-! # How game files are written

A file has its headers and rows in order, the parts of each in order, and blanks around them. How
the leading numbers of a row are kept apart and what its comment may be is left to the manner of
writing, so that one grammar tells both the clear texts and all others.
-/

namespace ParityGames

open Text

/-- What is allowed between the leading numbers of a row, and as the comment of a row with the given
name. -/
structure Manner where
  gap : List Char → Prop
  comment : Option String → List Char → Prop

/-- Gaps keep the numbers apart, and a comment is not taken for something else: it does not end the
row, and without a name in front it does not go on with successors or look like a name. -/
def Manner.clear : Manner where
  gap text := text ≠ [] ∧ Blanks text
  comment name? text := ';' ∉ text ∧ (name? = none →
    Stops (fun c => c.isDigit || c = ',' || c = '"') (text.dropWhile isBlank))

/-- Nothing has to keep the numbers apart, and anything that does not end the row is a comment. -/
def Manner.free : Manner where
  gap := Blanks
  comment _ text := ';' ∉ text

inductive WritesHeader (word : String) : Option Nat → List Char → Prop
  | absent : WritesHeader word none []
  | present {n : Nat} {before middle after rest : List Char} (hbefore : Blanks before)
      (hmiddle : Blanks middle) (hafter : Blanks after) (hrest : Blanks rest) :
      WritesHeader word (some n)
        (before ++ word.toList ++ middle ++ Nat.toDigits 10 n ++ after ++ ';' :: rest)

inductive WritesNumbers : List Nat → List Char → Prop
  | last (n : Nat) : WritesNumbers [n] (Nat.toDigits 10 n)
  | more {n : Nat} {numbers : List Nat} {before after text : List Char} (hbefore : Blanks before)
      (hafter : Blanks after) (hmore : WritesNumbers numbers text) :
      WritesNumbers (n :: numbers) (Nat.toDigits 10 n ++ before ++ ',' :: (after ++ text))

inductive WritesName : Option String → List Char → Prop
  | absent : WritesName none []
  | present {name : String} {before : List Char} (hbefore : Blanks before)
      (hname : '"' ∉ name.toList) :
      WritesName (some name) (before ++ '"' :: (name.toList ++ ['"']))

theorem WritesNumbers.ne_nil {numbers : List Nat} {text : List Char}
    (h : WritesNumbers numbers text) : numbers ≠ [] := by
  cases h <;> exact List.cons_ne_nil _ _

theorem WritesName.quote_not_mem {name? : Option String} {text : List Char}
    (h : WritesName name? text) (name : String) (hname : name? = some name) :
    '"' ∉ name.toList := by
  cases h with
  | absent => cases hname
  | present _ hquote =>
      obtain rfl := Option.some.inj hname
      exact hquote

inductive WritesRow (m : Manner) : GameRow → List Char → Prop
  | mk {row : GameRow} {lead gap gap' before successors name comment rest : List Char}
      (hlead : Blanks lead) (hgap : m.gap gap) (hgap' : m.gap gap') (hbefore : Blanks before)
      (hsuccessors : WritesNumbers row.successors successors) (hname : WritesName row.name? name)
      (hcomment : m.comment row.name? comment) (hrest : Blanks rest) :
      WritesRow m row (lead ++ Nat.toDigits 10 row.id ++ gap ++ Nat.toDigits 10 row.priority ++
        gap' ++ Nat.toDigits 10 row.player.number ++ before ++ successors ++ name ++ comment ++
        ';' :: rest)

inductive WritesRows (m : Manner) : List GameRow → List Char → Prop
  | nil : WritesRows m [] []
  | cons {row : GameRow} {rows : List GameRow} {text more : List Char}
      (hrow : WritesRow m row text) (hmore : WritesRows m rows more) :
      WritesRows m (row :: rows) (text ++ more)

inductive WritesFile (m : Manner) : GameFile → List Char → Prop
  | mk {file : GameFile} {maxId start rows : List Char}
      (hmaxId : WritesHeader "parity" file.maxId? maxId)
      (hstart : WritesHeader "start" file.start? start) (hrows : WritesRows m file.rows rows) :
      WritesFile m file (maxId ++ start ++ rows)

/-! ## What can be written -/

/-- The numbers can be read, there is a successor, and the name has no quote in it. -/
structure GameRow.Writable (row : GameRow) : Prop where
  id_lt : row.id < numberBound
  priority_lt : row.priority < numberBound
  successors_ne_nil : row.successors ≠ []
  successors_lt : ∀ n ∈ row.successors, n < numberBound
  name : ∀ name, row.name? = some name → '"' ∉ name.toList

structure GameFile.Writable (file : GameFile) : Prop where
  maxId_lt : ∀ n, file.maxId? = some n → n < numberBound
  start_lt : ∀ n, file.start? = some n → n < numberBound
  row : ∀ row ∈ file.rows, row.Writable

theorem exists_writesHeader (word : String) (n? : Option Nat) :
    ∃ text, WritesHeader word n? text := by
  cases n? with
  | none => exact ⟨_, .absent⟩
  | some n => exact ⟨_, .present .nil .nil .nil .nil⟩

theorem exists_writesNumbers {numbers : List Nat} (h : numbers ≠ []) :
    ∃ text, WritesNumbers numbers text := by
  induction numbers with
  | nil => exact absurd rfl h
  | cons n rest ih =>
      cases rest with
      | nil => exact ⟨_, .last n⟩
      | cons m rest =>
          obtain ⟨text, htext⟩ := ih (List.cons_ne_nil m rest)
          exact ⟨_, .more .nil .nil htext⟩

theorem exists_writesName {name? : Option String}
    (h : ∀ name, name? = some name → '"' ∉ name.toList) : ∃ text, WritesName name? text := by
  cases name? with
  | none => exact ⟨_, .absent⟩
  | some name => exact ⟨_, .present .nil (h name rfl)⟩

theorem GameRow.Writable.exists_writesRow {row : GameRow} (h : row.Writable) :
    ∃ text, WritesRow .clear row text := by
  obtain ⟨successors, hsuccessors⟩ := exists_writesNumbers h.successors_ne_nil
  obtain ⟨name, hname⟩ := exists_writesName h.name
  have hgap : Manner.clear.gap [' '] := ⟨List.cons_ne_nil _ _, by decide⟩
  have hcomment : Manner.clear.comment row.name? [] := ⟨List.not_mem_nil, fun _ => .nil⟩
  exact ⟨_, .mk .nil hgap hgap .nil hsuccessors hname hcomment .nil⟩

theorem GameFile.Writable.exists_writesFile {file : GameFile} (h : file.Writable) :
    ∃ text, WritesFile .clear file text := by
  have hrows : ∀ rows : List GameRow, (∀ row ∈ rows, row.Writable) →
      ∃ text, WritesRows .clear rows text := by
    intro rows hrows
    induction rows with
    | nil => exact ⟨_, .nil⟩
    | cons row rows ih =>
        obtain ⟨text, htext⟩ := (hrows row List.mem_cons_self).exists_writesRow
        obtain ⟨more, hmore⟩ := ih fun row hrow => hrows row (List.mem_cons_of_mem _ hrow)
        exact ⟨_, .cons htext hmore⟩
  obtain ⟨maxId, hmaxId⟩ := exists_writesHeader "parity" file.maxId?
  obtain ⟨start, hstart⟩ := exists_writesHeader "start" file.start?
  obtain ⟨rows, hrows⟩ := hrows file.rows h.row
  exact ⟨_, .mk hmaxId hstart hrows⟩

end ParityGames
