import ParityGames.Text.Blank

/-!
# Scanners

A scanner reads the front of a text. Along with its value it tells the furthest place at which
anything failed, as the number of characters left there. Scanners stand for the parser combinators
that the reader of game files is put together from, and behave as these do:

* nothing that has succeeded is read in another way when something after it fails;
* a part that may be missing and fails is passed over, and the text goes on from before it, however
  far it had been read (`optional`);
* a list ends before the first item that fails, in the same way, and never with fewer items than it
  could have (`many`, `separated`);
* padding takes the characters of the Unicode property White_Space on both sides (`padded`), so that
  those behind a part are gone before the next one starts;
* an integer is a zero alone, or digits of which the first is no zero, and one that does not fit
  into a machine word fails behind its last digit (`integer`);
* the error that is reported lies at the furthest place where anything failed, also in parts and
  items that were given up.

What was expected at that place is left out.
-/

namespace ParityGames.Text

structure Scan (α : Type) where
  /-- The value read, and the rest of the text. -/
  value? : Option (α × List Char)
  /-- The fewest characters left where something failed. -/
  failed? : Option Nat
deriving DecidableEq

def Scanner (α : Type) := List Char → Scan α

namespace Scanner

variable {α β : Type}

def furthest : Option Nat → Option Nat → Option Nat
  | none, b => b
  | some a, none => some a
  | some a, some b => some (min a b)

def failAt (text : List Char) : Scan α := ⟨none, some text.length⟩

def bind (p : Scanner α) (f : α → Scanner β) : Scanner β := fun text =>
  match p text with
  | ⟨none, failed?⟩ => ⟨none, failed?⟩
  | ⟨some (a, rest), failed?⟩ =>
      let next := f a rest
      ⟨next.value?, furthest failed? next.failed?⟩

instance : Monad Scanner where
  pure value := fun text => ⟨some (value, text), none⟩
  bind := bind

def skip (accept : Char → Bool) : Scanner Unit := fun text =>
  ⟨some ((), text.dropWhile accept), none⟩

def blanks : Scanner Unit := skip isBlank

def char (c : Char) : Scanner Unit
  | [] => failAt []
  | d :: rest => if d = c then ⟨some ((), rest), none⟩ else failAt (d :: rest)

def keyword : List Char → Scanner Unit
  | [] => pure ()
  | c :: rest => do
      char c
      keyword rest

def span (accept : Char → Bool) : Scanner (List Char) := fun text =>
  ⟨some (text.takeWhile accept, text.dropWhile accept), none⟩

def ending : Scanner Unit
  | [] => ⟨some ((), []), none⟩
  | text => failAt text

def padded (p : Scanner α) : Scanner α := do
  blanks
  let a ← p
  blanks
  return a

def optional (p : Scanner α) : Scanner (Option α) := fun text =>
  match p text with
  | ⟨some (a, rest), failed?⟩ => ⟨some (some a, rest), failed?⟩
  | ⟨none, failed?⟩ => ⟨some (none, text), failed?⟩

def manyUpTo (p : Scanner α) : Nat → Scanner (List α)
  | 0, text => ⟨some ([], text), none⟩
  | fuel + 1, text =>
      match p text with
      | ⟨none, failed?⟩ => ⟨some ([], text), failed?⟩
      | ⟨some (a, rest), failed?⟩ =>
          let next := manyUpTo p fuel rest
          ⟨next.value?.map fun (items, rest) => (a :: items, rest),
            furthest failed? next.failed?⟩

/-- Read as many items as there are. An item takes at least one character, so the length of the
text is fuel enough. -/
def many (p : Scanner α) : Scanner (List α) := fun text => manyUpTo p (text.length + 1) text

/-- Read an item, and more of them as long as a separator and another item follow. -/
def separated (p : Scanner α) (separator : Scanner Unit) : Scanner (List α) := do
  let first ← p
  let more ← many do
    separator
    p
  return first :: more

end Scanner

def decimalValue (digits : List Char) : Nat :=
  digits.foldl (fun n c => 10 * n + (c.toNat - '0'.toNat)) 0

/-- Read a number: a zero alone, or digits that do not start with a zero. A number that is not
below the bound fails behind its last digit. -/
def Scanner.integer (bound : Nat) : Scanner Nat
  | [] => failAt []
  | c :: rest =>
      if c = '0' then ⟨some (0, rest), none⟩
      else if c.isDigit then
        let value := decimalValue (c :: rest.takeWhile Char.isDigit)
        let rest := rest.dropWhile Char.isDigit
        if value < bound then ⟨some (value, rest), none⟩ else failAt rest
      else failAt (c :: rest)

end ParityGames.Text
