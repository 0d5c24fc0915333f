import ParityGames.Text.Printable

/-!
# Quoted text

A text between double quotes, on one line and in printable characters. A quote and a backslash
get a backslash in front, a few controls have a letter of their own, and every other character
that is not printable is written by its code point.
-/

namespace ParityGames.Text

def hexDigits (n : Nat) : String := String.ofList (Nat.toDigits 16 n)

def quotedChar (c : Char) : String :=
  match c with
  | '"' => "\\\""
  | '\\' => "\\\\"
  | '\x00' => "\\0"
  | '\t' => "\\t"
  | '\n' => "\\n"
  | '\r' => "\\r"
  | c => if isPrintable c then c.toString else "\\u\x7b" ++ hexDigits c.toNat ++ "\x7d"

def quoted (text : String) : String :=
  "\"" ++ String.join (text.toList.map quotedChar) ++ "\""

end ParityGames.Text
