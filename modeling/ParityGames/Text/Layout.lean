/-!
# Layout

Texts brought to a width, and lists of texts between brackets.
-/

namespace ParityGames.Text

def padding (width : Nat) (fill : Char) (text : String) : String :=
  String.ofList (List.replicate (width - text.length) fill)

def padLeft (width : Nat) (fill : Char) (text : String) : String :=
  padding width fill text ++ text

def padRight (width : Nat) (fill : Char) (text : String) : String :=
  text ++ padding width fill text

def listing (opening closing : String) (items : List String) : String :=
  opening ++ String.intercalate ", " items ++ closing

def numberList (numbers : List Nat) : String :=
  listing "[" "]" (numbers.map toString)

end ParityGames.Text
