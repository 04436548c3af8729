import ResourceBinding.Token

/-!
# Laid out text

Text that is written for reading again: tokens, with blanks between them. A printer lists its
pieces, and `render` writes them out, so what a printer says is visible as tokens before it is
text.
-/

namespace ResourceBinding

/-- A piece of laid out text. -/
inductive Piece where
  | token (token : Token)
  | space (width : Nat)
  | newline
deriving DecidableEq, Repr

namespace Piece

/-- The characters of a piece. -/
def chars : Piece → List Char
  | token t => t.chars
  | space width => List.replicate width ' '
  | newline => ['\n']

/-- A bare word. -/
def word (text : String) : Piece :=
  token (.word text)

/-- The name of a value or structure type. -/
def valueName (name : String) : Piece :=
  token (.valueName name)

/-- The name of a function. -/
def functionName (name : String) : Piece :=
  token (.functionName name)

/-- A character of punctuation. -/
def punct (char : Char) : Piece :=
  token (.punct char)

/-- A count. -/
def count (n : Nat) : Piece :=
  token (.int n)

/-- The single space between two words. -/
def gap : Piece :=
  space 1

/-- Lists of pieces with a comma and a space between them. -/
def commaSeparated (items : List (List Piece)) : List Piece :=
  List.intercalate [punct ',', gap] items

/-- The tokens among the pieces. -/
def tokens (pieces : List Piece) : List Token :=
  pieces.filterMap fun
    | token t => some t
    | _ => none

end Piece

/-- The characters of laid out text. -/
def layoutChars (pieces : List Piece) : List Char :=
  pieces.flatMap Piece.chars

/-- Laid out text, written out. -/
def render (pieces : List Piece) : String :=
  String.ofList (layoutChars pieces)

@[simp]
theorem layoutChars_append (a b : List Piece) :
    layoutChars (a ++ b) = layoutChars a ++ layoutChars b :=
  List.flatMap_append

@[simp]
theorem toList_render (pieces : List Piece) : (render pieces).toList = layoutChars pieces :=
  String.toList_ofList

end ResourceBinding
