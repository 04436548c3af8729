import ResourceBinding.Number.Single
import ResourceBinding.Text.Split

/-!
# Tokens

The words of the textual form of a module, each with the one text it is written as. Messages show
a token as that text between apostrophes.
-/

namespace ResourceBinding

/-- A token of the textual form. -/
inductive Token where
  /-- A bare word: a keyword, the name of a scalar type, a flag. -/
  | word (text : String)
  /-- The name of a value or of a structure type, written behind a percent sign. -/
  | valueName (name : String)
  /-- The name of a function, written behind an at sign. -/
  | functionName (name : String)
  /-- An integer. -/
  | int (value : Int)
  /-- An integer that is marked as unsigned. -/
  | uint (value : Nat)
  /-- A number in single precision. -/
  | float (value : Single)
  /-- The arrow before a result type. -/
  | arrow
  /-- A single character of punctuation. -/
  | punct (char : Char)
deriving DecidableEq, Repr

namespace Token

/-- The characters a token is written as. -/
def chars : Token → List Char
  | word text => text.toList
  | valueName name => '%' :: name.toList
  | functionName name => '@' :: name.toList
  | int value => Numeral.signedDecimal value
  | uint value => Numeral.decimal value ++ ['u']
  | float value => value.text
  | arrow => ['-', '>']
  | punct char => [char]

/-- A token as messages show it. -/
def shown (token : Token) : String :=
  Text.quoted (String.ofList token.chars)

end Token

/-- A token with the line it starts on; lines count from one. -/
structure Located where
  token : Token
  line : Nat
deriving DecidableEq, Repr

end ResourceBinding
