import ResourceBinding.Token

/-!
# Why a text is not read

A text is refused at a line, for one of a few causes. `ParseError.message` has the wording.
-/

namespace ResourceBinding

/-- What the grammar asks for at some place. -/
inductive Wanted where
  | header
  | functionName
  | valueName
  | type
  | scalarType
  | addressSpace
  | imageAccess
  | integer
  | statement
  | operation
  | operand
  | bodyEnd
  | punct (char : Char)
deriving DecidableEq, Repr

/-- How a message puts it. -/
def Wanted.text : Wanted → String
  | header => "'declare', 'kernel' or 'fn'"
  | functionName => "'@name'"
  | valueName => "'%name'"
  | type => "type"
  | scalarType => "scalar type"
  | addressSpace => "address space"
  | imageAccess => "'read' or 'write'"
  | integer => "integer"
  | statement => "statement"
  | operation => "'access', 'load', 'add', 'sub', 'mul' or 'call'"
  | operand => "operand"
  | bodyEnd => "'\x7d' closing the function body"
  | punct char => Text.quoted (String.singleton char)

/-- Why a text is not read. -/
inductive ParseCause where
  | strayChar (char : Char)
  | malformedNumber (text : String)
  /-- The text goes on with another token, or has come to its end. -/
  | mismatch (wanted : Wanted) (found : Option Token)
  | unknownValue (name : String)
  | valueTaken (name : String)
  | unknownFunction (name : String)
  | functionTaken (name : String)
  | unknownFlag (flag : String)
deriving DecidableEq, Repr

/-- The text of a cause. -/
def ParseCause.message : ParseCause → String
  | strayChar char => s!"unexpected character {Text.quoted (String.singleton char)}"
  | malformedNumber text => s!"invalid number {Text.quoted text}"
  | mismatch wanted none => s!"expected {wanted.text}, found end of input"
  | mismatch wanted (some token) => s!"expected {wanted.text}, found {token.shown}"
  | unknownValue name => s!"use of undefined value %{name}"
  | valueTaken name => s!"%{name} is already defined"
  | unknownFunction name => s!"unknown function @{name}"
  | functionTaken name => s!"function @{name} is defined twice"
  | unknownFlag flag => s!"unknown sampler flag {Text.quoted flag}"

/-- A cause, with the line it is found on; lines count from one. -/
structure ParseError where
  line : Nat
  cause : ParseCause
deriving DecidableEq, Repr

/-- The text of the error. -/
def ParseError.message (e : ParseError) : String :=
  s!"line {e.line}: {e.cause.message}"

end ResourceBinding
