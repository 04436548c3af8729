import ResourceBinding.Reading.Tokens

/-!
# Reading tokens in turn

A reader takes tokens from the front of a list and fails at the first one that does not fit. There
is one primitive for this, `Reader.take`: every keyword, name and sign is read through it, so a
reader that fails has always named what it wanted and shown what it found.
-/

namespace ResourceBinding

/-- The tokens still to be read, and the line of the last token of the whole text, where an error
at the end of the text is located. -/
structure Cursor where
  rest : List Located
  lastLine : Nat
deriving DecidableEq, Repr

/-- The cursor before all tokens of a text. The last line of an empty text is line one. -/
def Cursor.start (tokens : List Located) : Cursor :=
  ⟨tokens, (tokens.getLast?.map Located.line).getD 1⟩

/-- Reads from a cursor and moves it. -/
abbrev Reader := StateT Cursor (Except ParseError)

namespace Reader

/-- The next token. -/
def peek : Reader (Option Token) := do
  return (← get).rest.head?.map Located.token

/-- The line of the next token, or of the last one at the end of the text. -/
def line : Reader Nat := do
  let cursor ← get
  return (cursor.rest.head?.map Located.line).getD cursor.lastLine

/-- An upper bound for the number of tokens still to be read, large enough for a loop that reads at
least one of them in each round but the last. -/
def bound : Reader Nat := do
  return (← get).rest.length + 1

/-- Steps over the next token. -/
def advance : Reader Unit :=
  modify fun cursor => { cursor with rest := cursor.rest.tail }

/-- Fails at the given line. -/
def refuse {α : Type} (line : Nat) (cause : ParseCause) : Reader α :=
  throw ⟨line, cause⟩

/-- Fails at the next token, which is not what is wanted. -/
def expected {α : Type} (wanted : Wanted) : Reader α := do
  refuse (← line) (.mismatch wanted (← peek))

/-- Reads the next token if it has a meaning, and fails if it has none. -/
def take {α : Type} (wanted : Wanted) (meaning : Token → Option α) : Reader α := do
  match (← peek).bind meaning with
  | some a =>
    advance
    return a
  | none => expected wanted

/-- Reads a bare word that has a meaning. -/
def takeWord {α : Type} (wanted : Wanted) (meaning : String → Option α) : Reader α :=
  take wanted fun
    | .word w => meaning w
    | _ => none

/-- Reads a sign. -/
def sign (char : Char) : Reader Unit :=
  take (.punct char) fun token => if token = .punct char then some () else none

/-- Reads the name of a value. -/
def valueName : Reader String :=
  take .valueName fun
    | .valueName name => some name
    | _ => none

/-- Reads the name of a function. -/
def functionName : Reader String :=
  take .functionName fun
    | .functionName name => some name
    | _ => none

/-- Steps over the next token if it is the given one, and tells whether it was. -/
def eat (token : Token) : Reader Bool := do
  if (← peek) = some token then
    advance
    return true
  else
    return false

/-- The value of a token for an integer, and the token as messages show it. -/
def integerShown? : Token → Option (Int × String)
  | .int n => some (n, (Token.int n).shown)
  | .uint n => some (n, (Token.uint n).shown)
  | _ => none

/-- Reads an integer of 32 bits without a sign. -/
def natural : Reader Nat := do
  let line ← line
  let (value, shown) ← take .integer integerShown?
  if 0 ≤ value ∧ value < 0x100000000 then
    return value.toNat
  else
    refuse line (.malformedNumber shown)

/-- Reads items up to a closing sign, with commas between them, of which there are at most so
many. There is at least one. -/
def itemsWithin {m : Type → Type} [Monad m] [MonadLiftT Reader m] {α : Type} (close : Char)
    (item : m α) : Nat → m (List α)
  | 0 => (expected (.punct close) : Reader (List α))
  | n + 1 => do
    let first ← item
    if ← eat (.punct close) then
      return [first]
    else
      sign ','
      return first :: (← itemsWithin close item n)

/-- Reads items up to a closing sign, with commas between them. There may be none. -/
def itemsUntil {m : Type → Type} [Monad m] [MonadLiftT Reader m] {α : Type} (close : Char)
    (item : m α) : m (List α) := do
  if ← eat (.punct close) then
    return []
  else
    itemsWithin close item (← bound)

end Reader

end ResourceBinding
