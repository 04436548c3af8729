import ResourceBinding.Reading.Error
import ResourceBinding.Text.Blank

/-!
# From text to tokens

A text is read in one pass that counts the line feeds. `scan` reads the token that a character
starts. What it leaves of the text is no longer than what follows that character (`length_scan_le`),
which is why the pass comes to an end.
-/

namespace ResourceBinding

open Text

/-- The characters of names, behind the sign that starts one, and of words. -/
def isNameChar (c : Char) : Bool :=
  c.isAlphanum || c == '_' || c == '.'

/-- The characters that a number may go on with. Most combinations of them are no number. -/
def isNumberChar (c : Char) : Bool :=
  c.isAlphanum || c == '.' || c == '-' || c == '+'

/-- The characters that are tokens by themselves. -/
def punctuation : List Char :=
  ['(', ')', '{', '}', '<', '>', ',', ':', '=', '|']

/-- The number that a text spells. One that ends in `u` is unsigned and has 64 bits. Of the others,
hexadecimal ones are signed and have 64 bits, and so have decimal ones, unless a point or an
exponent makes them a number in single precision. -/
def numberToken? (text : List Char) : Option Token :=
  if text.getLast? = some 'u' then
    match text.dropLast with
    | '0' :: 'x' :: digits => (Numeral.unsigned? 16 UInt64.size digits).map .uint
    | digits => (Numeral.unsigned? 10 UInt64.size digits).map .uint
  else
    match text with
    | '0' :: 'x' :: digits => (Numeral.signed? 16 (UInt64.size / 2) digits).map .int
    | _ =>
      if text.any fun c => c == '.' || c == 'e' || c == 'E' then (Single.read? text).map .float
      else (Numeral.signed? 10 (UInt64.size / 2) text).map .int

/-- The number that starts with the character `c`. -/
def scanNumber (c : Char) (text : List Char) : Except ParseCause (Token × List Char) :=
  let spelled := c :: text.takeWhile isNumberChar
  match numberToken? spelled with
  | some token => .ok (token, text.dropWhile isNumberChar)
  | none => .error (.malformedNumber (String.ofList spelled))

/-- The name behind the sign `c`. -/
def scanName (c : Char) (token : String → Token) (text : List Char) :
    Except ParseCause (Token × List Char) :=
  match text.takeWhile isNameChar with
  | [] => .error (.strayChar c)
  | name => .ok (token (String.ofList name), text.dropWhile isNameChar)

/-- The token that starts with the character `c`, and the text behind it. -/
def scan (c : Char) (text : List Char) : Except ParseCause (Token × List Char) :=
  if c = '%' then scanName c .valueName text
  else if c = '@' then scanName c .functionName text
  else if c = '-' then
    match text with
    | '>' :: text => .ok (.arrow, text)
    | _ => scanNumber c text
  else if c.isDigit then scanNumber c text
  else if c.isAlpha || c == '_' then
    .ok (.word (String.ofList (c :: text.takeWhile isNameChar)), text.dropWhile isNameChar)
  else if punctuation.contains c then .ok (.punct c, text)
  else .error (.strayChar c)

theorem length_dropWhile_le (p : Char → Bool) (text : List Char) :
    (text.dropWhile p).length ≤ text.length :=
  (List.dropWhile_sublist p).length_le

theorem length_scanNumber_le {c : Char} {text rest : List Char} {token : Token}
    (h : scanNumber c text = .ok (token, rest)) : rest.length ≤ text.length := by
  simp only [scanNumber] at h
  split at h
  · simp only [Except.ok.injEq, Prod.mk.injEq] at h
    exact h.2 ▸ length_dropWhile_le _ _
  · simp at h

theorem length_scanName_le {c : Char} {make : String → Token} {text rest : List Char}
    {token : Token} (h : scanName c make text = .ok (token, rest)) :
    rest.length ≤ text.length := by
  simp only [scanName] at h
  split at h
  · simp at h
  · simp only [Except.ok.injEq, Prod.mk.injEq] at h
    exact h.2 ▸ length_dropWhile_le _ _

/-- **A token leaves no more than what follows its first character.** -/
theorem length_scan_le {c : Char} {text rest : List Char} {token : Token}
    (h : scan c text = .ok (token, rest)) : rest.length ≤ text.length := by
  simp only [scan] at h
  split at h
  · exact length_scanName_le h
  split at h
  · exact length_scanName_le h
  split at h
  · split at h
    · simp only [Except.ok.injEq, Prod.mk.injEq] at h
      simp [← h.2]
    · exact length_scanNumber_le h
  split at h
  · exact length_scanNumber_le h
  split at h
  · simp only [Except.ok.injEq, Prod.mk.injEq] at h
    exact h.2 ▸ length_dropWhile_le _ _
  split at h
  · simp only [Except.ok.injEq, Prod.mk.injEq] at h
    simp [← h.2]
  · simp at h

/-- The tokens of a text that starts on the given line. A comment ends in front of the line feed. -/
def tokensFrom (line : Nat) : List Char → Except ParseError (List Located)
  | [] => .ok []
  | c :: text =>
    if c = '\n' then tokensFrom (line + 1) text
    else if isBlank c then tokensFrom line text
    else if c = '/' ∧ text.head? = some '/' then
      have := length_dropWhile_le (· != '\n') text
      tokensFrom line (text.dropWhile (· != '\n'))
    else
      match h : scan c text with
      | .error cause => .error ⟨line, cause⟩
      | .ok (token, rest) =>
        have := length_scan_le h
        match tokensFrom line rest with
        | .error e => .error e
        | .ok tokens => .ok (⟨token, line⟩ :: tokens)
termination_by text => text.length

/-- The tokens of a text. -/
def readTokens (source : String) : Except ParseError (List Located) :=
  tokensFrom 1 source.toList

end ResourceBinding
