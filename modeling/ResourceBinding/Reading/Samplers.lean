import ResourceBinding.Reading.Error
import ResourceBinding.Text.Blank

/-!
# Sampler maps

The literal samplers that a program may use, each with its value and the text it was given as. The
order counts, and so do repetitions.

A sampler map is written with entries on lines or behind commas. An entry is one flag or several
with bars between them, and its value is the union of theirs. Blanks around flags and entries, empty
entries and comments do not count.
-/

namespace ResourceBinding

/-- A literal sampler. -/
structure Sampler where
  value : Nat
  expression : String
deriving DecidableEq, Repr

/-- The literal samplers of a program. -/
abbrev SamplerMap := List Sampler

namespace SamplerMap

open Text

/-- The flags with a name, and their values. -/
def namedFlags : List (String × Nat) :=
  [("CLK_NORMALIZED_COORDS_FALSE", 0x00), ("CLK_NORMALIZED_COORDS_TRUE", 0x01),
   ("CLK_ADDRESS_NONE", 0x00), ("CLK_ADDRESS_CLAMP_TO_EDGE", 0x02), ("CLK_ADDRESS_CLAMP", 0x04),
   ("CLK_ADDRESS_REPEAT", 0x06), ("CLK_ADDRESS_MIRRORED_REPEAT", 0x08),
   ("CLK_FILTER_NEAREST", 0x10), ("CLK_FILTER_LINEAR", 0x20)]

/-- The value of a flag: that of its name, or else the number of 32 bits that it spells, in
hexadecimal behind `0x` or `0X`. -/
def flagValue? (flag : String) : Option Nat :=
  match namedFlags.lookup flag with
  | some value => some value
  | none =>
    match flag.toList with
    | '0' :: 'x' :: digits | '0' :: 'X' :: digits => Numeral.unsigned? 16 UInt32.size digits
    | digits => Numeral.unsigned? 10 UInt32.size digits

/-- The union of the values of flags. -/
def unionOfFlags : List String → Except ParseCause Nat
  | [] => .ok 0
  | flag :: rest =>
    match flagValue? flag with
    | none => .error (.unknownFlag flag)
    | some value => (unionOfFlags rest).map (value ||| ·)

/-- The flags of an entry. -/
def flags (entry : List Char) : List String :=
  (splitOn '|' entry).map fun flag => String.ofList (trim flag)

/-- The sampler that an entry stands for. -/
def ofEntry (entry : List Char) : Except ParseCause Sampler :=
  (unionOfFlags (flags entry)).map fun value => ⟨value, String.ofList entry⟩

/-- The entries of a line. -/
def entries (line : List Char) : List (List Char) :=
  ((splitOn ',' (uncommented line)).map trim).filter (!·.isEmpty)

/-- The samplers on the line with the given number. -/
def ofLine (line : List Char) (number : Nat) : Except ParseError SamplerMap :=
  match (entries line).mapM ofEntry with
  | .ok samplers => .ok samplers
  | .error cause => .error ⟨number, cause⟩

/-- The samplers on lines that are numbered from `first` on. -/
def ofLines (first : Nat) : List (List Char) → Except ParseError SamplerMap
  | [] => .ok []
  | line :: rest =>
    match ofLine line first with
    | .error e => .error e
    | .ok samplers => (ofLines (first + 1) rest).map (samplers ++ ·)

/-- The sampler map that a text stands for. -/
def read (source : String) : Except ParseError SamplerMap :=
  ofLines 1 (lines source.toList)

end SamplerMap

end ResourceBinding
