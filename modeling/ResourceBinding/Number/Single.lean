import ResourceBinding.Number.Numeral

/-!
# Numbers in single precision

A binary floating point number of 32 bits, kept as its bit pattern, with the decimal text it is
read from and written as.

## How it works

The magnitude of a finite number is a natural number of *units*, where a unit is the smallest
positive magnitude, `2 ^ -149`. Rounding a quotient to the nearest magnitude (`nearest`) and the
choice of digits (`shortest`) are exact arithmetic on natural numbers. Reading decimal text rounds
once, a tie going to the even neighbour.

A number is written with the fewest digits that read back as the same number, and among those
with the nearest; a tie goes up.
-/

namespace ResourceBinding

/-- A number in single precision, by its bit pattern: sign, eight bits of exponent, 23 bits of
fraction. -/
structure Single where
  bits : UInt32
deriving DecidableEq, Repr

namespace Single

/-! ## Parts of the bit pattern -/

/-- The bit pattern without its sign. -/
def magnitude (x : Single) : Nat :=
  x.bits.toNat % 0x80000000

/-- Whether the sign bit is set. -/
def isNegative (x : Single) : Bool :=
  0x80000000 ≤ x.bits.toNat

/-- The magnitude that stands for infinity; those above it stand for no number. -/
def infinity : Nat :=
  0x7F800000

/-- The number with the given sign and magnitude. -/
def ofMagnitude (negative : Bool) (magnitude : Nat) : Single :=
  ⟨UInt32.ofNat (magnitude + if negative then 0x80000000 else 0)⟩

/-- Units in one. -/
def unitsInOne : Nat :=
  Nat.pow 2 149

/-- The units that a finite magnitude stands for. -/
def units (magnitude : Nat) : Nat :=
  let exponent := magnitude / 0x800000
  let fraction := magnitude % 0x800000
  if exponent = 0 then fraction else (0x800000 + fraction) * Nat.pow 2 (exponent - 1)

/-! ## Rounding -/

/-- The natural number nearest to a quotient; a half goes to the even neighbour. -/
def roundHalfEven (num den : Nat) : Nat :=
  let floor := num / den
  match compare (2 * (num % den)) den with
  | .lt => floor
  | .gt => floor + 1
  | .eq => floor + floor % 2

/-- The magnitude nearest to a quotient, infinity included. A magnitude has at most 24 significant
bits, so as many low bits of the unit count are rounded away as lie below those. -/
def nearest (num den : Nat) : Nat :=
  let dropped := (num * unitsInOne / den).log2 - 23
  min infinity (dropped * 0x800000 + roundHalfEven (num * unitsInOne) (den * Nat.pow 2 dropped))

/-- The magnitude nearest to `digits * 10 ^ exponent`. Powers of ten that are far outside the range
are decided by the number of digits alone. -/
def nearestDecimal (digits : Nat) (exponent : Int) : Nat :=
  let point := (Numeral.decimal digits).length + exponent
  if digits = 0 ∨ point < -50 then 0
  else if 40 < point then infinity
  else if 0 ≤ exponent then nearest (digits * Nat.pow 10 exponent.toNat) 1
  else nearest digits (Nat.pow 10 (-exponent).toNat)

/-! ## Reading -/

/-- The exponent at the end of a decimal text: none at all, or `e` and an integer. -/
def exponent? : List Char → Option Int
  | [] => some 0
  | c :: text => if c = 'e' ∨ c = 'E' then Numeral.integer? 10 text else none

/-- Reads decimal text: an optional sign, digits with an optional point among or beside them, and
an optional exponent. -/
def read? (text : List Char) : Option Single :=
  let (negative, text) := match text with
    | '-' :: text => (true, text)
    | '+' :: text => (false, text)
    | text => (false, text)
  let whole := text.takeWhile Char.isDigit
  let text := text.dropWhile Char.isDigit
  let (fraction, text) := match text with
    | '.' :: text => (text.takeWhile Char.isDigit, text.dropWhile Char.isDigit)
    | text => ([], text)
  match Numeral.value? 10 (whole ++ fraction), exponent? text with
  | some digits, some exponent =>
    some (ofMagnitude negative (nearestDecimal digits (exponent - fraction.length)))
  | _, _ => none

/-! ## Writing -/

/-- Decimal places that suffice to show every finite magnitude with more digits than it needs. -/
def places : Nat :=
  60

/-- A decimal number `digits * 10 ^ exponent`. -/
structure Decimal where
  digits : Nat
  exponent : Int
deriving DecidableEq, Repr

/-- The two neighbours of a magnitude among the decimals with `count` digits, the nearer first and
of two equally near the upper. -/
def neighbours (magnitude count : Nat) : List Decimal :=
  let scaled := units magnitude * Nat.pow 10 places
  let cut := (Numeral.decimal (scaled / unitsInOne)).length - count
  let low := scaled / (unitsInOne * Nat.pow 10 cut)
  let below : Decimal := ⟨low, cut - places⟩
  let above : Decimal := ⟨low + 1, cut - places⟩
  if 2 * scaled < (2 * low + 1) * (unitsInOne * Nat.pow 10 cut) then [below, above]
  else [above, below]

/-- The decimal that equals a finite magnitude, for `1 / 2 ^ 149 = 5 ^ 149 / 10 ^ 149`. -/
def exact (magnitude : Nat) : Decimal :=
  ⟨units magnitude * Nat.pow 5 149, -149⟩

/-- Whether a decimal is read as the magnitude. -/
def Decimal.readsAs (d : Decimal) (magnitude : Nat) : Bool :=
  nearestDecimal d.digits d.exponent = magnitude

/-- The decimal with the fewest digits that reads back as the magnitude. Nine digits always
suffice, so that the exact decimal never has to stand in. -/
def shortest (magnitude : Nat) : Decimal :=
  let candidates := (List.range 9).flatMap fun n => neighbours magnitude (n + 1)
  (candidates.find? (·.readsAs magnitude)).getD (exact magnitude)

/-- Without the zeros at the end. -/
def withoutTrailingZeros (digits : List Char) : List Char :=
  (digits.reverse.dropWhile (· = '0')).reverse

/-- Numbers whose first digit stands for a power of ten in this range, ends included, are written
without an exponent. -/
def positionalRange : Int × Int :=
  (-4, 15)

/-- The text of a decimal. Without an exponent there is at least one digit on each side of the
point; with one, the point is left out if a single digit stands before it. -/
def Decimal.text (d : Decimal) : List Char :=
  let all := Numeral.decimal d.digits
  let point := all.length + d.exponent
  let digits := withoutTrailingZeros all
  let zeros (n : Int) : List Char := List.replicate n.toNat '0'
  if positionalRange.1 ≤ point - 1 ∧ point - 1 ≤ positionalRange.2 then
    if point ≤ 0 then ['0', '.'] ++ zeros (-point) ++ digits
    else
      let whole := digits.take point.toNat ++ zeros (point - digits.length)
      let fraction := digits.drop point.toNat
      whole ++ ['.'] ++ (if fraction.isEmpty then ['0'] else fraction)
  else
    let fraction := digits.drop 1
    digits.take 1 ++ (if fraction.isEmpty then [] else '.' :: fraction) ++
      ['e'] ++ Numeral.signedDecimal (point - 1)

/-- The text of a number. -/
def text (x : Single) : List Char :=
  if infinity < x.magnitude then ['N', 'a', 'N']
  else
    (if x.isNegative then ['-'] else []) ++
      if x.magnitude = infinity then ['i', 'n', 'f']
      else if x.magnitude = 0 then ['0', '.', '0']
      else (shortest x.magnitude).text

end Single

end ResourceBinding
