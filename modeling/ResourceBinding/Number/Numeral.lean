/-!
# Written integers

Reading and writing integers in a given radix. A numeral is a non-empty run of digits; a sign may
stand before it. `decimal` writes, `value?` reads, and reading what was written gives the number
back (`value?_decimal`).
-/

namespace ResourceBinding.Numeral

/-- The value of a digit in the given radix, at most 16; letters count in either case. -/
def digit? (radix : Nat) (c : Char) : Option Nat :=
  let value :=
    if '0' ≤ c ∧ c ≤ '9' then some (c.toNat - '0'.toNat)
    else if 'a' ≤ c ∧ c ≤ 'f' then some (c.toNat - 'a'.toNat + 10)
    else if 'A' ≤ c ∧ c ≤ 'F' then some (c.toNat - 'A'.toNat + 10)
    else none
  value.filter (· < radix)

/-- The number that `digits` spell after a first part of value `start`. -/
def valueFrom? (radix start : Nat) : List Char → Option Nat
  | [] => some start
  | c :: digits =>
    match digit? radix c with
    | some d => valueFrom? radix (radix * start + d) digits
    | none => none

/-- The number that a run of digits spells; an empty run spells none. -/
def value? (radix : Nat) (digits : List Char) : Option Nat :=
  if digits.isEmpty then none else valueFrom? radix 0 digits

/-- A number below `limit`, where a plus sign may stand before the digits. -/
def unsigned? (radix limit : Nat) (text : List Char) : Option Nat :=
  let digits := match text with
    | '+' :: digits => digits
    | digits => digits
  (value? radix digits).filter (· < limit)

/-- A number with an optional sign of either kind. -/
def integer? (radix : Nat) : List Char → Option Int
  | '-' :: digits => (value? radix digits).map fun n => -(n : Int)
  | '+' :: digits => (value? radix digits).map fun n => (n : Int)
  | digits => (value? radix digits).map fun n => (n : Int)

/-- A number from `-half` up to, but not including, `half`, with an optional sign. -/
def signed? (radix half : Nat) (text : List Char) : Option Int :=
  (integer? radix text).filter fun n => -(half : Int) ≤ n && n < half

/-- The decimal digits of a number, without leading zeros. -/
def decimal (n : Nat) : List Char :=
  Nat.toDigits 10 n

/-- The decimal digits of a number behind its sign, which only a negative one has. -/
def signedDecimal : Int → List Char
  | .ofNat n => decimal n
  | .negSucc n => '-' :: decimal (n + 1)

/-- The hexadecimal digits of a number in lower case, without leading zeros. -/
def hexadecimal (n : Nat) : List Char :=
  Nat.toDigits 16 n

/-! ## Reading what was written -/

theorem digit?_of_isDigit {c : Char} (h : c.isDigit) : digit? 10 c = some (c.toNat - '0'.toNat) := by
  have hc : '0' ≤ c ∧ c ≤ '9' := by
    simpa [Char.isDigit, Char.le_def] using h
  have hlt : c.toNat - '0'.toNat < 10 := by
    have h9 : c.toNat ≤ '9'.toNat := hc.2
    have e0 : '0'.toNat = 48 := rfl
    have e9 : '9'.toNat = 57 := rfl
    omega
  have e0 : '0'.toNat = 48 := rfl
  rw [e0] at hlt
  simp [digit?, hc, hlt, Option.filter]

theorem valueFrom?_of_isDigit (digits : List Char) (h : ∀ c ∈ digits, c.isDigit) (start : Nat) :
    valueFrom? 10 start digits = some (Nat.ofDigitChars 10 digits start) := by
  induction digits generalizing start with
  | nil => simp [valueFrom?, Nat.ofDigitChars]
  | cons c digits ih =>
    simp only [valueFrom?, digit?_of_isDigit (h c (by simp))]
    rw [ih (fun d hd => h d (by simp [hd]))]
    simp [Nat.ofDigitChars]

/-- A written number consists of digits. -/
theorem isDigit_of_mem_decimal {n : Nat} {c : Char} (h : c ∈ decimal n) : c.isDigit :=
  Nat.isDigit_of_mem_toDigits (by decide) (by decide) h

theorem decimal_ne_nil (n : Nat) : decimal n ≠ [] :=
  Nat.toDigits_ne_nil

/-- **Reading a written number gives it back.** -/
theorem value?_decimal (n : Nat) : value? 10 (decimal n) = some n := by
  rw [value?, if_neg (by simp [decimal_ne_nil]),
    valueFrom?_of_isDigit _ (fun _ h => isDigit_of_mem_decimal h)]
  exact congrArg some (Nat.ofDigitChars_toDigits (by decide) (by decide))

end ResourceBinding.Numeral
