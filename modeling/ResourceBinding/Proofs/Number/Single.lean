import Mathlib.Data.List.TakeWhile
import Mathlib.Tactic.Ring
import ResourceBinding.Number.Single
import ResourceBinding.Proofs.Text.Split

/-!
# Reading single precision as it was written

Text is read by its `Parts`: whole digits, a fraction and an exponent. Rounding depends on the value
of a decimal alone, not on how it is split into digits and an exponent (`nearestDecimal_shift`), so
whatever form a decimal is written in, its parts round to what it does (`exists_parts_decimal`). The
digits of a finite number were chosen so that they round to it (`readsAs_shortest`).
-/

namespace ResourceBinding

/-- **Reading a written integer gives it back.** -/
theorem Numeral.integer?_signedDecimal (n : Int) :
    Numeral.integer? 10 (Numeral.signedDecimal n) = some n := by
  cases n with
  | ofNat n =>
    obtain ⟨c, digits, hdigits⟩ := List.exists_cons_of_ne_nil (Numeral.decimal_ne_nil n)
    have hc : c.isDigit := Numeral.isDigit_of_mem_decimal (hdigits ▸ List.mem_cons_self)
    have hvalue := Numeral.value?_decimal n
    simp only [Numeral.signedDecimal]
    rw [hdigits] at hvalue ⊢
    unfold Numeral.integer?
    split
    · rename_i heq
      cases heq
      cases hc
    · rename_i heq
      cases heq
      cases hc
    · rw [hvalue]
      rfl
  | negSucc n =>
    simp only [Numeral.signedDecimal, Numeral.integer?, Numeral.value?_decimal]
    rfl

namespace Single

open Text

/-! ## Rounding -/

theorem roundHalfEven_mul (num den : Nat) {c : Nat} (hc : 0 < c) :
    roundHalfEven (num * c) (den * c) = roundHalfEven num den := by
  have hcompare : compare (2 * (num % den * c)) (den * c) = compare (2 * (num % den)) den := by
    rw [← Nat.mul_assoc]
    rcases Nat.lt_trichotomy (2 * (num % den)) den with h | h | h
    · rw [Nat.compare_eq_lt.mpr h, Nat.compare_eq_lt.mpr ((Nat.mul_lt_mul_right hc).mpr h)]
    · rw [h, Nat.compare_eq_eq.mpr rfl, Nat.compare_eq_eq.mpr rfl]
    · rw [Nat.compare_eq_gt.mpr h, Nat.compare_eq_gt.mpr ((Nat.mul_lt_mul_right hc).mpr h)]
  unfold roundHalfEven
  rw [Nat.mul_div_mul_right _ _ hc, Nat.mul_mod_mul_right, hcompare]

/-- Quotients are rounded alike in any terms. -/
theorem nearest_mul (num den : Nat) {c : Nat} (hc : 0 < c) :
    nearest (num * c) (den * c) = nearest num den := by
  have hdropped : num * c * unitsInOne / (den * c) = num * unitsInOne / den := by
    rw [Nat.mul_right_comm, Nat.mul_div_mul_right _ _ hc]
  unfold nearest
  dsimp only
  rw [hdropped, Nat.mul_right_comm num, Nat.mul_right_comm den, roundHalfEven_mul _ _ hc]

theorem length_decimal_mul_pow (n k : Nat) (hn : 0 < n) :
    (Numeral.decimal (n * 10 ^ k)).length = (Numeral.decimal n).length + k := by
  induction k with
  | zero => rw [Nat.pow_zero, Nat.mul_one, Nat.add_zero]
  | succ k ih =>
    have hpos : 0 < n * 10 ^ k := Nat.mul_pos hn (Nat.pow_pos (by decide))
    have happend := Nat.toDigits_append_toDigits (b := 10) (d := 0) (by decide) hpos (by decide)
    have hmul : n * 10 ^ (k + 1) = 10 * (n * 10 ^ k) + 0 := by
      rw [Nat.pow_succ]
      ring
    rw [hmul, Numeral.decimal, ← happend, List.length_append, ← Numeral.decimal, ih]
    rfl

/-- **Zeros may be moved from the exponent to the digits.** -/
theorem nearestDecimal_shift {digits : Nat} (hdigits : 0 < digits) (k : Nat) (exponent : Int) :
    nearestDecimal (digits * 10 ^ k) (exponent - k) = nearestDecimal digits exponent := by
  have hpow : ∀ n : Nat, 0 < 10 ^ n := fun n => Nat.pow_pos (by decide)
  have hpoint : ((Numeral.decimal (digits * 10 ^ k)).length : Int) + (exponent - k)
      = (Numeral.decimal digits).length + exponent := by
    rw [length_decimal_mul_pow digits k hdigits]
    omega
  have hzero : digits * 10 ^ k ≠ 0 := Nat.mul_ne_zero (Nat.ne_of_gt hdigits) (Nat.ne_of_gt (hpow k))
  unfold nearestDecimal
  simp only [hpoint, hzero, Nat.ne_of_gt hdigits, false_or]
  split
  · rfl
  split
  · rfl
  by_cases hle : (k : Int) ≤ exponent
  -- Both exponents are those of integers.
  · obtain ⟨j, rfl⟩ := Int.eq_ofNat_of_zero_le (Int.le_trans (Int.natCast_nonneg k) hle)
    obtain ⟨i, rfl⟩ := Nat.exists_eq_add_of_le (Int.ofNat_le.mp hle)
    have hsub : ((k + i : Nat) : Int) - k = (i : Nat) := by omega
    rw [hsub, if_pos (Int.natCast_nonneg _), if_pos (Int.natCast_nonneg _)]
    simp only [Int.toNat_natCast, Nat.pow_eq]
    rw [Nat.mul_assoc, ← Nat.pow_add]
  · rw [if_neg (by omega)]
    by_cases hnonneg : 0 ≤ exponent
    -- The zeros make a fraction of an integer.
    · obtain ⟨j, rfl⟩ := Int.eq_ofNat_of_zero_le hnonneg
      obtain ⟨i, rfl⟩ := Nat.exists_eq_add_of_le (Nat.le_of_lt (Int.ofNat_lt.mp (Int.not_le.mp hle)))
      have hneg : -((j : Int) - (j + i : Nat)) = (i : Nat) := by omega
      rw [hneg, if_pos hnonneg]
      simp only [Int.toNat_natCast, Nat.pow_eq]
      rw [← nearest_mul (digits * 10 ^ j) 1 (hpow i), Nat.one_mul, Nat.mul_assoc, ← Nat.pow_add]
    -- Both are fractions.
    · obtain ⟨j, hj⟩ := Int.eq_ofNat_of_zero_le (a := -exponent) (by omega)
      have hneg : -(exponent - k) = ((j + k : Nat) : Int) := by omega
      rw [hneg, hj, if_neg hnonneg]
      simp only [Int.toNat_natCast, Nat.pow_eq]
      rw [Nat.pow_add, nearest_mul digits _ (hpow k)]

/-! ## The text of a decimal -/

theorem value?_of_isDigit {digits : List Char} (hne : digits ≠ [])
    (h : ∀ c ∈ digits, c.isDigit) :
    Numeral.value? 10 digits = some (Nat.ofDigitChars 10 digits 0) := by
  rw [Numeral.value?, if_neg (by simpa using hne), Numeral.valueFrom?_of_isDigit digits h]

/-- The sign of a number as it is written. -/
def signText (negative : Bool) : List Char :=
  if negative then ['-'] else []

/-- The sign in front of a number, and the text behind it. -/
def splitSign : List Char → Bool × List Char
  | '-' :: text => (true, text)
  | '+' :: text => (false, text)
  | text => (false, text)

/-- The digits behind a point, and the text behind them. -/
def splitFraction : List Char → List Char × List Char
  | '.' :: text => (text.takeWhile Char.isDigit, text.dropWhile Char.isDigit)
  | text => ([], text)

theorem read?_eq (text : List Char) : read? text =
    let signed := splitSign text
    let parts := splitFraction (signed.2.dropWhile Char.isDigit)
    match Numeral.value? 10 (signed.2.takeWhile Char.isDigit ++ parts.1), exponent? parts.2 with
    | some digits, some exponent =>
      some (ofMagnitude signed.1 (nearestDecimal digits (exponent - parts.1.length)))
    | _, _ => none :=
  rfl

theorem splitSign_signText (negative : Bool) {c : Char} (hc : c.isDigit) (text : List Char) :
    splitSign (signText negative ++ c :: text) = (negative, c :: text) := by
  cases negative with
  | true => rfl
  | false =>
    simp only [signText, Bool.false_eq_true, if_false, List.nil_append]
    unfold splitSign
    split
    · rename_i heq
      cases heq
      cases hc
    · rename_i heq
      cases heq
      cases hc
    · rfl

/-- The parts of a number without its sign. -/
structure Parts where
  whole : List Char
  fraction : List Char
  exponent : Option Int

namespace Parts

/-- The exponent behind its letter, if there is one. -/
def tail (p : Parts) : List Char :=
  match p.exponent with
  | some e => 'e' :: Numeral.signedDecimal e
  | none => []

/-- The text of the parts, with a point if a digit is behind it. -/
def text (p : Parts) : List Char :=
  p.whole ++ ((if p.fraction.isEmpty then [] else '.' :: p.fraction) ++ p.tail)

/-- The magnitude that the parts are rounded to. -/
def nearest (p : Parts) : Nat :=
  nearestDecimal (Nat.ofDigitChars 10 (p.whole ++ p.fraction) 0)
    (p.exponent.getD 0 - p.fraction.length)

/-- There is a digit in front, and the text does not look like that of an integer. -/
structure Valid (p : Parts) : Prop where
  whole : p.whole ≠ []
  isDigit : ∀ c ∈ p.whole ++ p.fraction, c.isDigit
  marked : p.fraction ≠ [] ∨ p.exponent.isSome

end Parts

theorem Parts.exponent?_tail (p : Parts) : exponent? p.tail = some (p.exponent.getD 0) := by
  unfold tail
  cases p.exponent with
  | none => rfl
  | some e =>
    rw [exponent?, if_pos (.inl rfl), Numeral.integer?_signedDecimal]
    rfl

theorem Parts.head?_tail (p : Parts) {c : Char} (h : p.tail.head? = some c) : c = 'e' := by
  unfold tail at h
  split at h
  · exact (Option.some.inj h).symm
  · cases h

/-- **Parts are read as they are rounded.** -/
theorem read?_parts (negative : Bool) {p : Parts} (hp : p.Valid) :
    read? (signText negative ++ p.text) = some (ofMagnitude negative p.nearest) := by
  have hwhole : ∀ c ∈ p.whole, c.isDigit := fun c hc =>
    hp.isDigit c (List.mem_append_left _ hc)
  have hfraction : ∀ c ∈ p.fraction, c.isDigit := fun c hc =>
    hp.isDigit c (List.mem_append_right _ hc)
  have htail : ∀ c, p.tail.head? = some c → c.isDigit = false := by
    intro c hc
    rw [p.head?_tail hc]
    rfl
  have hbehind : ∀ c, ((if p.fraction.isEmpty then [] else '.' :: p.fraction) ++ p.tail).head?
      = some c → c.isDigit = false := by
    intro c hc
    split at hc
    · exact htail c hc
    · cases hc
      rfl
  have hsign : splitSign (signText negative ++ p.text) = (negative, p.text) := by
    obtain ⟨first, others, hfirst⟩ := List.exists_cons_of_ne_nil hp.whole
    rw [Parts.text, hfirst]
    exact splitSign_signText negative (hwhole first (hfirst ▸ List.mem_cons_self)) _
  have hparts : splitFraction ((if p.fraction.isEmpty then [] else '.' :: p.fraction) ++ p.tail)
      = (p.fraction, p.tail) := by
    split
    · rename_i hempty
      rw [List.isEmpty_iff.mp hempty, List.nil_append]
      cases htext : p.tail with
      | nil => rfl
      | cons c others =>
        obtain rfl : c = 'e' := p.head?_tail (by rw [htext]; rfl)
        rfl
    · simp only [List.cons_append, splitFraction, takeWhile_append hfraction htail,
        dropWhile_append hfraction htail]
  have hdigits : Numeral.value? 10 (p.whole ++ p.fraction)
      = some (Nat.ofDigitChars 10 (p.whole ++ p.fraction) 0) :=
    value?_of_isDigit (by simp [hp.whole]) hp.isDigit
  rw [read?_eq, hsign]
  simp only [Parts.text, takeWhile_append hwhole hbehind, dropWhile_append hwhole hbehind, hparts,
    hdigits, p.exponent?_tail]
  rfl

/-- Without its zeros at the end, a run of digits is what it was, up to a power of ten. -/
theorem exists_withoutTrailingZeros (digits : List Char) :
    ∃ k, digits = withoutTrailingZeros digits ++ List.replicate k '0' := by
  refine ⟨(digits.reverse.takeWhile (· = '0')).length, ?_⟩
  have hzeros : digits.reverse.takeWhile (· = '0')
      = List.replicate (digits.reverse.takeWhile (· = '0')).length '0' := by
    refine List.eq_replicate_iff.mpr ⟨rfl, fun c hc => ?_⟩
    simpa using List.mem_takeWhile_imp hc
  have hsplit := List.takeWhile_append_dropWhile (p := (· = '0')) (l := digits.reverse)
  calc digits = digits.reverse.reverse := (List.reverse_reverse _).symm
    _ = (digits.reverse.takeWhile (· = '0') ++ digits.reverse.dropWhile (· = '0')).reverse := by
        rw [hsplit]
    _ = withoutTrailingZeros digits ++ (digits.reverse.takeWhile (· = '0')).reverse :=
        List.reverse_append
    _ = _ := by
        conv_lhs => rw [hzeros]
        rw [List.reverse_replicate]

/-- The parts show the decimal. -/
def Decimal.ShownBy (d : Decimal) (p : Parts) : Prop :=
  p.Valid ∧ p.nearest = nearestDecimal d.digits d.exponent

/-- The decimal has these digits, and so many zeros behind them. -/
structure Decimal.HasDigits (d : Decimal) (digits : List Char) (zeros : Nat) : Prop where
  pos : 0 < d.digits
  eq : Numeral.decimal d.digits = digits ++ List.replicate zeros '0'

theorem isDigit_of_mem_replicate {n : Nat} {c : Char} (h : c ∈ List.replicate n '0') :
    c.isDigit := by
  rw [List.eq_of_mem_replicate h]
  rfl

namespace Decimal.HasDigits

variable {d : Decimal} {digits : List Char} {zeros : Nat}

theorem isDigit (h : d.HasDigits digits zeros) {c : Char} (hc : c ∈ digits) : c.isDigit :=
  Numeral.isDigit_of_mem_decimal (n := d.digits) (h.eq ▸ List.mem_append_left _ hc)

theorem value (h : d.HasDigits digits zeros) :
    Nat.ofDigitChars 10 digits 0 * 10 ^ zeros = d.digits := by
  rw [← Nat.ofDigitChars_toDigits (b := 10) (n := d.digits) (by decide) (by decide),
    ← Numeral.decimal, h.eq, Nat.ofDigitChars_append, Nat.ofDigitChars_replicate_zero, Nat.mul_comm]

theorem value_pos (h : d.HasDigits digits zeros) : 0 < Nat.ofDigitChars 10 digits 0 := by
  refine Nat.pos_of_ne_zero fun hzero => ?_
  have hvalue := h.value
  rw [hzero, Nat.zero_mul] at hvalue
  exact Nat.ne_of_lt h.pos hvalue

theorem ne_nil (h : d.HasDigits digits zeros) : digits ≠ [] := by
  rintro rfl
  exact Nat.lt_irrefl _ h.value_pos

theorem length (h : d.HasDigits digits zeros) :
    (Numeral.decimal d.digits).length = digits.length + zeros := by
  rw [h.eq, List.length_append, List.length_replicate]

/-- What has the digits without the zeros, but for a power of ten, is rounded alike. -/
theorem nearest_eq (h : d.HasDigits digits zeros) {p : Parts} (i : Nat)
    (hvalue : Nat.ofDigitChars 10 (p.whole ++ p.fraction) 0 = Nat.ofDigitChars 10 digits 0 * 10 ^ i)
    (hexponent : p.exponent.getD 0 - p.fraction.length = zeros + d.exponent - i) :
    p.nearest = nearestDecimal d.digits d.exponent := by
  have hshift : d.exponent = (zeros + d.exponent) - zeros := by omega
  rw [Parts.nearest, hvalue, hexponent, nearestDecimal_shift h.value_pos, ← h.value]
  conv_rhs => rw [hshift]
  rw [nearestDecimal_shift h.value_pos]

/-- All digits are behind the point. -/
theorem shownBy_fraction (h : d.HasDigits digits zeros) {i : Nat}
    (hi : (digits.length + zeros : Int) + d.exponent = -i) :
    d.ShownBy ⟨['0'], List.replicate i '0' ++ digits, none⟩ := by
  refine ⟨⟨by simp, fun c hc => ?_, .inl (by simp [h.ne_nil])⟩, h.nearest_eq 0 ?_ ?_⟩
  · simp only [List.cons_append, List.nil_append, List.mem_cons, List.mem_append] at hc
    rcases hc with rfl | hc | hc
    · rfl
    · exact isDigit_of_mem_replicate hc
    · exact h.isDigit hc
  · simp [Nat.ofDigitChars_append, Nat.ofDigitChars_cons, Nat.ofDigitChars_replicate_zero]
  · simp only [Option.getD_none, List.length_append, List.length_replicate]
    omega

/-- All digits are before the point, with zeros behind them. -/
theorem shownBy_whole (h : d.HasDigits digits zeros) {i : Nat}
    (hi : (digits.length + zeros : Int) + d.exponent = digits.length + i) :
    d.ShownBy ⟨digits ++ List.replicate i '0', ['0'], none⟩ := by
  refine ⟨⟨by simp [h.ne_nil], fun c hc => ?_, .inl (by simp)⟩, h.nearest_eq (i + 1) ?_ ?_⟩
  · simp only [List.append_assoc, List.mem_append, List.mem_singleton] at hc
    rcases hc with hc | hc | rfl
    · exact h.isDigit hc
    · exact isDigit_of_mem_replicate hc
    · rfl
  · rw [Nat.ofDigitChars_append, Nat.ofDigitChars_append, Nat.ofDigitChars_replicate_zero,
      Nat.pow_succ]
    simp only [Nat.ofDigitChars_cons, Nat.ofDigitChars_nil, Nat.sub_self, Nat.add_zero]
    ring
  · simp only [Option.getD_none, List.length_singleton]
    omega

/-- The digits are cut behind the first `i` of them. -/
theorem shownBy_cut (h : d.HasDigits digits zeros) {i : Nat} (hpos : 0 < i) (hle : i ≤ digits.length)
    {e : Option Int} (hmarked : i < digits.length ∨ e.isSome)
    (hi : (digits.length + zeros : Int) + d.exponent = e.getD 0 + i) :
    d.ShownBy ⟨digits.take i, digits.drop i, e⟩ := by
  refine ⟨⟨?_, fun c hc => h.isDigit (List.take_append_drop i digits ▸ hc), ?_⟩,
    h.nearest_eq 0 ?_ ?_⟩
  · simp [h.ne_nil, Nat.ne_of_gt hpos]
  · exact hmarked.imp_left fun hlt => by simpa using hlt
  · rw [List.take_append_drop, Nat.pow_zero, Nat.mul_one]
  · simp only [List.length_drop]
    omega

end Decimal.HasDigits

/-- **The text of a decimal shows it.** -/
theorem exists_parts_decimal {d : Decimal} (hd : 0 < d.digits) :
    ∃ p, d.ShownBy p ∧ d.text = p.text := by
  obtain ⟨zeros, heq⟩ := exists_withoutTrailingZeros (Numeral.decimal d.digits)
  generalize hs : withoutTrailingZeros (Numeral.decimal d.digits) = s at heq
  have h : d.HasDigits s zeros := ⟨hd, heq⟩
  have hlength : ((Numeral.decimal d.digits).length : Int) = s.length + zeros := by
    rw [h.length]
    omega
  have hone : 1 ≤ s.length := List.length_pos_iff.mpr h.ne_nil
  unfold Decimal.text
  simp only [hs, hlength]
  generalize hp : (s.length : Int) + zeros + d.exponent = point
  split
  · split
    · obtain ⟨i, hi⟩ := Int.eq_ofNat_of_zero_le (a := -point) (by omega)
      refine ⟨_, h.shownBy_fraction (i := i) (by omega), ?_⟩
      simp [Parts.text, Parts.tail, hi, h.ne_nil]
    · obtain ⟨i, hi⟩ := Int.eq_ofNat_of_zero_le (a := point) (by omega)
      simp only [hi, Int.toNat_natCast]
      by_cases hshort : s.length ≤ i
      · obtain ⟨j, rfl⟩ := Nat.exists_eq_add_of_le hshort
        have hj : ((s.length + j : Nat) - s.length : Int).toNat = j := by omega
        refine ⟨_, h.shownBy_whole (i := j) (by omega), ?_⟩
        rw [List.take_of_length_le hshort, List.drop_of_length_le hshort, hj]
        simp [Parts.text, Parts.tail]
      · have hj : ((i : Int) - s.length).toNat = 0 := by omega
        have hdrop : (s.drop i).isEmpty = false := by
          simpa using hshort
        refine ⟨_, h.shownBy_cut (i := i) (e := none) (by omega) (by omega)
          (.inl (by omega)) (by simp only [Option.getD_none]; omega), ?_⟩
        rw [hj, hdrop]
        simp [Parts.text, Parts.tail, hdrop]
  · refine ⟨_, h.shownBy_cut (e := some (point - 1)) Nat.one_pos hone (.inr rfl)
      (by simp only [Option.getD_some]; omega), ?_⟩
    simp [Parts.text, Parts.tail]

/-! ## The digits of a number -/

theorem units_of_lt {magnitude : Nat} (h : magnitude < 0x800000) : units magnitude = magnitude := by
  unfold units
  rw [Nat.div_eq_of_lt h, Nat.mod_eq_of_lt h]
  rfl

theorem units_add (exponent : Nat) {fraction : Nat} (h : fraction < 0x800000) :
    units (0x800000 * (exponent + 1) + fraction) = (0x800000 + fraction) * 2 ^ exponent := by
  unfold units
  rw [Nat.mul_add_mod, Nat.mul_add_div (by decide), Nat.div_eq_of_lt h, Nat.mod_eq_of_lt h]
  rfl

theorem roundHalfEven_one (n : Nat) : roundHalfEven n 1 = n := by
  unfold roundHalfEven
  rw [Nat.mod_one, Nat.div_one]
  rfl

/-- The units of a magnitude are rounded to the magnitude. -/
theorem round_units {magnitude : Nat} (hpos : 0 < magnitude) :
    ((units magnitude).log2 - 23) * 0x800000
      + roundHalfEven (units magnitude) (2 ^ ((units magnitude).log2 - 23)) = magnitude := by
  by_cases hlt : magnitude < 0x800000
  · have hlog : magnitude.log2 < 23 := (Nat.log2_lt (Nat.ne_of_gt hpos)).mpr hlt
    rw [units_of_lt hlt, Nat.sub_eq_zero_of_le (Nat.le_of_lt hlog), Nat.pow_zero,
      roundHalfEven_one]
    omega
  · obtain ⟨exponent, fraction, hfraction, rfl⟩ : ∃ exponent fraction, fraction < 0x800000 ∧
        magnitude = 0x800000 * (exponent + 1) + fraction :=
      ⟨magnitude / 0x800000 - 1, magnitude % 0x800000, Nat.mod_lt _ (by decide), by omega⟩
    have hlog : ((0x800000 + fraction) * 2 ^ exponent).log2 = 23 + exponent := by
      rw [Nat.log2_eq_iff (Nat.mul_ne_zero (by omega) (Nat.ne_of_gt (Nat.two_pow_pos _))),
        Nat.pow_add, Nat.add_right_comm, Nat.pow_add]
      exact ⟨Nat.mul_le_mul_right _ (by omega),
        (Nat.mul_lt_mul_right (Nat.two_pow_pos _)).mpr (by omega)⟩
    rw [units_add exponent hfraction, hlog, Nat.add_sub_cancel_left]
    have hround := roundHalfEven_mul (0x800000 + fraction) 1 (Nat.two_pow_pos exponent)
    rw [Nat.one_mul, roundHalfEven_one] at hround
    rw [hround]
    ring

theorem units_pos {magnitude : Nat} (hpos : 0 < magnitude) : 0 < units magnitude := by
  refine Nat.pos_of_ne_zero fun hzero => ?_
  have := round_units hpos
  rw [hzero] at this
  exact absurd this (Nat.ne_of_lt hpos)

theorem units_lt {magnitude : Nat} (h : magnitude < infinity) : units magnitude < 2 ^ 24 * 2 ^ 253 := by
  by_cases hlt : magnitude < 0x800000
  · rw [units_of_lt hlt]
    exact Nat.lt_trans hlt (by decide)
  · have hexponent : magnitude / 0x800000 - 1 ≤ 253 := by
      unfold infinity at h
      omega
    obtain ⟨exponent, fraction, hfraction, rfl⟩ : ∃ exponent fraction, fraction < 0x800000 ∧
        magnitude = 0x800000 * (exponent + 1) + fraction :=
      ⟨magnitude / 0x800000 - 1, magnitude % 0x800000, Nat.mod_lt _ (by decide), by omega⟩
    have hle : exponent ≤ 253 := by omega
    rw [units_add exponent hfraction]
    calc (0x800000 + fraction) * 2 ^ exponent < 2 ^ 24 * 2 ^ exponent :=
          (Nat.mul_lt_mul_right (Nat.two_pow_pos _)).mpr (by omega)
      _ ≤ 2 ^ 24 * 2 ^ 253 := Nat.mul_le_mul_left _ (Nat.pow_le_pow_right (by decide) hle)

/-- The exact decimal is rounded to the number it equals. -/
theorem nearestDecimal_exact {magnitude : Nat} (hpos : 0 < magnitude) (h : magnitude < infinity) :
    nearestDecimal (exact magnitude).digits (exact magnitude).exponent = magnitude := by
  have hunits := units_pos hpos
  have hdigits : 0 < units magnitude * 5 ^ 149 := Nat.mul_pos hunits (by decide)
  have hlong : ¬ (Numeral.decimal (units magnitude * 5 ^ 149)).length ≤ 98 := by
    rw [Numeral.decimal, Nat.length_toDigits_le_iff (by decide) (by decide), Nat.not_lt]
    exact Nat.le_trans (by decide : 10 ^ 98 ≤ 1 * 5 ^ 149) (Nat.mul_le_mul_right _ hunits)
  have hshort : (Numeral.decimal (units magnitude * 5 ^ 149)).length ≤ 189 := by
    rw [Numeral.decimal, Nat.length_toDigits_le_iff (by decide) (by decide)]
    exact Nat.lt_of_lt_of_le ((Nat.mul_lt_mul_right (by decide)).mpr (units_lt h))
      (by decide : 2 ^ 24 * 2 ^ 253 * 5 ^ 149 ≤ 10 ^ 189)
  have hscale : units magnitude * 5 ^ 149 * unitsInOne = units magnitude * 10 ^ 149 := by
    rw [unitsInOne, Nat.mul_assoc]
    exact congrArg _ (by decide)
  unfold nearestDecimal exact
  simp only [Nat.pow_eq]
  rw [if_neg (by omega), if_neg (by omega), if_neg (by decide)]
  unfold nearest
  simp only [Int.neg_neg, Nat.pow_eq]
  rw [show Int.toNat 149 = 149 from rfl, hscale, Nat.mul_div_cancel _ (by decide),
    Nat.mul_comm (10 ^ 149), roundHalfEven_mul _ _ (by decide), round_units hpos]
  exact Nat.min_eq_right (Nat.le_of_lt h)

/-- **The digits of a finite number are read as the number.** -/
theorem readsAs_shortest {magnitude : Nat} (hpos : 0 < magnitude) (h : magnitude < infinity) :
    (shortest magnitude).readsAs magnitude := by
  have hexact : (exact magnitude).readsAs magnitude := decide_eq_true (nearestDecimal_exact hpos h)
  have hfound : ∀ candidates : List Decimal,
      ((candidates.find? (·.readsAs magnitude)).getD (exact magnitude)).readsAs magnitude := by
    intro candidates
    cases hfind : candidates.find? (·.readsAs magnitude) with
    | none => exact hexact
    | some d => exact List.find?_some (p := fun d : Decimal => d.readsAs magnitude) hfind
  exact hfound _

/-! ## Numbers -/

theorem ofMagnitude_magnitude (x : Single) : ofMagnitude x.isNegative x.magnitude = x := by
  obtain ⟨bits⟩ := x
  have hlt : bits.toNat < 4294967296 := bits.toNat_lt
  have hsum : (⟨bits⟩ : Single).magnitude + (if (⟨bits⟩ : Single).isNegative then 0x80000000 else 0)
      = bits.toNat := by
    simp only [magnitude, isNegative, decide_eq_true_eq]
    split <;> omega
  rw [ofMagnitude, hsum, UInt32.ofNat_toNat]

/-- **The text of a finite number shows its magnitude.** -/
theorem exists_parts {x : Single} (h : x.magnitude < infinity) :
    ∃ p : Parts, p.Valid ∧ p.nearest = x.magnitude ∧ x.text = signText x.isNegative ++ p.text := by
  unfold text
  rw [if_neg (Nat.lt_asymm h), if_neg (Nat.ne_of_lt h)]
  by_cases hzero : x.magnitude = 0
  · rw [if_pos hzero]
    refine ⟨⟨['0'], ['0'], none⟩, ⟨by simp, by simp, .inl (by simp)⟩, ?_, rfl⟩
    rw [hzero]
    rfl
  · rw [if_neg hzero]
    have hreads := of_decide_eq_true (readsAs_shortest (Nat.pos_of_ne_zero hzero) h)
    have hdigits : 0 < (shortest x.magnitude).digits := by
      refine Nat.pos_of_ne_zero fun hdigits => hzero ?_
      rw [← hreads, hdigits]
      rfl
    obtain ⟨p, hp, htext⟩ := exists_parts_decimal hdigits
    exact ⟨p, hp.1, hp.2.trans hreads, by rw [htext]; rfl⟩

/-- **A finite number is read as it was written.** -/
theorem read?_text {x : Single} (h : x.magnitude < infinity) : read? x.text = some x := by
  obtain ⟨p, hp, hnearest, htext⟩ := exists_parts h
  rw [htext, read?_parts _ hp, hnearest, ofMagnitude_magnitude]

end Single

end ResourceBinding
