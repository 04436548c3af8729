import ResourceBinding.Proofs.Number.Single
import ResourceBinding.Proofs.Reading.Tokens

/-!
# Reading a token from its text

A token is `Readable` if its text has a form that the token is read from: words and names of the
characters they may have, integers of 64 bits, finite numbers. Such a token is scanned from its text
(`Token.Readable.scannedFrom`), where what follows does not go on with it (`Stops`); punctuation and
arrows end in themselves.
-/

namespace ResourceBinding

open Text

/-! ## Characters -/

theorem isBlank_of_ascii {c : Char} (h : 0x20 < c.toNat) (h' : c.toNat < 0x80) :
    isBlank c = false := by
  simp only [isBlank, blankRanges, List.any_cons, List.any_nil, Bool.or_eq_false_iff,
    Bool.and_eq_false_iff, decide_eq_false_iff_not]
  refine ⟨?_, ?_, ?_, ?_, ?_, ?_, ?_, ?_, ?_, ?_, trivial⟩ <;> omega

theorem toNat_of_isAlpha {c : Char} (h : c.isAlpha) : 65 ≤ c.toNat ∧ c.toNat ≤ 122 := by
  have hranges : (decide (c.val ≥ 65 ∧ c.val ≤ 90) ||
      decide (c.val ≥ 97) && decide (c.val ≤ 122)) = true := h
  simp only [Bool.or_eq_true, Bool.and_eq_true, decide_eq_true_eq, UInt32.le_iff_toNat_le,
    ge_iff_le] at hranges
  have hbounds : (65 ≤ c.toNat ∧ c.toNat ≤ 90) ∨ (97 ≤ c.toNat ∧ c.toNat ≤ 122) := hranges
  omega

theorem toNat_of_isDigit {c : Char} (h : c.isDigit) : 48 ≤ c.toNat ∧ c.toNat ≤ 57 := by
  simp only [Char.isDigit, Bool.and_eq_true, decide_eq_true_eq, UInt32.le_iff_toNat_le,
    ge_iff_le] at h
  exact h

theorem isNumberChar_of_isDigit {c : Char} (h : c.isDigit) : isNumberChar c := by
  simp [isNumberChar, Char.isAlphanum, h]

theorem isBlank_of_isDigit {c : Char} (h : c.isDigit) : isBlank c = false := by
  obtain ⟨hlo, hhi⟩ := toNat_of_isDigit h
  exact isBlank_of_ascii (by omega) (by omega)

/-- Whether a character can start a word. -/
def isWordStart (c : Char) : Bool :=
  c.isAlpha || c == '_'

theorem isDigit_of_isWordStart {c : Char} (h : isWordStart c) : c.isDigit = false := by
  refine Bool.eq_false_iff.mpr fun hdigit => ?_
  obtain ⟨-, hhi⟩ := toNat_of_isDigit hdigit
  rcases (Bool.or_eq_true _ _).mp h with hc | hc
  · have hlo := (toNat_of_isAlpha hc).1
    omega
  · rw [eq_of_beq hc] at hhi
    exact absurd hhi (by decide)

theorem isBlank_of_isWordStart {c : Char} (h : isWordStart c) : isBlank c = false := by
  rcases (Bool.or_eq_true _ _).mp h with hc | hc
  · obtain ⟨hlo, hhi⟩ := toNat_of_isAlpha hc
    exact isBlank_of_ascii (by omega) (by omega)
  · rw [eq_of_beq hc]
    rfl

/-- The text does not go on with a character that names or numbers may have. -/
def Stops (rest : List Char) : Prop :=
  ∀ c, rest.head? = some c → isNameChar c = false ∧ isNumberChar c = false

/-! ## Numbers -/

/-- The text goes on as a number that starts with a digit. -/
def IsUnsigned (text : List Char) : Prop :=
  ∃ c others, text = c :: others ∧ c.isDigit ∧ ∀ d ∈ others, isNumberChar d

/-- The characters are those of decimal numbers. -/
def IsPlain (text : List Char) : Prop :=
  ∀ c ∈ text, c.isDigit ∨ c = '.' ∨ c = 'e' ∨ c = '-'

theorem IsPlain.isNumberChar {text : List Char} (h : IsPlain text) {c : Char} (hc : c ∈ text) :
    isNumberChar c := by
  rcases h c hc with hdigit | rfl | rfl | rfl
  · exact isNumberChar_of_isDigit hdigit
  all_goals rfl

theorem IsPlain.append {text others : List Char} (h : IsPlain text) (h' : IsPlain others) :
    IsPlain (text ++ others) := fun c hc =>
  (List.mem_append.mp hc).elim (h c) (h' c)

theorem isPlain_signText (negative : Bool) : IsPlain (Single.signText negative) := by
  intro c hc
  cases negative with
  | false => cases hc
  | true => exact .inr (.inr (.inr (List.mem_singleton.mp hc)))

theorem isPlain_decimal (n : Nat) : IsPlain (Numeral.decimal n) :=
  fun _ hc => .inl (Numeral.isDigit_of_mem_decimal hc)

theorem isUnsigned_decimal_append (n : Nat) {text : List Char} (h : ∀ c ∈ text, isNumberChar c) :
    IsUnsigned (Numeral.decimal n ++ text) := by
  obtain ⟨c, others, hdecimal⟩ := List.exists_cons_of_ne_nil (Numeral.decimal_ne_nil n)
  refine ⟨c, others ++ text, by rw [hdecimal, List.cons_append],
    Numeral.isDigit_of_mem_decimal (n := n) (hdecimal ▸ List.mem_cons_self), fun d hd => ?_⟩
  rcases List.mem_append.mp hd with hd | hd
  · exact (isPlain_decimal n).isNumberChar (hdecimal ▸ List.mem_cons_of_mem _ hd)
  · exact h d hd

theorem signedDecimal_eq (n : Int) :
    Numeral.signedDecimal n = Single.signText (n < 0) ++ Numeral.decimal n.natAbs := by
  cases n with
  | ofNat n => rfl
  | negSucc n =>
    rw [decide_eq_true (Int.negSucc_lt_zero n)]
    rfl

theorem isPlain_signedDecimal (n : Int) : IsPlain (Numeral.signedDecimal n) := by
  rw [signedDecimal_eq]
  exact (isPlain_signText _).append (isPlain_decimal _)

theorem isPlain_parts {p : Single.Parts} (hp : p.Valid) : IsPlain p.text := by
  have hfraction : IsPlain (if p.fraction.isEmpty then [] else '.' :: p.fraction) := by
    intro c hc
    split at hc
    · cases hc
    · rcases List.mem_cons.mp hc with rfl | hc
      · exact .inr (.inl rfl)
      · exact .inl (hp.isDigit c (List.mem_append_right _ hc))
  have htail : IsPlain p.tail := by
    intro c hc
    unfold Single.Parts.tail at hc
    split at hc
    · rcases List.mem_cons.mp hc with rfl | hc
      · exact .inr (.inr (.inl rfl))
      · exact isPlain_signedDecimal _ c hc
    · cases hc
  exact IsPlain.append (fun c hc => .inl (hp.isDigit c (List.mem_append_left _ hc)))
    (hfraction.append htail)

theorem isUnsigned_parts {p : Single.Parts} (hp : p.Valid) : IsUnsigned p.text := by
  obtain ⟨c, others, hwhole⟩ := List.exists_cons_of_ne_nil hp.whole
  have htext : ∃ others, p.text = c :: others := by
    rw [Single.Parts.text, hwhole]
    exact ⟨_, rfl⟩
  obtain ⟨behind, htext⟩ := htext
  refine ⟨c, behind, htext, hp.isDigit c ?_, fun d hd => ?_⟩
  · rw [hwhole]
    exact List.mem_cons_self
  · exact (isPlain_parts hp).isNumberChar (htext ▸ List.mem_cons_of_mem _ hd)

/-- Text that shows a fraction or an exponent is no integer. -/
theorem marked_parts {p : Single.Parts} (hp : p.Valid) :
    p.text.any fun c => c == '.' || c == 'e' || c == 'E' := by
  rw [List.any_eq_true]
  rcases hp.marked with hfraction | hexponent
  · refine ⟨'.', ?_, rfl⟩
    simp [Single.Parts.text, hfraction]
  · obtain ⟨e, he⟩ := Option.isSome_iff_exists.mp hexponent
    refine ⟨'e', ?_, rfl⟩
    simp [Single.Parts.text, Single.Parts.tail, he]

/-- What the characters of a decimal number spell. -/
theorem numberToken?_of_isPlain {text : List Char} (h : IsPlain text) :
    numberToken? text
      = if text.any fun c => c == '.' || c == 'e' || c == 'E' then (Single.read? text).map .float
        else (Numeral.signed? 10 (UInt64.size / 2) text).map .int := by
  have hlast : text.getLast? ≠ some 'u' := by
    intro hu
    have := h 'u' (List.mem_of_getLast? hu)
    exact absurd this (by decide)
  have hx : ∀ digits, text ≠ '0' :: 'x' :: digits := by
    rintro digits rfl
    have := h 'x' (List.mem_cons_of_mem _ List.mem_cons_self)
    exact absurd this (by decide)
  unfold numberToken?
  rw [if_neg hlast]
  split
  · exact absurd rfl (hx _)
  · rfl

theorem numberToken?_int {n : Int} (h : -0x8000000000000000 ≤ n ∧ n < 0x8000000000000000) :
    numberToken? (Numeral.signedDecimal n) = some (.int n) := by
  have hany : ((Numeral.signedDecimal n).any fun c => c == '.' || c == 'e' || c == 'E') = false := by
    rw [signedDecimal_eq, List.any_append, Bool.or_eq_false_iff]
    refine ⟨?_, List.any_eq_false.mpr fun c hc => ?_⟩
    · cases decide (n < 0) <;> rfl
    · have hdigit := Numeral.isDigit_of_mem_decimal hc
      intro hc
      simp only [Bool.or_eq_true, beq_iff_eq] at hc
      rcases hc with (rfl | rfl) | rfl <;> exact absurd hdigit (by decide)
  have hsize : UInt64.size / 2 = 0x8000000000000000 := by decide
  rw [numberToken?_of_isPlain (isPlain_signedDecimal n), hany, if_neg Bool.false_ne_true,
    Numeral.signed?, Numeral.integer?_signedDecimal, hsize, Option.filter_some, if_pos, Option.map_some]
  simpa using h

theorem numberToken?_uint {n : Nat} (h : n < UInt64.size) :
    numberToken? (Numeral.decimal n ++ ['u']) = some (.uint n) := by
  have hplain := isPlain_decimal n
  obtain ⟨c, others, hdecimal⟩ := List.exists_cons_of_ne_nil (Numeral.decimal_ne_nil n)
  have hread : Numeral.unsigned? 10 UInt64.size (Numeral.decimal n) = some n := by
    have hsign : c ≠ '+' := by
      rintro rfl
      exact absurd (hplain '+' (hdecimal ▸ List.mem_cons_self)) (by decide)
    unfold Numeral.unsigned?
    rw [hdecimal]
    split
    · rename_i heq
      cases heq
      exact absurd rfl hsign
    · dsimp only
      rw [← hdecimal, Numeral.value?_decimal, Option.filter_some, if_pos (by simpa using h)]
  unfold numberToken?
  rw [if_pos (by simp), List.dropLast_concat]
  split
  · rename_i heq
    exact absurd (hplain 'x' (heq ▸ List.mem_cons_of_mem _ List.mem_cons_self)) (by decide)
  · rw [hread, Option.map_some]

theorem numberToken?_float {x : Single} (h : x.magnitude < Single.infinity) :
    numberToken? x.text = some (.float x) := by
  obtain ⟨p, hp, -, htext⟩ := Single.exists_parts h
  have hplain : IsPlain x.text := by
    rw [htext]
    exact (isPlain_signText _).append (isPlain_parts hp)
  have hany : (x.text.any fun c => c == '.' || c == 'e' || c == 'E') = true := by
    rw [htext, List.any_append, marked_parts hp, Bool.or_true]
  rw [numberToken?_of_isPlain hplain, hany, if_pos rfl, Single.read?_text h, Option.map_some]

/-! ## Tokens -/

/-- Whether the characters are those of a bare word. -/
def isWord : List Char → Bool
  | [] => false
  | c :: others => isWordStart c && others.all isNameChar

/-- The token is read as itself where it is written out. -/
def Token.Readable : Token → Prop
  | word text => isWord text.toList
  | valueName name | functionName name => IsName name
  | int n => -0x8000000000000000 ≤ n ∧ n < 0x8000000000000000
  | uint n => n < UInt64.size
  | float x => x.magnitude < Single.infinity
  | arrow => True
  | punct c => c ∈ punctuation

/-- Whether a token ends in itself, whatever follows it. -/
def Token.isClosed : Token → Bool
  | arrow | punct _ => true
  | word _ | valueName _ | functionName _ | int _ | uint _ | float _ => false

/-- The text of a token starts with a character that is not blank, and from it the token is
scanned. -/
def Token.ScannedFrom (text rest : List Char) (t : Token) : Prop :=
  ∃ c others, text = c :: others ∧ isBlank c = false ∧ scan c (others ++ rest) = .ok (t, rest)

/-- A numeral is scanned to its end. -/
theorem scannedFrom_numeral {text rest : List Char} {t : Token} (h : IsUnsigned text)
    (negative : Bool) (ht : numberToken? (Single.signText negative ++ text) = some t)
    (hrest : Stops rest) : t.ScannedFrom (Single.signText negative ++ text) rest := by
  obtain ⟨c, others, rfl, hdigit, hothers⟩ := h
  have hstop : ∀ d, rest.head? = some d → isNumberChar d = false := fun d hd => (hrest d hd).2
  have hne : ∀ d, d.isDigit = false → c ≠ d := by
    rintro d hd rfl
    exact Bool.false_ne_true (hd.symm.trans hdigit)
  have hnumber : ∀ {first : Char} {others : List Char}, (∀ d ∈ others, isNumberChar d) →
      numberToken? (first :: others) = some t →
      scanNumber first (others ++ rest) = .ok (t, rest) := by
    intro first others hothers ht
    unfold scanNumber
    simp only [takeWhile_append hothers hstop, dropWhile_append hothers hstop, ht]
  cases negative with
  | false =>
    refine ⟨c, others, rfl, isBlank_of_isDigit hdigit, ?_⟩
    unfold scan
    rw [if_neg (hne _ rfl), if_neg (hne _ rfl), if_neg (hne _ rfl), if_pos hdigit]
    exact hnumber hothers ht
  | true =>
    refine ⟨'-', c :: others, rfl, rfl, ?_⟩
    have hscan : scan '-' (c :: others ++ rest) = scanNumber '-' (c :: others ++ rest) := by
      unfold scan
      rw [if_neg (by decide), if_neg (by decide), if_pos rfl]
      split
      · rename_i heq
        cases heq
        exact absurd hdigit (by decide)
      · rfl
    rw [hscan]
    exact hnumber (List.forall_mem_cons.mpr ⟨isNumberChar_of_isDigit hdigit, hothers⟩) ht

theorem scanName_append {c : Char} {make : String → Token} {name : String} {rest : List Char}
    (hname : IsName name) (hrest : Stops rest) :
    scanName c make (name.toList ++ rest) = .ok (make name, rest) := by
  have hstop : ∀ d, rest.head? = some d → isNameChar d = false := fun d hd => (hrest d hd).1
  unfold scanName
  rw [takeWhile_append hname.2 hstop, dropWhile_append hname.2 hstop]
  split
  · exact absurd ‹_› hname.1
  · rw [String.ofList_toList]

theorem scannedFrom_word {text : String} {rest : List Char} (h : isWord text.toList)
    (hrest : Stops rest) : (Token.word text).ScannedFrom text.toList rest := by
  have hstop : ∀ d, rest.head? = some d → isNameChar d = false := fun d hd => (hrest d hd).1
  cases htext : text.toList with
  | nil =>
    rw [htext] at h
    cases h
  | cons c others =>
    rw [htext] at h
    obtain ⟨hstart, hothers⟩ := (Bool.and_eq_true _ _).mp h
    have hne : ∀ d, isWordStart d = false → c ≠ d := by
      rintro d hd rfl
      exact Bool.false_ne_true (hd.symm.trans hstart)
    refine ⟨c, others, rfl, isBlank_of_isWordStart hstart, ?_⟩
    unfold scan
    rw [if_neg (hne _ rfl), if_neg (hne _ rfl), if_neg (hne _ rfl),
      if_neg (by simp [isDigit_of_isWordStart hstart]),
      if_pos (show (c.isAlpha || c == '_') = true from hstart),
      takeWhile_append (List.all_eq_true.mp hothers) hstop,
      dropWhile_append (List.all_eq_true.mp hothers) hstop, ← htext, String.ofList_toList]

theorem scannedFrom_punct {c : Char} {rest : List Char} (h : c ∈ punctuation) :
    (Token.punct c).ScannedFrom [c] rest := by
  refine ⟨c, [], rfl, ?_⟩
  simp only [punctuation, List.mem_cons, List.not_mem_nil, or_false] at h
  rcases h with rfl | rfl | rfl | rfl | rfl | rfl | rfl | rfl | rfl | rfl <;> exact ⟨rfl, rfl⟩

/-- **A readable token is scanned from its text**, if that is followed by what ends it. -/
theorem Token.Readable.scannedFrom {t : Token} (h : t.Readable) {rest : List Char}
    (hrest : t.isClosed = false → Stops rest) : t.ScannedFrom t.chars rest := by
  cases t with
  | word text => exact scannedFrom_word h (hrest rfl)
  | valueName name => exact ⟨'%', name.toList, rfl, rfl, scanName_append h (hrest rfl)⟩
  | functionName name => exact ⟨'@', name.toList, rfl, rfl, scanName_append h (hrest rfl)⟩
  | int n =>
    rw [Token.chars, signedDecimal_eq]
    refine scannedFrom_numeral ?_ _ ?_ (hrest rfl)
    · have hdigits : IsUnsigned (Numeral.decimal n.natAbs ++ []) :=
        isUnsigned_decimal_append n.natAbs (by simp)
      rwa [List.append_nil] at hdigits
    · rw [← signedDecimal_eq]
      exact numberToken?_int h
  | uint n =>
    exact scannedFrom_numeral (isUnsigned_decimal_append n (by simp [isNumberChar])) false
      (numberToken?_uint h) (hrest rfl)
  | float x =>
    obtain ⟨p, hp, -, htext⟩ := Single.exists_parts h
    rw [Token.chars, htext]
    refine scannedFrom_numeral (isUnsigned_parts hp) _ ?_ (hrest rfl)
    rw [← htext]
    exact numberToken?_float h
  | arrow => exact ⟨'-', ['>'], rfl, rfl, rfl⟩
  | punct c => exact scannedFrom_punct h

end ResourceBinding
