import ResourceBinding.Reading.Program

/-!
# Braces

Tokens are balanced if their braces match (`Balanced`). Counting braces steps over balanced tokens
(`Balanced.afterBlock`), and so it finds the brace that closes what was opened before
(`afterBlock_of_balancedUntil`).
-/

namespace ResourceBinding

/-- The token opens or closes a block. -/
def Token.IsBrace (t : Token) : Prop :=
  t = .punct '{' ∨ t = .punct '}'

/-- The braces among the tokens match. -/
inductive Balanced : List Located → Prop
  | nil : Balanced []
  | plain {t : Located} {rest : List Located} :
      ¬ t.token.IsBrace → Balanced rest → Balanced (t :: rest)
  | block {opened closed : Nat} {inner rest : List Located} : Balanced inner → Balanced rest →
      Balanced (⟨.punct '{', opened⟩ :: (inner ++ ⟨.punct '}', closed⟩ :: rest))

/-- The braces match up to the closing sign, which is the last token. Without such a sign they match
up to the end. -/
def BalancedUntil : Option Char → List Located → Prop
  | none, tokens => Balanced tokens
  | some close, tokens =>
    ∃ inner line, Balanced inner ∧ tokens = inner ++ [⟨.punct close, line⟩]

variable {close : Option Char} {tokens others : List Located}

theorem Balanced.singleton {t : Located} (h : ¬ t.token.IsBrace) : Balanced [t] :=
  .plain h .nil

theorem Balanced.append (h : Balanced tokens) (h' : Balanced others) :
    Balanced (tokens ++ others) := by
  induction h with
  | nil => exact h'
  | plain ht _ ih => exact .plain ht ih
  | block hinner _ _ ih =>
    rw [List.cons_append, List.append_assoc, List.cons_append]
    exact .block hinner ih

theorem BalancedUntil.prepend (h : Balanced tokens) (h' : BalancedUntil close others) :
    BalancedUntil close (tokens ++ others) := by
  cases close with
  | none => exact h.append h'
  | some sign =>
    obtain ⟨inner, line, hinner, rfl⟩ := h'
    exact ⟨tokens ++ inner, line, h.append hinner, by rw [List.append_assoc]⟩

/-- A closing sign that is no brace does not count. -/
theorem BalancedUntil.balanced {sign : Char} (h : BalancedUntil (some sign) tokens)
    (hsign : ¬ (Token.punct sign).IsBrace) : Balanced tokens := by
  obtain ⟨inner, line, hinner, rfl⟩ := h
  exact hinner.append (.singleton hsign)

/-- What is enclosed in braces. -/
theorem BalancedUntil.enclose (h : BalancedUntil (some '}') tokens) (line : Nat) :
    Balanced (⟨.punct '{', line⟩ :: tokens) := by
  obtain ⟨inner, closed, hinner, rfl⟩ := h
  exact .block hinner .nil

/-! ## Counting braces -/

theorem afterBlock_of_not_isBrace {t : Located} (h : ¬ t.token.IsBrace) (depth : Nat)
    (rest : List Located) : afterBlock depth (t :: rest) = afterBlock depth rest := by
  obtain ⟨token, line⟩ := t
  obtain ⟨hopen, hclose⟩ := not_or.mp h
  rw [afterBlock] <;> simp_all

/-- Braces that match are stepped over, whatever is open around them. -/
theorem Balanced.afterBlock (h : Balanced tokens) (depth : Nat) (rest : List Located) :
    afterBlock depth (tokens ++ rest) = ResourceBinding.afterBlock depth rest := by
  induction h generalizing depth rest with
  | nil => rfl
  | plain ht _ ih => rw [List.cons_append, afterBlock_of_not_isBrace ht, ih]
  | block _ _ ihinner ih =>
    rw [List.cons_append, List.append_assoc, List.cons_append, ResourceBinding.afterBlock, ihinner,
      ResourceBinding.afterBlock, ih]

/-- **Counting braces finds the brace that the others match up to.** -/
theorem afterBlock_of_balancedUntil (h : BalancedUntil (some '}') tokens) (rest : List Located) :
    afterBlock 0 (tokens ++ rest) = some rest := by
  obtain ⟨inner, line, hinner, rfl⟩ := h
  rw [List.append_assoc, hinner.afterBlock]
  rfl

end ResourceBinding
