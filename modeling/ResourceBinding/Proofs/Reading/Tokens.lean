import Mathlib.Data.List.TakeWhile
import ResourceBinding.Proofs.Run
import ResourceBinding.Reading.Tokens

/-!
# The names among the tokens of a text

A name is a word behind its sign: it has a character, and all of its characters are those of names.
So it is for every name that stands in the tokens of a text (`named_of_readTokens`).
-/

namespace ResourceBinding

/-- What can stand behind the sign of a name. -/
def IsName (name : String) : Prop :=
  name.toList ≠ [] ∧ ∀ c ∈ name.toList, isNameChar c

/-- A name that the token carries is one. -/
def Token.Named : Token → Prop
  | valueName name | functionName name => IsName name
  | word _ | int _ | uint _ | float _ | arrow | punct _ => True

theorem named_of_numberToken? {text : List Char} {token : Token}
    (h : numberToken? text = some token) : token.Named := by
  unfold numberToken? at h
  repeat' split at h
  all_goals
    obtain ⟨value, -, rfl⟩ := Option.map_eq_some_iff.mp h
    trivial

theorem named_of_scanNumber {c : Char} {text rest : List Char} {token : Token}
    (h : scanNumber c text = .ok (token, rest)) : token.Named := by
  simp only [scanNumber] at h
  split at h
  · rename_i found hfound
    cases h
    exact named_of_numberToken? hfound
  · cases h

theorem named_of_scanName {c : Char} {make : String → Token} {text rest : List Char}
    {token : Token} (h : scanName c make text = .ok (token, rest))
    (hmake : ∀ name, IsName name → (make name).Named) : token.Named := by
  simp only [scanName] at h
  split at h
  · cases h
  · rename_i name hne
    cases h
    refine hmake _ ⟨?_, fun d hd => ?_⟩
    · rw [String.toList_ofList]
      exact hne
    · rw [String.toList_ofList] at hd
      exact List.mem_takeWhile_imp hd

theorem named_of_scan {c : Char} {text rest : List Char} {token : Token}
    (h : scan c text = .ok (token, rest)) : token.Named := by
  simp only [scan] at h
  split at h
  · exact named_of_scanName h fun _ hname => hname
  split at h
  · exact named_of_scanName h fun _ hname => hname
  split at h
  · split at h
    · cases h
      trivial
    · exact named_of_scanNumber h
  split at h
  · exact named_of_scanNumber h
  split at h
  · cases h
    trivial
  split at h
  · cases h
    trivial
  · cases h

/-! ## Steps of the pass -/

section Steps

variable {line : Nat} {c : Char} {text rest : List Char} {token : Token}

@[simp]
theorem tokensFrom_nil (line : Nat) : tokensFrom line [] = .ok [] := by
  rw [tokensFrom]

@[simp]
theorem tokensFrom_newline (line : Nat) (text : List Char) :
    tokensFrom line ('\n' :: text) = tokensFrom (line + 1) text := by
  rw [tokensFrom, if_pos rfl]

theorem tokensFrom_blank (hline : c ≠ '\n') (hblank : Text.isBlank c) :
    tokensFrom line (c :: text) = tokensFrom line text := by
  rw [tokensFrom, if_neg hline, if_pos hblank]

theorem tokensFrom_comment (h : c = '/' ∧ text.head? = some '/') :
    tokensFrom line (c :: text) = tokensFrom line (text.dropWhile (· != '\n')) := by
  obtain ⟨rfl, hhead⟩ := h
  rw [tokensFrom, if_neg (by decide), if_neg (by decide), if_pos ⟨rfl, hhead⟩]

/-- A slash starts no token. -/
theorem ne_slash_of_scan (h : scan c text = .ok (token, rest)) : c ≠ '/' := by
  rintro rfl
  cases h

/-- A character that is not blank starts a token, and what that leaves is read on. -/
theorem tokensFrom_of_scan (hblank : Text.isBlank c = false) (h : scan c text = .ok (token, rest)) :
    tokensFrom line (c :: text) = (⟨token, line⟩ :: ·) <$> tokensFrom line rest := by
  have hline : c ≠ '\n' := by
    rintro rfl
    cases hblank
  rw [tokensFrom, if_neg hline, if_neg (by simp [hblank]), if_neg fun hc => ne_slash_of_scan h hc.1]
  split
  · rename_i herror
    cases h.symm.trans herror
  · rename_i hok
    cases h.symm.trans hok
    cases tokensFrom line rest <;> rfl

theorem tokensFrom_of_scan_error {cause : ParseCause} (hline : c ≠ '\n')
    (hblank : ¬ Text.isBlank c) (hcomment : ¬ (c = '/' ∧ text.head? = some '/'))
    (h : scan c text = .error cause) : tokensFrom line (c :: text) = .error ⟨line, cause⟩ := by
  rw [tokensFrom, if_neg hline, if_neg hblank, if_neg hcomment]
  split
  · rename_i herror
    cases h.symm.trans herror
    rfl
  · rename_i hok
    cases h.symm.trans hok

end Steps

theorem named_of_tokensFrom {line : Nat} {text : List Char} {tokens : List Located}
    (h : tokensFrom line text = .ok tokens) : ∀ t ∈ tokens, t.token.Named := by
  fun_induction tokensFrom line text generalizing tokens with
  | case1 =>
    cases h
    exact fun _ ht => absurd ht List.not_mem_nil
  | case2 _ _ ih | case3 _ _ _ _ _ ih | case4 _ _ _ _ _ _ _ ih => exact ih h
  | case5 | case6 => cases h
  | case7 line c text _ _ _ token rest hscan _ others hothers ih =>
    cases h
    intro t ht
    rcases List.mem_cons.mp ht with rfl | ht
    · exact named_of_scan hscan
    · exact ih hothers t ht

/-- **The names in the tokens of a text are names.** -/
theorem named_of_readTokens {source : String} {tokens : List Located}
    (h : readTokens source = .ok tokens) : ∀ t ∈ tokens, t.token.Named :=
  named_of_tokensFrom h

end ResourceBinding
