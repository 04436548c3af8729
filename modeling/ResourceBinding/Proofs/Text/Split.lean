import ResourceBinding.Text.Split

/-!
# Text behind a prefix

How a text is cut that starts with a given prefix, and what a text starts with that has been cut.
-/

namespace ResourceBinding.Text

variable {p : Char → Bool} {first rest : List Char}

/-- A prefix that fulfils `p` is all that fulfils it, if the text goes on with something else. -/
theorem takeWhile_append (hfirst : ∀ c ∈ first, p c) (hrest : ∀ c, rest.head? = some c → p c = false) :
    (first ++ rest).takeWhile p = first := by
  rw [List.takeWhile_append_of_pos hfirst]
  cases rest with
  | nil => simp
  | cons c rest => simp [hrest c rfl]

theorem dropWhile_append (hfirst : ∀ c ∈ first, p c) (hrest : ∀ c, rest.head? = some c → p c = false) :
    (first ++ rest).dropWhile p = rest := by
  rw [List.dropWhile_append_of_pos hfirst]
  cases rest with
  | nil => rfl
  | cons c rest => simp [hrest c rfl]

theorem head?_of_uncommented {c : Char} {text : List Char}
    (h : (uncommented text).head? = some c) : text.head? = some c := by
  cases text with
  | nil => cases h
  | cons d text =>
    unfold uncommented at h
    split at h
    · cases h
    · cases h
    · rename_i heq
      cases heq
      exact h

end ResourceBinding.Text
