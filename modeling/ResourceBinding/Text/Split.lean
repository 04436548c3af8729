/-!
# Cutting a text at a character

`splitOn sep` cuts a text at every `sep`: into lines at the line feed, into entries at the comma,
into flags at the bar. `uncommented` drops a line comment.

Three laws pin `splitOn` down: joining two texts by the separator joins their lists of parts
(`splitOn_append`), a text without the separator is its own part (`splitOn_of_not_mem`), and no part
holds the separator (`not_mem_of_mem_splitOn`).
-/

namespace ResourceBinding.Text

/-- The parts of a text between the separators. There is one more part than there are separators,
and a part may be empty. -/
def splitOn (sep : Char) : List Char → List (List Char)
  | [] => [[]]
  | c :: text =>
    if c = sep then [] :: splitOn sep text
    else
      match splitOn sep text with
      | [] => [[c]]
      | part :: parts => (c :: part) :: parts

/-- There is always a part. -/
theorem splitOn_ne_nil (sep : Char) (text : List Char) : splitOn sep text ≠ [] := by
  cases text with
  | nil => simp [splitOn]
  | cons c text =>
    simp only [splitOn]
    split
    · simp
    · split <;> simp

/-- **Joining by the separator joins the parts.** -/
theorem splitOn_append (sep : Char) (a b : List Char) :
    splitOn sep (a ++ sep :: b) = splitOn sep a ++ splitOn sep b := by
  induction a with
  | nil => simp [splitOn]
  | cons c a ih =>
    simp only [List.cons_append, splitOn, ih]
    split
    · simp
    · cases h : splitOn sep a with
      | nil => exact absurd h (splitOn_ne_nil sep a)
      | cons part parts => simp

/-- A text without the separator is its own part. -/
theorem splitOn_of_not_mem {sep : Char} {text : List Char} (h : sep ∉ text) :
    splitOn sep text = [text] := by
  induction text with
  | nil => rfl
  | cons c text ih =>
    simp only [List.mem_cons, not_or] at h
    simp [splitOn, Ne.symm h.1, ih h.2]

/-- No part holds the separator. -/
theorem not_mem_of_mem_splitOn {sep : Char} {text part : List Char}
    (h : part ∈ splitOn sep text) : sep ∉ part := by
  induction text generalizing part with
  | nil => simp_all [splitOn]
  | cons c text ih =>
    simp only [splitOn] at h
    split at h
    · rcases List.mem_cons.1 h with rfl | h
      · simp
      · exact ih h
    · rename_i hc
      cases hs : splitOn sep text with
      | nil => exact absurd hs (splitOn_ne_nil sep text)
      | cons first parts =>
        rw [hs] at h ih
        rcases List.mem_cons.1 h with rfl | h
        · simp [Ne.symm hc, ih (List.mem_cons_self)]
        · exact ih (List.mem_cons_of_mem _ h)

/-- The lines of a text: its parts between line feeds. -/
def lines (text : List Char) : List (List Char) :=
  splitOn '\n' text

/-- A line without its comment, which starts at the first `//`. -/
def uncommented : List Char → List Char
  | [] => []
  | '/' :: '/' :: _ => []
  | c :: text => c :: uncommented text

/-- A text put between apostrophes, as messages show it. -/
def quoted (text : String) : String :=
  "'" ++ text ++ "'"

end ResourceBinding.Text
