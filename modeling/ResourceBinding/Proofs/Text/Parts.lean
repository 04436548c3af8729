import ResourceBinding.Proofs.Text.Split
import ResourceBinding.Text.Blank
import Mathlib.Data.List.DropRight
import Mathlib.Data.List.Infix

/-!
# Cutting what was joined

Parts that are joined by a separator are found again (`splitOn_intercalate`). A text that was
trimmed is trimmed (`trim_trim`) and lies in the text that it comes from (`isInfix_trim`), and a text
in which no comment starts has none to drop (`uncommented_eq_self`).
-/

namespace ResourceBinding.Text

variable {sep c : Char} {text first rest : List Char} {parts : List (List Char)}

/-! ## Parts -/

/-- **Cutting takes apart what was joined**, as long as no part holds the separator. -/
theorem splitOn_intercalate : ∀ {parts : List (List Char)}, parts ≠ [] →
    (∀ part ∈ parts, sep ∉ part) → splitOn sep (List.intercalate [sep] parts) = parts
  | [], hne, _ => absurd rfl hne
  | [part], _, h => by
    rw [List.intercalate_singleton]
    exact splitOn_of_not_mem (h part List.mem_cons_self)
  | part :: next :: parts, _, h => by
    rw [List.intercalate_cons_cons, List.append_assoc, List.singleton_append, splitOn_append,
      splitOn_of_not_mem (h part List.mem_cons_self),
      splitOn_intercalate (List.cons_ne_nil _ _) fun p hp => h p (List.mem_cons_of_mem _ hp)]
    rfl

/-- Joining by a separator adds no other character. -/
theorem not_mem_intercalate (hsep : c ≠ sep) : ∀ {parts : List (List Char)},
    (∀ part ∈ parts, c ∉ part) → c ∉ List.intercalate [sep] parts
  | [], _ => List.not_mem_nil
  | [part], h => by
    rw [List.intercalate_singleton]
    exact h part List.mem_cons_self
  | part :: next :: parts, h => by
    have hrest := not_mem_intercalate hsep fun p hp => h p (List.mem_cons_of_mem _ hp)
    rw [List.intercalate_cons_cons, List.append_assoc, List.singleton_append, List.mem_append,
      List.mem_cons, not_or, not_or]
    exact ⟨h part List.mem_cons_self, hsep, hrest⟩

/-- The text starts with its first part. -/
theorem isPrefix_of_splitOn {part : List Char} (h : splitOn sep text = part :: parts) :
    part <+: text := by
  induction text generalizing part parts with
  | nil =>
    cases h
    exact List.nil_prefix
  | cons c text ih =>
    rw [splitOn] at h
    split at h
    · cases h
      exact List.nil_prefix
    · split at h
      · cases h
        exact List.prefix_append [c] text
      · rename_i heq
        cases h
        exact List.cons_prefix_cons.mpr ⟨rfl, ih heq⟩

/-- A part lies in the text. -/
theorem isInfix_of_mem_splitOn {part : List Char} (h : part ∈ splitOn sep text) :
    part <:+: text := by
  induction text generalizing part with
  | nil =>
    rw [splitOn, List.mem_singleton] at h
    exact h ▸ List.infix_rfl
  | cons c text ih =>
    obtain ⟨next, parts, hparts⟩ := List.exists_cons_of_ne_nil (splitOn_ne_nil sep (c :: text))
    rw [hparts] at h
    rcases List.mem_cons.mp h with rfl | hmem
    · exact (isPrefix_of_splitOn hparts).isInfix
    -- A part behind the first one is a part of the tail.
    · refine List.infix_cons (ih ?_)
      rw [splitOn] at hparts
      split at hparts
      · cases hparts
        exact hmem
      · split at hparts
        · cases hparts
          cases hmem
        · rename_i heq
          cases hparts
          rw [heq]
          exact List.mem_cons_of_mem _ hmem

/-! ## Blanks -/

theorem trim_eq (text : List Char) : trim text = (text.dropWhile isBlank).rdropWhile isBlank :=
  rfl

theorem isPrefix_trim (text : List Char) : trim text <+: text.dropWhile isBlank :=
  List.rdropWhile_prefix _ _

theorem isInfix_trim (text : List Char) : trim text <:+: text :=
  (isPrefix_trim text).isInfix.trans (List.dropWhile_suffix _).isInfix

/-- **Trimming twice trims once.** What is cut off at the end leaves the start as it is. -/
theorem trim_trim (text : List Char) : trim (trim text) = trim text := by
  have hstart : (trim text).dropWhile isBlank = trim text := by
    rw [List.dropWhile_eq_self_iff]
    intro hpos hblank
    have hfront := isPrefix_trim text
    have hlt : 0 < (text.dropWhile isBlank).length :=
      Nat.lt_of_lt_of_le hpos hfront.length_le
    refine List.dropWhile_eq_self_iff.mp (List.dropWhile_idempotent _ _) hlt ?_
    rwa [← hfront.getElem hpos]
  rw [trim_eq (trim text), hstart, trim_eq, List.rdropWhile_idempotent]

/-! ## Comments -/

/-- Whether a comment starts somewhere in the text. -/
def HasComment (text : List Char) : Prop :=
  ['/', '/'] <:+: text

theorem HasComment.of_isInfix (h : HasComment first) (hinside : first <:+: text) : HasComment text :=
  h.trans hinside

theorem isPrefix_uncommented (line : List Char) : uncommented line <+: line := by
  fun_induction uncommented line with
  | case1 => exact List.prefix_rfl
  | case2 => exact List.nil_prefix
  | case3 c line _ ih => exact List.cons_prefix_cons.mpr ⟨rfl, ih⟩

/-- What is left of a line has no comment. -/
theorem not_hasComment_uncommented (line : List Char) : ¬ HasComment (uncommented line) := by
  fun_induction uncommented line with
  | case1 => exact fun h => absurd (List.infix_nil.mp h) (by simp)
  | case2 => exact fun h => absurd (List.infix_nil.mp h) (by simp)
  | case3 c line hstart ih =>
    intro h
    rcases List.infix_cons_iff.mp h with hfront | hinside
    · obtain ⟨hc, hrest⟩ := List.cons_prefix_cons.mp hfront
      have hhead : line.head? = some '/' := by
        refine head?_of_uncommented ?_
        obtain ⟨rest, hrest⟩ := hrest
        rw [← hrest]
        rfl
      exact hstart line.tail hc.symm (List.cons_head?_tail hhead).symm
    · exact ih hinside

theorem uncommented_eq_self (h : ¬ HasComment text) : uncommented text = text := by
  fun_induction uncommented text with
  | case1 => rfl
  | case2 rest => exact absurd (List.prefix_append ['/', '/'] rest).isInfix h
  | case3 c text _ ih => rw [ih fun hcomment => h (List.infix_cons hcomment)]

/-- No comment starts across a character that is no slash. -/
theorem HasComment.of_append_cons (hc : c ≠ '/') (h : HasComment (first ++ c :: rest)) :
    HasComment first ∨ HasComment rest := by
  induction first with
  | nil =>
    rcases List.infix_cons_iff.mp h with hfront | hinside
    · exact absurd (List.cons_prefix_cons.mp hfront).1.symm hc
    · exact .inr hinside
  | cons d first ih =>
    rcases List.infix_cons_iff.mp h with hfront | hinside
    · cases first with
      | nil =>
        have hslash := (List.cons_prefix_cons.mp (List.cons_prefix_cons.mp hfront).2).1
        exact absurd hslash.symm hc
      | cons e first =>
        have hslashes := List.cons_prefix_cons.mp hfront
        have hslash := List.cons_prefix_cons.mp hslashes.2
        exact .inl ⟨[], first, by simp [← hslashes.1, ← hslash.1]⟩
    · exact (ih hinside).imp_left List.infix_cons

/-- Where the separator is no slash, comments do not come about by joining. -/
theorem not_hasComment_intercalate (hsep : sep ≠ '/') : ∀ {parts : List (List Char)},
    (∀ part ∈ parts, ¬ HasComment part) → ¬ HasComment (List.intercalate [sep] parts)
  | [], _ => fun h => absurd (List.infix_nil.mp h) (by simp)
  | [part], h => by
    rw [List.intercalate_singleton]
    exact h part List.mem_cons_self
  | part :: next :: parts, h => by
    rw [List.intercalate_cons_cons, List.append_assoc, List.singleton_append]
    intro hcomment
    rcases hcomment.of_append_cons hsep with hpart | hrest
    · exact h part List.mem_cons_self hpart
    · exact not_hasComment_intercalate hsep (fun p hp => h p (List.mem_cons_of_mem _ hp)) hrest

end ResourceBinding.Text
