import ResourceBinding.Proofs.Reading.Tokens
import ResourceBinding.Proofs.Text.Split

/-!
# No token goes past the end of its line

A token takes characters of its line only, and is read alike whatever stands on the lines below
(`exists_takenBy`). So a text on top of another one is read as the two are, the lower one so many
lines further down (`tokensFrom_append_newline`, `tokensFrom_add`), and the line of a token is told
by the line feeds in front of it (`exists_placedAt`).
-/

namespace ResourceBinding

open Text

/-! ## What a token takes -/

section Scan

variable {c : Char} {text rest rest' : List Char} {token : Token} {cause : ParseCause}

/-- The second text goes on with the same character as the first, or ends the line, or is empty. -/
def GoesOnAs (rest rest' : List Char) : Prop :=
  ∀ d, rest'.head? = some d → d = '\n' ∨ rest.head? = some d

/-- The characters `used`, none of which ends the line, are those that the token takes behind the
character `c` that it starts with. It takes no others if the text goes on as `rest` does. -/
structure TakenBy (c : Char) (token : Token) (rest used : List Char) : Prop where
  inLine : '\n' ∉ used
  scan : ∀ {rest'}, GoesOnAs rest rest' → scan c (used ++ rest') = .ok (token, rest')

theorem goesOnAs_append_newline (rest more : List Char) : GoesOnAs rest (rest ++ '\n' :: more) := by
  intro d hd
  cases rest with
  | nil => exact .inl (Option.some.inj hd).symm
  | cons e rest => exact .inr hd

theorem goesOnAs_append_self (first more : List Char) : GoesOnAs (first ++ more) first := by
  intro d hd
  rw [List.head?_append, hd]
  exact .inr rfl

/-- Characters that a test accepts are the same in front of a text that goes on as the rest does. -/
theorem takeWhile_dropWhile_of_goesOnAs {p : Char → Bool} (hp : p '\n' = false)
    (text : List Char) {rest' : List Char} (h : GoesOnAs (text.dropWhile p) rest') :
    (text.takeWhile p ++ rest').takeWhile p = text.takeWhile p ∧
      (text.takeWhile p ++ rest').dropWhile p = rest' := by
  have hstop : ∀ d, rest'.head? = some d → p d = false := by
    intro d hd
    rcases h d hd with rfl | hd
    · exact hp
    · have hnot := List.head?_dropWhile_not p text
      rw [hd] at hnot
      simpa using hnot
  have hall : ∀ d ∈ text.takeWhile p, p d := fun d => List.mem_takeWhile_imp
  exact ⟨takeWhile_append hall hstop, dropWhile_append hall hstop⟩

theorem newline_not_mem_takeWhile {p : Char → Bool} (hp : p '\n' = false) :
    '\n' ∉ text.takeWhile p := by
  intro hmem
  have htrue := List.mem_takeWhile_imp hmem
  rw [hp] at htrue
  cases htrue

theorem exists_taken_of_scanName {make : String → Token}
    (h : scanName c make text = .ok (token, rest)) :
    ∃ used, text = used ++ rest ∧ '\n' ∉ used ∧
      ∀ {rest'}, GoesOnAs rest rest' → scanName c make (used ++ rest') = .ok (token, rest') := by
  simp only [scanName] at h
  split at h
  · cases h
  · rename_i name hne
    cases h
    refine ⟨text.takeWhile isNameChar, List.takeWhile_append_dropWhile.symm,
      newline_not_mem_takeWhile rfl, fun hgoes => ?_⟩
    obtain ⟨htake, hdrop⟩ := takeWhile_dropWhile_of_goesOnAs rfl _ hgoes
    rw [scanName, htake, hdrop]
    split
    · exact absurd ‹_› hne
    · rfl

theorem exists_taken_of_scanNumber (h : scanNumber c text = .ok (token, rest)) :
    text = text.takeWhile isNumberChar ++ rest ∧
      numberToken? (c :: text.takeWhile isNumberChar) = some token ∧
      ∀ {rest'}, GoesOnAs rest rest' →
        scanNumber c (text.takeWhile isNumberChar ++ rest') = .ok (token, rest') := by
  simp only [scanNumber] at h
  split at h
  · rename_i found hfound
    cases h
    refine ⟨List.takeWhile_append_dropWhile.symm, hfound, fun hgoes => ?_⟩
    obtain ⟨htake, hdrop⟩ := takeWhile_dropWhile_of_goesOnAs rfl _ hgoes
    simp only [scanNumber, htake, hdrop, hfound]
  · cases h

/-- **A token takes characters of its line only**, and is read alike before any text that goes on as
the one it was read before. -/
theorem exists_takenBy (h : scan c text = .ok (token, rest)) :
    ∃ used, text = used ++ rest ∧ TakenBy c token rest used := by
  unfold scan at h
  split at h
  · obtain rfl := ‹c = '%'›
    obtain ⟨used, htext, hline, hscan⟩ := exists_taken_of_scanName h
    exact ⟨used, htext, hline, hscan⟩
  split at h
  · obtain rfl := ‹c = '@'›
    obtain ⟨used, htext, hline, hscan⟩ := exists_taken_of_scanName h
    exact ⟨used, htext, hline, hscan⟩
  split at h
  · obtain rfl := ‹c = '-'›
    split at h
    · cases h
      exact ⟨['>'], rfl, by decide, fun _ => rfl⟩
    · obtain ⟨htext, hnumber, hscan⟩ := exists_taken_of_scanNumber h
      refine ⟨_, htext, newline_not_mem_takeWhile rfl, fun {rest'} hgoes => ?_⟩
      -- A sign alone spells no number, and the sign of an arrow is in none.
      have hfirst : ∀ d others, text.takeWhile isNumberChar = d :: others → d ≠ '>' := by
        rintro d others hused rfl
        have hmem : '>' ∈ text.takeWhile isNumberChar := hused ▸ List.mem_cons_self
        exact absurd (List.mem_takeWhile_imp hmem) (by decide)
      cases hused : text.takeWhile isNumberChar with
      | nil =>
        rw [hused] at hnumber
        cases hnumber
      | cons d others =>
        have hsecond := hscan hgoes
        rw [hused] at hsecond
        unfold scan
        rw [if_neg (by decide), if_neg (by decide), if_pos rfl]
        split
        · rename_i heq
          exact absurd (List.cons.inj heq).1 (hfirst d others hused)
        · exact hsecond
  split at h
  · obtain ⟨htext, -, hscan⟩ := exists_taken_of_scanNumber h
    refine ⟨_, htext, newline_not_mem_takeWhile rfl, fun hgoes => ?_⟩
    unfold scan
    rw [if_neg ‹_›, if_neg ‹_›, if_neg ‹_›, if_pos ‹_›]
    exact hscan hgoes
  split at h
  · cases h
    refine ⟨text.takeWhile isNameChar, List.takeWhile_append_dropWhile.symm,
      newline_not_mem_takeWhile rfl, fun hgoes => ?_⟩
    obtain ⟨htake, hdrop⟩ := takeWhile_dropWhile_of_goesOnAs rfl _ hgoes
    unfold scan
    rw [if_neg ‹_›, if_neg ‹_›, if_neg ‹_›, if_neg ‹_›, if_pos ‹_›, htake, hdrop]
  split at h
  · cases h
    refine ⟨[], rfl, List.not_mem_nil, fun _ => ?_⟩
    unfold scan
    rw [if_neg ‹_›, if_neg ‹_›, if_neg ‹_›, if_neg ‹_›, if_neg ‹_›, if_pos ‹_›]
    rfl
  · cases h

theorem takeWhile_append_newline {p : Char → Bool} (hp : p '\n' = false) (text more : List Char) :
    (text ++ '\n' :: more).takeWhile p = text.takeWhile p := by
  have htake := (takeWhile_dropWhile_of_goesOnAs hp text
    (goesOnAs_append_newline _ more)).1
  rwa [← List.append_assoc, List.takeWhile_append_dropWhile] at htake

theorem dropWhile_append_newline {p : Char → Bool} (hp : p '\n' = false) (text more : List Char) :
    (text ++ '\n' :: more).dropWhile p = text.dropWhile p ++ '\n' :: more := by
  have hdrop := (takeWhile_dropWhile_of_goesOnAs hp text
    (goesOnAs_append_newline _ more)).2
  rwa [← List.append_assoc, List.takeWhile_append_dropWhile] at hdrop

theorem scan_append_newline (h : scan c text = .ok (token, rest)) (more : List Char) :
    scan c (text ++ '\n' :: more) = .ok (token, rest ++ '\n' :: more) := by
  obtain ⟨used, rfl, htaken⟩ := exists_takenBy h
  rw [List.append_assoc]
  exact htaken.scan (goesOnAs_append_newline rest more)

/-- What is wrong at the end of a line stays wrong, and for the same cause. -/
theorem scan_error_append_newline (h : scan c text = .error cause) (more : List Char) :
    scan c (text ++ '\n' :: more) = .error cause := by
  have hname : ∀ {make : String → Token}, scanName c make text = .error cause →
      scanName c make (text ++ '\n' :: more) = .error cause := by
    intro make hname
    simp only [scanName] at hname ⊢
    rw [takeWhile_append_newline rfl]
    split at hname
    · exact hname
    · cases hname
  have hnumber : scanNumber c text = .error cause →
      scanNumber c (text ++ '\n' :: more) = .error cause := by
    intro hnumber
    simp only [scanNumber] at hnumber ⊢
    rw [takeWhile_append_newline rfl]
    split at hnumber
    · cases hnumber
    · exact hnumber
  unfold scan at h ⊢
  split at h
  · rw [if_pos ‹_›]
    exact hname h
  rw [if_neg ‹_›]
  split at h
  · rw [if_pos ‹_›]
    exact hname h
  rw [if_neg ‹_›]
  split at h
  · rw [if_pos ‹_›]
    split at h
    · cases h
    · rename_i hopen
      split
      · rename_i more' heq
        cases text with
        | nil => exact absurd (List.cons.inj heq).1 (by decide)
        | cons d text => exact absurd (congrArg (· :: text) (List.cons.inj heq).1) (hopen text)
      · exact hnumber h
  rw [if_neg ‹_›]
  split at h
  · rw [if_pos ‹_›]
    exact hnumber h
  rw [if_neg ‹_›]
  split at h
  · cases h
  rw [if_neg ‹_›]
  split at h
  · cases h
  rw [if_neg ‹_›]
  exact h

end Scan

/-! ## Lines further down -/

/-- A token so many lines further down. -/
def Located.lower (lines : Nat) (t : Located) : Located :=
  ⟨t.token, t.line + lines⟩

/-- An error so many lines further down. -/
def ParseError.lower (lines : Nat) (e : ParseError) : ParseError :=
  ⟨e.line + lines, e.cause⟩

/-- What is read of a text that is so many lines further down. -/
def lowered (lines : Nat) :
    Except ParseError (List Located) → Except ParseError (List Located)
  | .ok tokens => .ok (tokens.map (·.lower lines))
  | .error e => .error (e.lower lines)

theorem tokensFrom_add (line lines : Nat) (text : List Char) :
    tokensFrom (line + lines) text = lowered lines (tokensFrom line text) := by
  fun_induction tokensFrom line text with
  | case1 => exact tokensFrom_nil _
  | case2 line text ih => rw [tokensFrom_newline, ← ih, Nat.add_right_comm]
  | case3 line c text hline hblank ih => rw [tokensFrom_blank hline hblank, ih]
  | case4 line c text _ _ hcomment _ ih => rw [tokensFrom_comment hcomment, ih]
  | case5 line c text hline hblank hcomment cause hscan =>
    rw [tokensFrom_of_scan_error hline hblank hcomment hscan]
    rfl
  | case6 line c text hline hblank hcomment token rest hscan _ e he ih =>
    rw [tokensFrom_of_scan (by simpa using hblank) hscan, ih, he]
    rfl
  | case7 line c text hline hblank hcomment token rest hscan _ others hothers ih =>
    rw [tokensFrom_of_scan (by simpa using hblank) hscan, ih, hothers]
    rfl

/-! ## Texts on top of each other -/

/-- What is read of two texts, the lower one of which counts only if the upper one is read. -/
def above (tokens : Except ParseError (List Located)) (others : Except ParseError (List Located)) :
    Except ParseError (List Located) :=
  match tokens, others with
  | .error e, _ => .error e
  | .ok _, .error e => .error e
  | .ok tokens, .ok others => .ok (tokens ++ others)

theorem above_nil (others : Except ParseError (List Located)) : above (.ok []) others = others := by
  cases others <;> rfl

theorem map_above (t : Located) (tokens others : Except ParseError (List Located)) :
    (t :: ·) <$> above tokens others = above ((t :: ·) <$> tokens) others := by
  cases tokens <;> cases others <;> rfl

theorem count_dropWhile_newline (text : List Char) :
    (text.dropWhile (· != '\n')).count '\n' = text.count '\n' := by
  have hnone : (text.takeWhile (· != '\n')).count '\n' = 0 :=
    List.count_eq_zero.mpr (newline_not_mem_takeWhile rfl)
  rw [← Nat.zero_add (List.count _ _), ← hnone, ← List.count_append,
    List.takeWhile_append_dropWhile]

theorem count_newline_of_scan {c : Char} {text rest : List Char} {token : Token}
    (hline : c ≠ '\n') (h : scan c text = .ok (token, rest)) :
    (c :: text).count '\n' = rest.count '\n' := by
  obtain ⟨used, rfl, htaken⟩ := exists_takenBy h
  rw [List.count_cons_of_ne hline, List.count_append, List.count_eq_zero.mpr htaken.inLine,
    Nat.zero_add]

/-- **A text on top of another one is read as the two are.** -/
theorem tokensFrom_append_newline (line : Nat) (a b : List Char) :
    tokensFrom line (a ++ '\n' :: b)
      = above (tokensFrom line a) (tokensFrom (line + a.count '\n' + 1) b) := by
  fun_induction tokensFrom line a with
  | case1 line => rw [List.nil_append, tokensFrom_newline, above_nil, List.count_nil, Nat.add_zero]
  | case2 line text ih =>
    rw [List.cons_append, tokensFrom_newline, ih, List.count_cons_self, Nat.add_right_comm line 1,
      Nat.add_assoc line]
  | case3 line c text hline hblank ih =>
    rw [List.cons_append, tokensFrom_blank hline hblank, ih, List.count_cons_of_ne hline]
  | case4 line c text hline hblank hcomment _ ih =>
    have hcomment' : c = '/' ∧ (text ++ '\n' :: b).head? = some '/' := by
      refine ⟨hcomment.1, ?_⟩
      rw [List.head?_append, hcomment.2]
      rfl
    rw [List.cons_append, tokensFrom_comment hcomment', dropWhile_append_newline rfl, ih,
      count_dropWhile_newline, List.count_cons_of_ne hline]
  | case5 line c text hline hblank hcomment cause hscan =>
    have hcomment' : ¬ (c = '/' ∧ (text ++ '\n' :: b).head? = some '/') := by
      rintro ⟨rfl, hhead⟩
      cases text with
      | nil => cases hhead
      | cons d text => exact hcomment ⟨rfl, hhead⟩
    rw [List.cons_append, tokensFrom_of_scan_error hline hblank hcomment'
      (scan_error_append_newline hscan b)]
    rfl
  | case6 line c text hline hblank hcomment token rest hscan _ e he ih =>
    rw [List.cons_append, tokensFrom_of_scan (by simpa using hblank) (scan_append_newline hscan b),
      ih, he]
    rfl
  | case7 line c text hline hblank hcomment token rest hscan _ others hothers ih =>
    rw [List.cons_append, tokensFrom_of_scan (by simpa using hblank) (scan_append_newline hscan b),
      ih, hothers, map_above, count_newline_of_scan hline hscan]
    rfl

/-! ## The place of a token -/

/-- The tokens of a text are on its lines, and none is on a line above that of an earlier one. -/
theorem lines_of_tokensFrom {line : Nat} {text : List Char} {tokens : List Located}
    (h : tokensFrom line text = .ok tokens) :
    (∀ t ∈ tokens, line ≤ t.line) ∧ tokens.Pairwise (fun t u => t.line ≤ u.line) := by
  fun_induction tokensFrom line text generalizing tokens with
  | case1 =>
    cases h
    exact ⟨fun _ ht => absurd ht List.not_mem_nil, .nil⟩
  | case2 line text ih =>
    exact ⟨fun t ht => Nat.le_of_succ_le ((ih h).1 t ht), (ih h).2⟩
  | case3 _ _ _ _ _ ih | case4 _ _ _ _ _ _ _ ih => exact ih h
  | case5 | case6 => cases h
  | case7 line c text _ _ _ token rest _ _ others hothers ih =>
    cases h
    obtain ⟨hle, hpairwise⟩ := ih hothers
    exact ⟨List.forall_mem_cons.mpr ⟨Nat.le_refl line, hle⟩, List.pairwise_cons.mpr ⟨hle, hpairwise⟩⟩

/-- Behind the text `before`, which has the first `k` of the tokens, the next one is read, and the
others behind that. -/
structure PlacedAt (line : Nat) (text : List Char) (tokens : List Located) (k : Nat) (t : Located)
    (before : List Char) : Prop where
  earlier : tokensFrom line before = .ok (tokens.take k)
  here : ∃ c rest after, text = before ++ c :: rest ∧ scan c rest = .ok (t.token, after) ∧
    tokensFrom t.line after = .ok (tokens.drop (k + 1))

/-- **The line of a token is told by the line feeds in front of it.** -/
theorem exists_placedAt {line : Nat} {text : List Char} {tokens : List Located}
    (h : tokensFrom line text = .ok tokens) {k : Nat} {t : Located} (ht : tokens[k]? = some t) :
    ∃ before, PlacedAt line text tokens k t before ∧ t.line = line + before.count '\n' := by
  fun_induction tokensFrom line text generalizing tokens k with
  | case1 =>
    cases h
    cases ht
  | case2 line text ih =>
    obtain ⟨before, ⟨hearlier, c, rest, after, rfl, hscan⟩, hline⟩ := ih h ht
    refine ⟨'\n' :: before, ⟨?_, c, rest, after, rfl, hscan⟩, ?_⟩
    · rw [tokensFrom_newline, hearlier]
    · rw [hline, List.count_cons_self, Nat.add_right_comm, Nat.add_assoc]
  | case3 line d text hnewline hblank ih =>
    obtain ⟨before, ⟨hearlier, c, rest, after, rfl, hscan⟩, hline⟩ := ih h ht
    refine ⟨d :: before, ⟨?_, c, rest, after, rfl, hscan⟩, ?_⟩
    · rw [tokensFrom_blank hnewline hblank, hearlier]
    · rw [hline, List.count_cons_of_ne hnewline]
  | case4 line d text hnewline hblank hcomment _ ih =>
    obtain ⟨before, ⟨hearlier, c, rest, after, htext, hscan⟩, hline⟩ := ih h ht
    have hgoes : GoesOnAs (text.dropWhile (· != '\n')) before :=
      htext ▸ goesOnAs_append_self before (c :: rest)
    have hstart : (text.takeWhile (· != '\n')).head? = some '/' := by
      rw [List.head?_takeWhile, hcomment.2]
      rfl
    refine ⟨d :: (text.takeWhile (· != '\n') ++ before), ⟨?_, c, rest, after, ?_, hscan⟩, ?_⟩
    · rw [tokensFrom_comment ⟨hcomment.1, by rw [List.head?_append, hstart]; rfl⟩,
        (takeWhile_dropWhile_of_goesOnAs rfl _ hgoes).2, hearlier]
    · rw [List.cons_append, List.append_assoc, ← htext, List.takeWhile_append_dropWhile]
    · rw [hline, List.count_cons_of_ne hnewline, List.count_append,
        List.count_eq_zero.mpr (newline_not_mem_takeWhile rfl), Nat.zero_add]
  | case5 | case6 => cases h
  | case7 line d text hnewline hblank hcomment token rest hscan _ others hothers ih =>
    cases h
    cases k with
    | zero =>
      cases ht
      exact ⟨[], ⟨tokensFrom_nil line, d, text, rest, rfl, hscan, hothers⟩, rfl⟩
    | succ k =>
      obtain ⟨before, ⟨hearlier, c, rest', after, rfl, hhere⟩, hline⟩ := ih hothers ht
      obtain ⟨used, rfl, htaken⟩ := exists_takenBy hscan
      refine ⟨d :: (used ++ before), ⟨?_, c, rest', after, ?_, hhere⟩, ?_⟩
      · rw [tokensFrom_of_scan (by simpa using hblank)
          (htaken.scan (goesOnAs_append_self before _)), hearlier]
        rfl
      · rw [List.cons_append, List.append_assoc]
      · rw [hline, List.count_cons_of_ne hnewline, List.count_append,
          List.count_eq_zero.mpr htaken.inLine, Nat.zero_add]

/-- The number of line feeds in a text. -/
def lineFeeds (text : String) : Nat :=
  text.toList.count '\n'

/-- **Reading tokens is local to lines.** Two texts with a line feed between them are read as each of
them is, the lower one so many lines further down, and the first error is that of the whole. In a
text that is read, the line of a token is one more than there are line feeds in front of it, so that
lines never decrease. -/
theorem readTokens_lineLocal (a b : String) :
    readTokens (a ++ "\n" ++ b) =
      (match readTokens a, readTokens b with
        | .error e, _ => .error e
        | .ok _, .error e => .error (e.lower (lineFeeds a + 1))
        | .ok tokens, .ok others => .ok (tokens ++ others.map (·.lower (lineFeeds a + 1)))) ∧
    ∀ tokens, readTokens a = .ok tokens →
      tokens.Pairwise (fun t u => t.line ≤ u.line) ∧
      ∀ k t, tokens[k]? = some t → ∃ before, PlacedAt 1 a.toList tokens k t before ∧
        t.line = 1 + before.count '\n' := by
  constructor
  · have htext : (a ++ "\n" ++ b).toList = a.toList ++ '\n' :: b.toList := by
      simp [String.toList_append]
    have hbelow : tokensFrom (1 + a.toList.count '\n' + 1) b.toList
        = lowered (lineFeeds a + 1) (readTokens b) := by
      rw [Nat.add_assoc]
      exact tokensFrom_add 1 _ _
    rw [readTokens, htext, tokensFrom_append_newline, hbelow, ← readTokens]
    cases readTokens a with
    | error e => rfl
    | ok tokens => cases readTokens b <;> rfl
  · exact fun tokens h => ⟨(lines_of_tokensFrom h).2, fun k t ht => exists_placedAt h ht⟩

/-- A sign at the end of a line makes no arrow with what stands below it. -/
example : readTokens "x -\n> y" = .error ⟨1, .malformedNumber "-"⟩ := by
  decide +kernel

end ResourceBinding
