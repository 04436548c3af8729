import ResourceBinding.Proofs.Run
import ResourceBinding.Proofs.Text.Parts
import ResourceBinding.Reading.Samplers

/-!
# Sampler maps that are joined

A sampler map that follows another one behind a line feed is read on its own, with its lines counted
on (`SamplerMap.ofLines_append`, `SamplerMap.ofLines_add`).

The text that a sampler was given as is an *entry*: it is trimmed, and nothing in it ends an entry
or a line, or starts a comment (`SamplerMap.IsEntry`). So it can stand anywhere among other entries,
and is read as the same sampler (`Sampler.Given`).

* `SamplerMap.read_composes`: maps are read one behind the other, and again from their entries.
-/

namespace ResourceBinding

open Text

/-- The lines of a text, where a line feed at its end does not start another one. -/
def Text.endedLines (text : List Char) : List (List Char) :=
  if (lines text).getLast? = some [] then (lines text).dropLast else lines text

theorem Text.endedLines_append (text : List Char) : endedLines (text ++ ['\n']) = lines text := by
  have hlines : lines (text ++ ['\n']) = lines text ++ [[]] := splitOn_append '\n' text []
  rw [endedLines, hlines, List.getLast?_concat, if_pos rfl, List.dropLast_concat]

/-- The error so many lines further down. -/
def ParseError.below (lines : Nat) (e : ParseError) : ParseError :=
  { e with line := e.line + lines }

namespace SamplerMap

variable {line e : List Char} {es : List (List Char)} {samplers : SamplerMap} {source : String}

/-! ## Lines behind others -/

theorem ofLines_append (ls others : List (List Char)) : ∀ first,
    ofLines first (ls ++ others) = (ofLines first ls).bind fun samplers =>
      (ofLines (first + ls.length) others).map (samplers ++ ·) := by
  induction ls with
  | nil =>
    intro first
    cases h : ofLines first others <;> simp [ofLines, Except.bind, Except.map, h]
  | cons line ls ih =>
    intro first
    rw [List.cons_append, ofLines, ofLines, ih, List.length_cons, Nat.add_right_comm,
      ← Nat.add_assoc]
    cases ofLine line first with
    | error e => rfl
    | ok samplers =>
      cases ofLines (first + 1) ls with
      | error e => rfl
      | ok others' =>
        cases ofLines (first + ls.length + 1) others <;> simp [Except.bind, Except.map]

theorem ofLine_add (line : List Char) (number n : Nat) :
    ofLine line (number + n) = (ofLine line number).mapError (ParseError.below n) := by
  unfold ofLine
  cases (entries line).mapM ofEntry <;> rfl

/-- **The number of the first line moves the line of an error**, and nothing else. -/
theorem ofLines_add (ls : List (List Char)) (n : Nat) : ∀ first,
    ofLines (first + n) ls = (ofLines first ls).mapError (ParseError.below n) := by
  induction ls with
  | nil => exact fun _ => rfl
  | cons line ls ih =>
    intro first
    rw [ofLines, ofLines, ofLine_add, Nat.add_right_comm, ih]
    cases ofLine line first with
    | error e => rfl
    | ok samplers => cases ofLines (first + 1) ls <;> rfl

/-! ## Entries -/

/-- The text can be an entry between others: it is trimmed, and it is read to its end. -/
structure IsEntry (e : List Char) : Prop where
  ne_nil : e ≠ []
  trimmed : trim e = e
  comma : ',' ∉ e
  lineEnd : '\n' ∉ e
  comment : ¬ HasComment e

theorem isEntry_of_mem_entries (hline : '\n' ∉ line) (h : e ∈ entries line) : IsEntry e := by
  obtain ⟨hmem, hne⟩ := List.mem_filter.mp h
  obtain ⟨part, hpart, rfl⟩ := List.mem_map.mp hmem
  have hinside : trim part <:+: uncommented line :=
    (isInfix_trim part).trans (isInfix_of_mem_splitOn hpart)
  refine ⟨by simpa using hne, trim_trim part, fun hcomma => ?_, fun hend => ?_, fun hcomment => ?_⟩
  · exact not_mem_of_mem_splitOn hpart ((isInfix_trim part).subset hcomma)
  · exact hline ((isPrefix_uncommented line).subset (hinside.subset hend))
  · exact not_hasComment_uncommented line (hcomment.of_isInfix hinside)

/-- **Entries with commas between them are found again.** -/
theorem entries_intercalate (h : ∀ e ∈ es, IsEntry e) :
    entries (List.intercalate [','] es) = es := by
  cases es with
  | nil => rfl
  | cons first others =>
    have hcomment := not_hasComment_intercalate (by decide : ',' ≠ '/') fun e he => (h e he).comment
    have htrim : (first :: others).map trim = first :: others :=
      (List.map_congr_left fun e he => (h e he).trimmed).trans (List.map_id _)
    rw [entries, uncommented_eq_self hcomment,
      splitOn_intercalate (List.cons_ne_nil _ _) fun e he => (h e he).comma, htrim,
      List.filter_eq_self]
    exact fun e he => by simpa using (h e he).ne_nil

end SamplerMap

/-- The text of the sampler is an entry, and the sampler is what it stands for. -/
structure Sampler.Given (s : Sampler) : Prop where
  isEntry : SamplerMap.IsEntry s.expression.toList
  ofEntry : SamplerMap.ofEntry s.expression.toList = .ok s

namespace SamplerMap

variable {line e : List Char} {samplers : SamplerMap} {source : String}
  {number : Nat}

theorem given_of_ofEntry (he : IsEntry e) {s : Sampler} (h : ofEntry e = .ok s) : s.Given := by
  have hexpression : s.expression.toList = e := by
    rw [ofEntry] at h
    cases hunion : unionOfFlags (flags e) with
    | error cause =>
      rw [hunion] at h
      cases h
    | ok value =>
      rw [hunion] at h
      cases h
      exact String.toList_ofList
  exact ⟨hexpression ▸ he, hexpression ▸ h⟩

theorem given_of_ofLine (hline : '\n' ∉ line) (h : ofLine line number = .ok samplers) :
    ∀ s ∈ samplers, s.Given := by
  intro s hs
  unfold ofLine at h
  split at h
  · rename_i found hfound
    cases h
    obtain ⟨e, he, hread⟩ := exists_mem_of_forall₂ (forall₂_of_mapM hfound) hs
    exact given_of_ofEntry (isEntry_of_mem_entries hline he) hread
  · cases h

theorem given_of_ofLines : ∀ {ls : List (List Char)} {first : Nat} {samplers : SamplerMap},
    (∀ line ∈ ls, '\n' ∉ line) → ofLines first ls = .ok samplers → ∀ s ∈ samplers, s.Given
  | [], _, _, _, h => by
    cases h
    simp
  | line :: ls, first, samplers, hls, h => by
    rw [ofLines] at h
    cases hline : ofLine line first with
    | error e =>
      rw [hline] at h
      cases h
    | ok here =>
      rw [hline] at h
      obtain ⟨others, hothers, rfl⟩ := exists_of_map_ok h
      have hbehind := given_of_ofLines (fun l hl => hls l (List.mem_cons_of_mem _ hl)) hothers
      intro s hs
      rcases List.mem_append.mp hs with hs | hs
      · exact given_of_ofLine (hls line List.mem_cons_self) hline s hs
      · exact hbehind s hs

/-- **What a text is read as is given by its entries.** -/
theorem given_of_read (h : read source = .ok samplers) : ∀ s ∈ samplers, s.Given :=
  given_of_ofLines (fun _ hline => not_mem_of_mem_splitOn hline) h

/-! ## Reading entries again -/

/-- The texts that samplers were given as. -/
def expressions (samplers : SamplerMap) : List (List Char) :=
  samplers.map (·.expression.toList)

theorem isEntry_of_mem_expressions (h : ∀ s ∈ samplers, s.Given) (he : e ∈ expressions samplers) :
    IsEntry e := by
  obtain ⟨s, hs, rfl⟩ := List.mem_map.mp he
  exact (h s hs).isEntry

theorem mapM_ofEntry : ∀ {samplers : SamplerMap}, (∀ s ∈ samplers, s.Given) →
    (expressions samplers).mapM ofEntry = .ok samplers
  | [], _ => rfl
  | s :: samplers, h => by
    have hothers := mapM_ofEntry fun s hs => h s (List.mem_cons_of_mem _ hs)
    rw [expressions, List.map_cons, List.mapM_cons, (h s List.mem_cons_self).ofEntry]
    rw [expressions] at hothers
    rw [hothers]
    rfl

/-- **Entries on one line, with commas between them, are read again.** -/
theorem ofLine_intercalate (h : ∀ s ∈ samplers, s.Given) :
    ofLine (List.intercalate [','] (expressions samplers)) number = .ok samplers := by
  rw [ofLine, entries_intercalate fun e he => isEntry_of_mem_expressions h he, mapM_ofEntry h]

/-- **Entries on lines of their own are read again.** -/
theorem ofLines_expressions : ∀ {samplers : SamplerMap} {first : Nat}, (∀ s ∈ samplers, s.Given) →
    ofLines first (expressions samplers) = .ok samplers
  | [], _, _ => rfl
  | s :: samplers, first, h => by
    have hline : ofLine s.expression.toList first = .ok [s] := by
      have hs : ofLine (List.intercalate [','] (expressions [s])) first = .ok [s] :=
        ofLine_intercalate (List.forall_mem_singleton.mpr (h s List.mem_cons_self))
      rwa [expressions, List.map_singleton, List.intercalate_singleton] at hs
    have hothers : ofLines (first + 1) (expressions samplers) = .ok samplers :=
      ofLines_expressions fun s hs => h s (List.mem_cons_of_mem _ hs)
    rw [expressions, List.map_cons, ofLines, hline]
    simp only
    rw [← expressions, hothers]
    rfl

theorem toList_intercalate (sep : String) (samplers : SamplerMap) :
    (sep.intercalate (samplers.map Sampler.expression)).toList
      = List.intercalate sep.toList (expressions samplers) := by
  rw [String.toList_intercalate, List.map_map]
  rfl

/-- The second of two texts is read behind the lines of the first one. -/
theorem read_append (a b : String) :
    read (a ++ "\n" ++ b) = (read a).bind fun samplers =>
      ((read b).mapError (.below (endedLines (a ++ "\n").toList).length)).map (samplers ++ ·) := by
  have htext : (a ++ "\n" ++ b).toList = a.toList ++ '\n' :: b.toList := by
    simp [String.toList_append]
  have hlines : lines (a.toList ++ '\n' :: b.toList) = lines a.toList ++ lines b.toList :=
    splitOn_append '\n' a.toList b.toList
  have hended : endedLines (a ++ "\n").toList = lines a.toList := by
    rw [String.toList_append]
    exact endedLines_append a.toList
  rw [read, htext, hlines, ofLines_append, ofLines_add, hended]
  rfl

/-- **Sampler maps are read one behind the other, and again from their entries.** Let a text be read
as a sampler map. If another text follows on the next line, its samplers follow, or its error, with
the lines of the first text counted in. The entries of the map can be put on lines of their own, or
on one line with commas, and are read as the same map. -/
theorem read_composes {a : String} (ha : read a = .ok samplers) (b : String) :
    (∀ others, read b = .ok others → read (a ++ "\n" ++ b) = .ok (samplers ++ others)) ∧
    (∀ e, read b = .error e → read (a ++ "\n" ++ b)
      = .error (e.below (endedLines (a ++ "\n").toList).length)) ∧
    read ("\n".intercalate (samplers.map Sampler.expression)) = .ok samplers ∧
    read (",".intercalate (samplers.map Sampler.expression)) = .ok samplers := by
  have hgiven := given_of_read ha
  have hends : ∀ e ∈ expressions samplers, '\n' ∉ e := fun e he =>
    (isEntry_of_mem_expressions hgiven he).lineEnd
  refine ⟨fun others hb => ?_, fun e hb => ?_, ?_, ?_⟩
  · rw [read_append, ha, hb]
    rfl
  · rw [read_append, ha, hb]
    rfl
  · rw [read, toList_intercalate]
    cases samplers with
    | nil => rfl
    | cons s samplers =>
      have hlines : lines (List.intercalate ['\n'] (expressions (s :: samplers)))
          = expressions (s :: samplers) :=
        splitOn_intercalate (List.cons_ne_nil _ _) hends
      exact (congrArg (ofLines 1) hlines).trans (ofLines_expressions hgiven)
  · have hend : '\n' ∉ List.intercalate [','] (expressions samplers) :=
      not_mem_intercalate (by decide) hends
    have hlines : lines (List.intercalate [','] (expressions samplers))
        = [List.intercalate [','] (expressions samplers)] := splitOn_of_not_mem hend
    have hcommas : ",".toList = [','] := rfl
    rw [read, toList_intercalate, hcommas, hlines, ofLines, ofLine_intercalate hgiven]
    simp [ofLines, Except.map]

/-- A map with a comment and blanks, in front of a line that is none. -/
theorem read_composes_nearest :
    read "0x10 | 2, 7 // nearest\r\n\n 7" = .ok [⟨18, "0x10 | 2"⟩, ⟨7, "7"⟩, ⟨7, "7"⟩] ∧
    read "5\nCLK_FILTER" = .error ⟨2, .unknownFlag "CLK_FILTER"⟩ ∧
    read ("0x10 | 2, 7 // nearest\r\n\n 7" ++ "\n" ++ "5\nCLK_FILTER")
      = .error ⟨5, .unknownFlag "CLK_FILTER"⟩ ∧
    read (",".intercalate ["0x10 | 2", "7", "7"])
      = .ok [⟨18, "0x10 | 2"⟩, ⟨7, "7"⟩, ⟨7, "7"⟩] := by
  have hmap : read "0x10 | 2, 7 // nearest\r\n\n 7"
      = .ok [⟨18, "0x10 | 2"⟩, ⟨7, "7"⟩, ⟨7, "7"⟩] := by
    decide +kernel
  have hother : read "5\nCLK_FILTER" = .error ⟨2, .unknownFlag "CLK_FILTER"⟩ := by
    decide +kernel
  obtain ⟨-, herror, -, hcommas⟩ := read_composes hmap "5\nCLK_FILTER"
  refine ⟨hmap, hother, (herror _ hother).trans ?_, hcommas⟩
  decide +kernel

end SamplerMap

end ResourceBinding
