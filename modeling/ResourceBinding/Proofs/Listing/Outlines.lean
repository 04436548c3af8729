import ResourceBinding.Proofs.Listing.Functions

/-!
# Written functions are met again

The first turn over the text of written functions meets each of them: it reads the signature as it
was written, on the line where it stands, and steps over the body
(`Reader.exists_outlinesWithin`).
-/

namespace ResourceBinding

open Piece

/-- What the first turn keeps of a written function. -/
structure Outline.IsOf (w : WrittenFunction) (o : Outline) : Prop where
  signature : ∃ line, o.signature = w.signature.at line
  declaration : w.body = none → o.body = none
  definition : ∀ b, w.body = some b → ∃ line close rest last,
    o.body = some ⟨⟨.punct '{', line⟩ :: (locate (line + 1) (b.pieces 2) ++
      ⟨.punct '}', close⟩ :: rest), last⟩ ∧ line + 1 + lineCount (b.pieces 2) ≤ close

namespace WrittenFunction

variable {w : WrittenFunction} {ws : List WrittenFunction}

/-- The tokens of a function that is only declared. -/
theorem locate_pieces_of_none (h : w.signature.Readable) (hb : w.body = none) (line : Nat)
    (rest : List Piece) : locate line (w.pieces ++ rest)
      = onLine line w.signature.pieces ++ locate (line + 1) rest := by
  have hsplit : w.pieces ++ rest = w.signature.pieces ++ .newline :: rest := by
    simp [pieces, hb]
  rw [hsplit]
  exact locate_of_newline_not_mem line h.newline_not_mem _

/-- The tokens of a function with a body. -/
theorem locate_pieces_of_some (h : w.signature.Readable) {b : WrittenBlock} (hb : w.body = some b)
    (line : Nat) (rest : List Piece) :
    let close := line + 1 + lineCount (b.pieces 2)
    locate line (w.pieces ++ rest)
      = onLine line w.signature.pieces ++ ⟨.punct '{', line⟩ ::
        (locate (line + 1) (b.pieces 2) ++ ⟨.punct '}', close⟩ :: locate (close + 1) rest) := by
  have hsplit : w.pieces ++ rest = w.signature.pieces ++ .gap :: .punct '{' :: .newline ::
      (b.pieces 2 ++ .punct '}' :: .newline :: rest) := by
    simp [pieces, hb]
  rw [hsplit, locate_of_newline_not_mem line h.newline_not_mem]
  change _ ++ ⟨.punct '{', line⟩ :: locate (line + 1) (b.pieces 2 ++ _) = _
  rw [locate_append]
  rfl

/-- A signature starts with a word, which goes on with no signature. -/
theorem exists_word_of_signature (s : Signature) (line : Nat) :
    ∃ word rest, onLine line s.pieces = ⟨.word word, line⟩ :: rest ∧ word ≠ "pure" := by
  have hhead : ∃ word rest, onLine line s.headPieces = ⟨.word word, line⟩ :: rest ∧
      word ≠ "pure" := by
    unfold Signature.headPieces
    cases s.isDeclaration <;> cases s.convention
    · exact ⟨"fn", _, rfl, by decide⟩
    · exact ⟨"kernel", _, rfl, by decide⟩
    · exact ⟨"declare", _, rfl, by decide⟩
    · exact ⟨"declare", _, rfl, by decide⟩
  obtain ⟨word, rest, hhead, hword⟩ := hhead
  simp only [Signature.pieces, onLine_append, List.append_assoc, hhead, List.cons_append]
  exact ⟨word, _, rfl, hword⟩

/-- The first token of functions, if there is one, is a word that goes on with no signature. -/
theorem exists_word_of_cons (h : w.signature.Readable) (first : Bool) (line : Nat)
    (ws : List WrittenFunction) : ∃ word rest line',
      locate line (piecesEach first (w :: ws)) = ⟨.word word, line'⟩ :: rest ∧ word ≠ "pure" := by
  have hfunction : ∀ line rest, ∃ word tokens,
      locate line (w.pieces ++ rest) = ⟨.word word, line⟩ :: tokens ∧ word ≠ "pure" := by
    intro line rest
    obtain ⟨word, others, hothers, hword⟩ := exists_word_of_signature w.signature line
    cases hb : w.body with
    | none =>
      rw [locate_pieces_of_none h hb, hothers]
      exact ⟨word, _, rfl, hword⟩
    | some b =>
      rw [locate_pieces_of_some h hb, hothers]
      exact ⟨word, _, rfl, hword⟩
  rw [piecesEach, List.append_assoc]
  split
  · obtain ⟨word, rest, htokens, hword⟩ := hfunction line (piecesEach false ws)
    exact ⟨word, rest, line, htokens, hword⟩
  · obtain ⟨word, rest, htokens, hword⟩ := hfunction (line + 1) (piecesEach false ws)
    exact ⟨word, rest, line + 1, htokens, hword⟩

theorem endsSignature_piecesEach (h : ∀ w ∈ ws, w.signature.Readable) (first : Bool) (line : Nat) :
    Reader.EndsSignature (locate line (piecesEach first ws)) := by
  cases ws with
  | nil => exact ⟨by simp [piecesEach, locate], by simp [piecesEach, locate]⟩
  | cons w ws =>
    obtain ⟨word, rest, line', htokens, hword⟩ :=
      exists_word_of_cons (h w List.mem_cons_self) first line ws
    rw [htokens]
    exact ⟨by simp, by simpa using hword⟩

end WrittenFunction

namespace Reader

variable {α β : Type} {x : Reader α} {f : α → Reader β} {a : α} {tokens rest : List Located}
  {w : WrittenFunction} {taken : List String}

/-- What has been read is handed on, at the same end of the text. -/
theorem Reads.run_bind (h : x.Reads tokens a rest) (f : α → Reader β) (last : Nat) :
    (x >>= f).run ⟨tokens, last⟩ = (f a).run ⟨rest, last⟩ := by
  rw [StateT.run_bind, h last]
  rfl

/-- A body is stepped over up to the brace that closes it. -/
theorem reads_skipBody {tokens : List Located} (h : afterBlock 0 tokens = some rest)
    (start line : Nat) : (skipBody start).Reads (⟨.punct '{', line⟩ :: tokens) () rest := by
  refine (reads_sign '{' line _).bind fun last => ?_
  have hget : (get : Reader Cursor).run ⟨tokens, last⟩ = pure (_, _) := rfl
  rw [StateT.run_bind, hget, pure_bind]
  dsimp only
  rw [h]
  rfl

/-- The signature of a new function is read as it was written, and then its body is stepped over, if
it has one. -/
theorem outline_run (hw : w.signature.Readable) (htaken : w.signature.name ∉ taken)
    (htokens : EndsSignature tokens) (line last : Nat) :
    (outline taken).run ⟨onLine line w.signature.pieces ++ tokens, last⟩
      = (if w.signature.isDeclaration then return ⟨w.signature.at line, none⟩
        else do
          let start ← get
          skipBody line
          return ⟨w.signature.at line, some start⟩ : Reader Outline).run ⟨tokens, last⟩ := by
  have hname : taken.contains (w.signature.at line).name = false := by
    simpa [Signature.at] using htaken
  have hline : Reader.line.Reads (onLine line w.signature.pieces ++ tokens) line
      (onLine line w.signature.pieces ++ tokens) := by
    obtain ⟨word, others, hword, -⟩ := WrittenFunction.exists_word_of_signature w.signature line
    rw [hword]
    exact reads_line _ _
  rw [outline, hline.run_bind, (reads_signature hw line htokens).run_bind]
  simp only [hname, Bool.false_eq_true, if_false]
  rfl

/-- **The outline of a written function is read**, and fewer tokens are left. -/
theorem exists_outline (hw : w.Legible) (htaken : w.signature.name ∉ taken) (line last : Nat)
    {rest : List Piece} (hrest : ∀ line, EndsSignature (locate line rest)) :
    ∃ o line', (outline taken).run ⟨locate line (w.pieces ++ rest), last⟩
        = .ok (o, ⟨locate line' rest, last⟩) ∧ o.IsOf w ∧
      (locate line' rest).length < (locate line (w.pieces ++ rest)).length := by
  cases hb : w.body with
  | none =>
    have hdeclaration : w.signature.isDeclaration = true := by
      rw [← hw.isDeclaration, hb]
      rfl
    have hlocate := WrittenFunction.locate_pieces_of_none hw.readable hb line rest
    obtain ⟨word, others, hword, -⟩ := WrittenFunction.exists_word_of_signature w.signature line
    refine ⟨⟨w.signature.at line, none⟩, line + 1, ?_, ⟨⟨line, rfl⟩, fun _ => rfl, fun b h => ?_⟩, ?_⟩
    · rw [hlocate, outline_run hw.readable htaken (hrest (line + 1)), if_pos hdeclaration]
      rfl
    · cases hb.symm.trans h
    · rw [hlocate, hword, List.cons_append, List.length_cons, List.length_append]
      omega
  | some b =>
    have hdeclaration : ¬ w.signature.isDeclaration = true := by
      rw [← hw.isDeclaration, hb]
      exact Bool.false_ne_true
    have hlocate := WrittenFunction.locate_pieces_of_some hw.readable hb line rest
    have hafter : afterBlock 0 (locate (line + 1) (b.pieces 2) ++
        ⟨.punct '}', line + 1 + lineCount (b.pieces 2)⟩ ::
          locate (line + 1 + lineCount (b.pieces 2) + 1) rest)
        = some (locate (line + 1 + lineCount (b.pieces 2) + 1) rest) := by
      rw [((hw.body b hb).balanced 2 _).afterBlock, afterBlock]
    have hskip := reads_skipBody hafter line line
    refine ⟨⟨w.signature.at line, some ⟨⟨.punct '{', line⟩ :: (locate (line + 1) (b.pieces 2) ++
        ⟨.punct '}', line + 1 + lineCount (b.pieces 2)⟩ ::
          locate (line + 1 + lineCount (b.pieces 2) + 1) rest), last⟩⟩,
      line + 1 + lineCount (b.pieces 2) + 1, ?_, ⟨⟨line, rfl⟩, fun h => ?_, fun b' h => ?_⟩, ?_⟩
    · rw [hlocate, outline_run hw.readable htaken ⟨by simp, by simp⟩, if_neg hdeclaration,
        StateT.run_bind]
      exact hskip.run_bind (fun _ => pure _) last
    · cases hb.symm.trans h
    · cases hb.symm.trans h
      exact ⟨line, _, _, last, rfl, Nat.le_refl _⟩
    · rw [hlocate]
      simp only [List.length_append, List.length_cons]
      omega

/-- **Each written function is met**, where their names differ. -/
theorem exists_outlinesWithin {ws : List WrittenFunction} (hws : ∀ w ∈ ws, w.Legible)
    (hnames : (ws.map (·.signature.name)).Nodup)
    (htaken : ∀ w ∈ ws, w.signature.name ∉ taken) (first : Bool) (line last : Nat) {n : Nat}
    (hn : (locate line (WrittenFunction.piecesEach first ws)).length < n) :
    ∃ os, (outlinesWithin n taken).run ⟨locate line (WrittenFunction.piecesEach first ws), last⟩
      = .ok (os, ⟨[], last⟩) ∧ List.Forall₂ (fun w o => o.IsOf w) ws os := by
  induction ws generalizing n taken first line with
  | nil =>
    obtain ⟨n, rfl⟩ := Nat.exists_eq_add_one_of_ne_zero (Nat.ne_zero_of_lt hn)
    exact ⟨[], rfl, .nil⟩
  | cons w ws ih =>
    have hw := hws w List.mem_cons_self
    have hothers := fun other hother => hws other (List.mem_cons_of_mem _ hother)
    obtain ⟨hfree, hnodup⟩ := List.nodup_cons.mp hnames
    obtain ⟨n, rfl⟩ := Nat.exists_eq_add_one_of_ne_zero (Nat.ne_zero_of_lt hn)
    -- The empty line in front of the function moves it down.
    obtain ⟨line₁, hline₁⟩ : ∃ line₁, locate line (WrittenFunction.piecesEach first (w :: ws))
        = locate line₁ (w.pieces ++ WrittenFunction.piecesEach false ws) := by
      rw [WrittenFunction.piecesEach, List.append_assoc]
      split
      · exact ⟨line, rfl⟩
      · exact ⟨line + 1, rfl⟩
    obtain ⟨word, rest, line', hword, -⟩ :=
      WrittenFunction.exists_word_of_cons hw.readable first line ws
    obtain ⟨o, line₂, hrun, ho, hlt⟩ := exists_outline hw (htaken w List.mem_cons_self) line₁ last
      fun line => WrittenFunction.endsSignature_piecesEach (fun w hw => (hothers w hw).readable)
        false line
    have hname : o.signature.name = w.signature.name := by
      obtain ⟨line, ho⟩ := ho.signature
      rw [ho]
      rfl
    rw [hline₁] at hn hword ⊢
    have htaken' : ∀ other ∈ ws, other.signature.name ∉ o.signature.name :: taken := by
      intro other hother hmem
      rcases List.mem_cons.mp hmem with heq | hmem
      · exact hfree (List.mem_map.mpr ⟨other, hother, heq.trans hname⟩)
      · exact htaken other (List.mem_cons_of_mem _ hother) hmem
    obtain ⟨os, hos, hall⟩ := ih hothers hnodup htaken' false line₂ (n := n) (by omega)
    refine ⟨o :: os, ?_, .cons ho hall⟩
    rw [outlinesWithin, (reads_peek _).run_bind, hword]
    simp only [List.head?_cons, Option.map_some, Option.isNone_some, Bool.false_eq_true, if_false]
    rw [← hword, StateT.run_bind, hrun]
    change ((outlinesWithin n (o.signature.name :: taken) >>= fun others => pure (o :: others) :
      Reader (List Outline)).run ⟨locate line₂ _, last⟩) = _
    rw [StateT.run_bind, hos]
    rfl

end Reader

end ResourceBinding
