import ResourceBinding.Proofs.Listing.Cursor
import ResourceBinding.Proofs.Listing.Signature
import ResourceBinding.Proofs.Listing.Tokens
import ResourceBinding.Proofs.Listing.Written

/-!
# Written syntax is legible

What is laid out of a signature or of a body has readable tokens, none of which runs into the next
one (`Signature.legible_pieces`, `WrittenBlock.legible_pieces`), and the braces of a body match
(`afterBlock_pieces`).
-/

namespace ResourceBinding

namespace Piece

variable {p : Piece} {t : Token} {pieces rest : List Piece} {items : List (List Piece)}

/-! ## Legible pieces -/

/-- The first piece, if there is one, ends the token before it. -/
def StartsClosed (pieces : List Piece) : Prop :=
  ∀ q ∈ pieces.head?, q.ends

theorem startsClosed_nil : StartsClosed [] :=
  fun _ hq => by cases hq

theorem startsClosed_cons (h : p.ends) : StartsClosed (p :: rest) := by
  intro q hq
  cases hq
  exact h

theorem StartsClosed.append (h : StartsClosed pieces) (h' : StartsClosed rest) :
    StartsClosed (pieces ++ rest) := by
  cases pieces with
  | nil => exact h'
  | cons p pieces => exact h

theorem legible_nil : Legible [] :=
  ⟨fun _ h => absurd h List.not_mem_nil, .nil⟩

/-- A piece that no token goes on with. -/
theorem Legible.cons (h : Legible rest) (hp : ∀ t, p = token t → t.Readable ∧ t.isClosed) :
    Legible (p :: rest) := by
  refine ⟨fun t ht => ?_, List.isChain_cons.mpr ⟨fun q _ t ht hopen => ?_, h.separates⟩⟩
  · rcases List.mem_cons.mp ht with ht | ht
    · exact (hp t ht.symm).1
    · exact h.readable t ht
  · exact absurd (hp t ht).2 (by simp [hopen])

theorem Legible.punct (h : Legible rest) {c : Char} (hc : c ∈ punctuation) :
    Legible (.punct c :: rest) :=
  h.cons fun t ht => by
    cases ht
    exact ⟨hc, rfl⟩

theorem Legible.arrow (h : Legible rest) : Legible (.token .arrow :: rest) :=
  h.cons fun t ht => by
    cases ht
    exact ⟨trivial, rfl⟩

theorem Legible.space (h : Legible rest) (n : Nat) : Legible (.space n :: rest) :=
  h.cons fun t ht => by cases ht

theorem Legible.gap (h : Legible rest) : Legible (.gap :: rest) :=
  h.space 1

theorem Legible.newline (h : Legible rest) : Legible (.newline :: rest) :=
  h.cons fun t ht => by cases ht

/-- A token, with a piece behind it that ends it. -/
theorem Legible.token (h : Legible rest) (ht : t.Readable) (hrest : StartsClosed rest) :
    Legible (.token t :: rest) := by
  refine ⟨fun u hu => ?_, List.isChain_cons.mpr ⟨fun q hq _ _ _ => hrest q hq, h.separates⟩⟩
  rcases List.mem_cons.mp hu with hu | hu
  · cases hu
    exact ht
  · exact h.readable u hu

theorem Legible.word (h : Legible rest) {w : String} (hw : isWord w.toList)
    (hrest : StartsClosed rest) : Legible (.word w :: rest) :=
  Legible.token (t := .word w) h hw hrest

theorem Legible.valueName (h : Legible rest) {name : String} (hname : IsName name)
    (hrest : StartsClosed rest) : Legible (.valueName name :: rest) :=
  Legible.token (t := .valueName name) h hname hrest

theorem Legible.functionName (h : Legible rest) {name : String} (hname : IsName name)
    (hrest : StartsClosed rest) : Legible (.functionName name :: rest) :=
  Legible.token (t := .functionName name) h hname hrest

theorem Legible.count (h : Legible rest) {n : Nat} (hn : n < 0x100000000)
    (hrest : StartsClosed rest) : Legible (.count n :: rest) := by
  have hrange : -0x8000000000000000 ≤ (n : Int) ∧ (n : Int) < 0x8000000000000000 := by omega
  exact Legible.token (t := .int n) h hrange hrest

theorem Legible.append (h : Legible pieces) (h' : Legible rest) (hrest : StartsClosed rest) :
    Legible (pieces ++ rest) := by
  refine ⟨fun t ht => (List.mem_append.mp ht).elim (h.readable t) (h'.readable t), ?_⟩
  exact List.isChain_append.mpr ⟨h.separates, h'.separates, fun _ _ q hq _ _ _ => hrest q hq⟩

theorem legible_commaSeparated (h : ∀ item ∈ items, Legible item) :
    Legible (commaSeparated items) := by
  induction items with
  | nil => exact legible_nil
  | cons item items ih =>
    have hitem := h item List.mem_cons_self
    have hitems := ih fun other hother => h other (List.mem_cons_of_mem _ hother)
    cases items with
    | nil =>
      rw [commaSeparated_singleton]
      exact hitem
    | cons second items =>
      rw [commaSeparated_cons_cons]
      exact hitem.append (hitems.gap.punct (by decide)) (startsClosed_cons rfl)

theorem mem_commaSeparated (h : p ∈ commaSeparated items) :
    p = .punct ',' ∨ p = .gap ∨ ∃ item ∈ items, p ∈ item := by
  induction items with
  | nil => cases h
  | cons item items ih =>
    cases items with
    | nil =>
      rw [commaSeparated_singleton] at h
      exact .inr (.inr ⟨item, List.mem_cons_self, h⟩)
    | cons second items =>
      rw [commaSeparated_cons_cons, List.mem_append, List.mem_append] at h
      rcases h with h | h | h
      · exact .inr (.inr ⟨item, List.mem_cons_self, h⟩)
      · simp only [List.mem_cons, List.not_mem_nil, or_false] at h
        exact h.imp_right .inl
      · rcases ih h with h | h | ⟨other, hother, h⟩
        · exact .inl h
        · exact .inr (.inl h)
        · exact .inr (.inr ⟨other, List.mem_cons_of_mem _ hother, h⟩)

theorem newline_not_mem_commaSeparated (h : ∀ item ∈ items, newline ∉ item) :
    newline ∉ commaSeparated items := by
  intro hmem
  rcases mem_commaSeparated hmem with h' | h' | ⟨item, hitem, h'⟩
  · cases h'
  · cases h'
  · exact h item hitem h'

/-! ## Lines -/

theorem locate_of_newline_not_mem (line : Nat) (h : newline ∉ pieces) (others : List Piece) :
    locate line (pieces ++ others) = onLine line pieces ++ locate line others := by
  induction pieces with
  | nil => rfl
  | cons p pieces ih =>
    have hrest := ih fun hmem => h (List.mem_cons_of_mem _ hmem)
    cases p with
    | token t => exact congrArg (⟨t, line⟩ :: ·) hrest
    | space n => exact hrest
    | newline => exact absurd List.mem_cons_self h

/-- The tokens of a line, and those of the lines below. -/
theorem locate_layOutLine (line indent : Nat) (h : newline ∉ pieces) (others : List Piece) :
    locate line (layOutLine indent pieces ++ others)
      = onLine line pieces ++ locate (line + 1) others := by
  have hline : layOutLine indent pieces ++ others
      = .space indent :: (pieces ++ .newline :: others) := by
    simp [layOutLine]
  rw [hline]
  exact locate_of_newline_not_mem line h (.newline :: others)

theorem lineCount_append (pieces others : List Piece) :
    lineCount (pieces ++ others) = lineCount pieces + lineCount others :=
  List.count_append

theorem lineCount_layOutLine (indent : Nat) (h : newline ∉ pieces) :
    lineCount (layOutLine indent pieces) = 1 := by
  rw [layOutLine, lineCount, List.cons_append, List.count_cons_of_ne (by simp), List.count_append,
    List.count_eq_zero_of_not_mem h]
  rfl

theorem Legible.layOutLine (h : Legible pieces) (indent : Nat) (h' : Legible rest) :
    Legible (layOutLine indent pieces ++ rest) := by
  have hbehind : Legible (pieces ++ .newline :: rest) := h.append h'.newline (startsClosed_cons rfl)
  rw [ResourceBinding.layOutLine]
  simpa using hbehind.space indent

end Piece

open Piece

/-! ## Types and signatures -/

theorem Scalar.HasWord.isWord {s : Scalar} (h : s.HasWord) : isWord s.word.toList := by
  rcases h.eq with rfl | rfl | rfl | rfl <;> rfl

theorem WrittenType.Readable.legible {w : WrittenType} (h : w.Readable) : Legible w.pieces := by
  -- What a type ends in.
  have hclose : Legible [.punct '>'] := legible_nil.punct (by decide)
  induction h with
  | scalar hs => exact legible_nil.word hs.isWord startsClosed_nil
  | @vector size s hs =>
    have hsize : size.count < 0x100000000 := by cases size <;> decide
    have hbehind := (hclose.word hs.isWord (startsClosed_cons rfl)).gap.punct (c := ',') (by decide)
    exact ((hbehind.count hsize (startsClosed_cons rfl)).punct (by decide)).word (by decide)
      (startsClosed_cons rfl)
  | @array element count helement hcount ih =>
    cases count with
    | none =>
      have hbehind := ih.append hclose (startsClosed_cons rfl)
      simpa [WrittenType.pieces] using
        (hbehind.punct (c := '<') (by decide)).word (w := "array") (by decide) (startsClosed_cons rfl)
    | some n =>
      have hcount : Legible [.punct ',', .gap, .count n, .punct '>'] :=
        (hclose.count (hcount n rfl) (startsClosed_cons rfl)).gap.punct (by decide)
      have hbehind := ih.append hcount (startsClosed_cons rfl)
      simpa [WrittenType.pieces] using
        (hbehind.punct (c := '<') (by decide)).word (w := "array") (by decide) (startsClosed_cons rfl)
  | @struct name members hname hmembers ih =>
    have hitems : Legible (commaSeparated (WrittenType.piecesEach members) ++ [.punct '}']) := by
      refine (legible_commaSeparated fun item hitem => ?_).append (legible_nil.punct (by decide))
        (startsClosed_cons rfl)
      rw [Reader.piecesEach_eq_map] at hitem
      obtain ⟨m, hm, rfl⟩ := List.mem_map.mp hitem
      exact ih m hm
    have hopen := hitems.punct (c := '{') (by decide)
    cases name with
    | none =>
      simpa [WrittenType.pieces] using
        hopen.word (w := "struct") (by decide) (startsClosed_cons rfl)
    | some name =>
      simpa [WrittenType.pieces] using
        (hopen.valueName (hname name rfl) (startsClosed_cons rfl)).gap.word (w := "struct") (by decide)
          (startsClosed_cons rfl)
  | @pointer space pointee hpointee ih =>
    have hspace : isWord space.word.toList := by cases space <;> decide
    have hbehind := (ih.append hclose (startsClosed_cons rfl)).gap.punct (c := ',') (by decide)
    simpa [WrittenType.pieces] using
      ((hbehind.word hspace (startsClosed_cons rfl)).punct (c := '<') (by decide)).word (w := "ptr")
        (by decide) (startsClosed_cons rfl)
  | sampler => exact legible_nil.word (by decide) startsClosed_nil
  | @image access =>
    have haccess : isWord access.word.toList := by cases access <;> decide
    exact ((hclose.word haccess (startsClosed_cons rfl)).punct (by decide)).word (by decide)
      (startsClosed_cons rfl)

theorem WrittenType.Readable.newline_not_mem {w : WrittenType} (h : w.Readable) :
    newline ∉ w.pieces := by
  induction h with
  | @array element count helement hcount ih =>
    cases count <;> simpa [WrittenType.pieces, word, punct, gap, Piece.count] using ih
  | @struct name members hname hmembers ih =>
    have hitems : newline ∉ commaSeparated (WrittenType.piecesEach members) := by
      rw [Reader.piecesEach_eq_map]
      refine newline_not_mem_commaSeparated fun item hitem => ?_
      obtain ⟨m, hm, rfl⟩ := List.mem_map.mp hitem
      exact ih m hm
    cases name <;> simpa [WrittenType.pieces, word, punct, gap, valueName] using hitems
  | pointer hpointee ih => simpa [WrittenType.pieces, word, punct, gap] using ih
  | _ => simp [WrittenType.pieces, word, punct, gap, Piece.count]

/-- The text of a type is one line of tokens. -/
theorem WrittenType.Readable.readTokens_render {w : WrittenType} (h : w.Readable) :
    readTokens (render w.pieces) = .ok (onLine 1 w.pieces) := by
  have hlocate := locate_of_newline_not_mem 1 h.newline_not_mem []
  rw [List.append_nil, show locate 1 [] = [] from rfl, List.append_nil] at hlocate
  rw [ResourceBinding.readTokens_render h.legible, hlocate]

/-- **Types with the same text are the same.** -/
theorem WrittenType.Readable.eq_of_render {w w' : WrittenType} (h : w.Readable) (h' : w'.Readable)
    (heq : render w.pieces = render w'.pieces) : w = w' := by
  have htokens : onLine 1 w.pieces = onLine 1 w'.pieces :=
    Except.ok.inj (h.readTokens_render.symm.trans (heq ▸ h'.readTokens_render))
  -- Both are what is read from these tokens.
  have hread := Reader.reads_type h 1 []
  rw [htokens] at hread
  exact hread.unique (Reader.reads_type h' 1 [])

theorem WrittenMark.Readable.legible {d : WrittenMark} (h : d.Readable) (hd : IsName d.accessor) :
    Legible d.pieces := by
  have hitems : Legible (commaSeparated
      [[.functionName d.accessor], [.count d.set], [.count d.binding], [.count d.depth]]) := by
    refine legible_commaSeparated fun item hitem => ?_
    simp only [List.mem_cons, List.not_mem_nil, or_false] at hitem
    rcases hitem with rfl | rfl | rfl | rfl
    · exact legible_nil.functionName hd startsClosed_nil
    · exact legible_nil.count h.set_lt startsClosed_nil
    · exact legible_nil.count h.binding_lt startsClosed_nil
    · exact legible_nil.count h.depth_lt startsClosed_nil
  have hbehind := hitems.append (legible_nil.punct (c := ')') (by decide)) (startsClosed_cons rfl)
  simpa [WrittenMark.pieces] using
    ((hbehind.punct (c := '(') (by decide)).word (w := "direct") (by decide)
      (startsClosed_cons rfl)).gap

theorem WrittenMark.newline_not_mem (d : WrittenMark) : newline ∉ d.pieces := by
  have hitems : newline ∉ commaSeparated
      [[.functionName d.accessor], [.count d.set], [.count d.binding], [.count d.depth]] := by
    refine newline_not_mem_commaSeparated fun item hitem => ?_
    simp only [List.mem_cons, List.not_mem_nil, or_false] at hitem
    rcases hitem with rfl | rfl | rfl | rfl <;> simp [Piece.functionName, Piece.count]
  simpa [WrittenMark.pieces, word, punct, gap] using hitems

theorem WrittenParam.Readable.legible {isDeclaration : Bool} {p : WrittenParam}
    (h : p.Readable isDeclaration) (hmark : ∀ d, p.direct = some d → IsName d.accessor) :
    Legible p.pieces := by
  have hbehind : Legible (p.type.pieces ++ WrittenMark.piecesOf p.direct) := by
    cases hd : p.direct with
    | none => simpa [WrittenMark.piecesOf] using h.type.legible
    | some d =>
      exact h.type.legible.append ((h.mark d hd).legible (hmark d hd)) (startsClosed_cons rfl)
  cases hname : p.name with
  | none => simpa [WrittenParam.pieces, hname] using hbehind
  | some name =>
    simpa [WrittenParam.pieces, hname] using
      (hbehind.gap.punct (c := ':') (by decide)).valueName (h.name name hname) (startsClosed_cons rfl)

theorem WrittenParam.Readable.newline_not_mem {isDeclaration : Bool} {p : WrittenParam}
    (h : p.Readable isDeclaration) : newline ∉ p.pieces := by
  have hmark : newline ∉ WrittenMark.piecesOf p.direct := by
    cases p.direct with
    | none => exact List.not_mem_nil
    | some d => exact d.newline_not_mem
  have htype := h.type.newline_not_mem
  cases hname : p.name <;>
    simp [WrittenParam.pieces, hname, valueName, punct, gap, hmark, htype]

namespace Signature

theorem legible_headPieces (s : Signature) : Legible s.headPieces := by
  unfold headPieces
  cases s.isDeclaration <;> cases s.convention
  · exact legible_nil.word (by decide) startsClosed_nil
  · exact legible_nil.word (by decide) startsClosed_nil
  · exact legible_nil.word (by decide) startsClosed_nil
  · exact (legible_nil.word (by decide) startsClosed_nil).gap.word (by decide) (startsClosed_cons rfl)

theorem newline_not_mem_headPieces (s : Signature) : newline ∉ s.headPieces := by
  unfold headPieces
  cases s.isDeclaration <;> cases s.convention <;> simp [word, gap]

variable {s : Signature}

/-- **The text of a signature can be read.** -/
theorem Readable.legible (h : s.Readable)
    (hmarks : ∀ p ∈ s.params, ∀ d, p.direct = some d → IsName d.accessor) : Legible s.pieces := by
  have hflag : Legible (if s.isPure then [.gap, .word "pure"] else []) ∧
      StartsClosed (if s.isPure then [.gap, .word "pure"] else []) := by
    split
    · exact ⟨(legible_nil.word (by decide) startsClosed_nil).gap, startsClosed_cons rfl⟩
    · exact ⟨legible_nil, startsClosed_nil⟩
  have hparams : Legible (commaSeparated (s.params.map WrittenParam.pieces)) := by
    refine legible_commaSeparated fun item hitem => ?_
    obtain ⟨p, hp, rfl⟩ := List.mem_map.mp hitem
    exact (h.params p hp).legible (hmarks p hp)
  -- The signature up to its parameters, in front of the result and the flag.
  have hfront : ∀ {rest}, Legible rest → Legible (s.headPieces ++ [.gap, .functionName s.name,
      .punct '('] ++ commaSeparated (s.params.map WrittenParam.pieces) ++ .punct ')' :: rest) := by
    intro rest hrest
    have hbehind := hparams.append (hrest.punct (c := ')') (by decide)) (startsClosed_cons rfl)
    have hname := (hbehind.punct (c := '(') (by decide)).functionName h.name (startsClosed_cons rfl)
    simpa using s.legible_headPieces.append hname.gap (startsClosed_cons rfl)
  cases hr : s.result with
  | none => simpa [Signature.pieces, hr] using hfront hflag.1
  | some type =>
    have htype := (h.result type hr).legible.append hflag.1 hflag.2
    simpa [Signature.pieces, hr] using hfront htype.gap.arrow.gap

theorem Readable.newline_not_mem (h : s.Readable) : newline ∉ s.pieces := by
  have hparams : newline ∉ commaSeparated (s.params.map WrittenParam.pieces) := by
    refine newline_not_mem_commaSeparated fun item hitem => ?_
    obtain ⟨p, hp, rfl⟩ := List.mem_map.mp hitem
    exact (h.params p hp).newline_not_mem
  have hhead := s.newline_not_mem_headPieces
  cases hr : s.result with
  | none => cases s.isPure <;> simp [Signature.pieces, hr, hhead, hparams, functionName, word, gap, punct]
  | some type =>
    have htype := (h.result type hr).newline_not_mem
    cases s.isPure <;>
      simp [Signature.pieces, hr, hhead, hparams, htype, functionName, word, gap, punct]

end Signature

end ResourceBinding
