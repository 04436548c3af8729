import ResourceBinding.Proofs.Listing.Legible
import ResourceBinding.Proofs.Reading.Braces

/-!
# The lines of a body

A legible body has values for operands and names for what it defines and calls. Its lines can be
read (`WrittenBlock.Legible.pieces`), and its braces match (`WrittenBlock.Legible.balanced`).
-/

namespace ResourceBinding

open Piece

/-! ## Legible bodies -/

/-- The token can stand for a value. -/
structure Token.IsValue (t : Token) : Prop where
  operand : t.isOperand
  readable : t.Readable

structure WrittenDefinition.Legible (d : WrittenDefinition) : Prop where
  name : IsName d.name
  operation : isWord d.operation.toList
  operands : ∀ t ∈ d.operands, t.IsValue

def WrittenStmt.Legible : WrittenStmt → Prop
  | store pointer value => pointer.IsValue ∧ value.IsValue
  | call result callee arguments =>
    (∀ name, result = some name → IsName name) ∧ IsName callee ∧ ∀ t ∈ arguments, t.IsValue
  | leave => True
  | ret value => ∀ t, value = some t → t.IsValue

def WrittenBlock.Legible : WrittenBlock → Prop
  | nil => True
  | define first rest => first.Legible ∧ rest.Legible
  | cons head rest => head.Legible ∧ rest.Legible
  | branch condition accept reject rest =>
    condition.IsValue ∧ accept.Legible ∧ reject.Legible ∧ rest.Legible
  | loop body rest => body.Legible ∧ rest.Legible

/-! ## Lines -/

theorem legible_listed {ts : List Token} (h : ∀ t ∈ ts, t.IsValue) : Piece.Legible (listed ts) := by
  refine legible_commaSeparated fun item hitem => ?_
  obtain ⟨t, ht, rfl⟩ := List.mem_map.mp hitem
  exact legible_nil.token (h t ht).readable startsClosed_nil

theorem WrittenDefinition.Legible.pieces {d : WrittenDefinition} (h : d.Legible) :
    Piece.Legible d.pieces := by
  have hoperands := (legible_listed h.operands).gap.word h.operation (startsClosed_cons rfl)
  simpa [WrittenDefinition.pieces, defined] using
    (hoperands.gap.punct (c := '=') (by decide)).gap.valueName h.name (startsClosed_cons rfl)

theorem WrittenStmt.Legible.pieces {s : WrittenStmt} (h : s.Legible) : Piece.Legible s.pieces := by
  cases s with
  | store pointer value =>
    have hoperands : ∀ t ∈ [pointer, value], t.IsValue :=
      List.forall_mem_cons.mpr ⟨h.1, List.forall_mem_singleton.mpr h.2⟩
    exact (legible_listed hoperands).gap.word (by decide) (startsClosed_cons rfl)
  | call result callee arguments =>
    obtain ⟨hresult, hcallee, harguments⟩ := h
    have hbehind := ((legible_listed harguments).append (legible_nil.punct (c := ')') (by decide))
      (startsClosed_cons rfl)).punct (c := '(') (by decide)
    have hcall := (hbehind.functionName hcallee (startsClosed_cons rfl)).gap.word (w := "call")
      (by decide) (startsClosed_cons rfl)
    cases result with
    | none => simpa [WrittenStmt.pieces] using hcall
    | some name =>
      simpa [WrittenStmt.pieces, defined] using
        (hcall.gap.punct (c := '=') (by decide)).gap.valueName (hresult name rfl)
          (startsClosed_cons rfl)
  | leave => exact legible_nil.word (by decide) startsClosed_nil
  | ret value =>
    cases value with
    | none => exact legible_nil.word (by decide) startsClosed_nil
    | some t =>
      exact (legible_nil.token (h t rfl).readable startsClosed_nil).gap.word (by decide)
        (startsClosed_cons rfl)

/-- **The lines of a legible block can be read.** -/
theorem WrittenBlock.Legible.pieces_append {w : WrittenBlock} (h : w.Legible) :
    ∀ (indent : Nat) {rest : List Piece}, Piece.Legible rest →
      Piece.Legible (w.pieces indent ++ rest) := by
  have hclose : Piece.Legible [.punct '}'] := legible_nil.punct (by decide)
  have hopen : Piece.Legible [.gap, .punct '{'] := (legible_nil.punct (by decide)).gap
  induction w with
  | nil => exact fun _ _ hrest => hrest
  | define first rest ih =>
    intro indent rest hrest
    rw [WrittenBlock.pieces, List.append_assoc]
    exact h.1.pieces.layOutLine indent (ih h.2 indent hrest)
  | cons head rest ih =>
    intro indent rest hrest
    rw [WrittenBlock.pieces, List.append_assoc]
    exact h.1.pieces.layOutLine indent (ih h.2 indent hrest)
  | branch condition accept reject rest iha ihr ih =>
    intro indent rest hrest
    obtain ⟨hcondition, haccept, hreject, hbehind⟩ := h
    have hif : Piece.Legible [.word "if", .gap, .token condition, .gap, .punct '{'] :=
      (hopen.token hcondition.readable (startsClosed_cons rfl)).gap.word (by decide)
        (startsClosed_cons rfl)
    have helse : Piece.Legible [.punct '}', .gap, .word "else", .gap, .punct '{'] :=
      ((hopen.word (by decide) (startsClosed_cons rfl)).gap).punct (by decide)
    have hend := hclose.layOutLine indent (ih hbehind indent hrest)
    simp only [WrittenBlock.pieces, List.append_assoc]
    refine hif.layOutLine indent (iha haccept _ ?_)
    split
    · exact hend
    · rw [List.append_assoc]
      exact helse.layOutLine indent (ihr hreject _ hend)
  | loop body rest ihb ih =>
    intro indent rest hrest
    have hloop : Piece.Legible [.word "loop", .gap, .punct '{'] :=
      hopen.word (by decide) (startsClosed_cons rfl)
    simp only [WrittenBlock.pieces, List.append_assoc]
    exact hloop.layOutLine indent
      (ihb h.1 _ (hclose.layOutLine indent (ih h.2 indent hrest)))

/-- The pieces stay on their line, and there is no brace among them. -/
def Piece.StaysInside (pieces : List Piece) : Prop :=
  ∀ p ∈ pieces, p ≠ newline ∧ p ≠ .punct '{' ∧ p ≠ .punct '}'

theorem Piece.StaysInside.newline_not_mem {pieces : List Piece} (h : StaysInside pieces) :
    newline ∉ pieces :=
  fun hmem => (h _ hmem).1 rfl

theorem Piece.StaysInside.append {pieces others : List Piece} (h : StaysInside pieces)
    (h' : StaysInside others) : StaysInside (pieces ++ others) :=
  List.forall_mem_append.mpr ⟨h, h'⟩

theorem staysInside_listed {ts : List Token} (h : ∀ t ∈ ts, t.IsValue) :
    StaysInside (listed ts) := by
  intro p hp
  rcases mem_commaSeparated hp with rfl | rfl | ⟨item, hitem, hp⟩
  · decide
  · decide
  · obtain ⟨t, ht, rfl⟩ := List.mem_map.mp hitem
    obtain rfl := List.mem_singleton.mp hp
    have hoperand := (h t ht).operand
    refine ⟨by simp, ?_, ?_⟩ <;>
    · intro heq
      cases heq
      cases hoperand

theorem staysInside_defined (name : String) : StaysInside (defined name) := by
  simp [StaysInside, defined, valueName, gap, punct]

theorem WrittenDefinition.Legible.staysInside {d : WrittenDefinition} (h : d.Legible) :
    StaysInside d.pieces := by
  have hword : StaysInside [.word d.operation, .gap] := by simp [StaysInside, word, gap, punct]
  exact ((staysInside_defined d.name).append hword).append (staysInside_listed h.operands)

theorem WrittenStmt.Legible.staysInside {s : WrittenStmt} (h : s.Legible) :
    StaysInside s.pieces := by
  cases s with
  | store pointer value =>
    have hword : StaysInside [.word "store", .gap] := by simp [StaysInside, word, gap, punct]
    exact hword.append (staysInside_listed (List.forall_mem_cons.mpr
      ⟨h.1, List.forall_mem_singleton.mpr h.2⟩))
  | call result callee arguments =>
    have hfront : StaysInside [.word "call", .gap, .functionName callee, .punct '('] := by
      simp [StaysInside, word, gap, punct, functionName]
    have hclose : StaysInside [.punct ')'] := by simp [StaysInside, punct]
    have hcall := (hfront.append (staysInside_listed h.2.2)).append hclose
    cases result with
    | none => exact hcall
    | some name =>
      have hboth := (staysInside_defined name).append hcall
      simpa [WrittenStmt.pieces] using hboth
  | leave => simp [WrittenStmt.pieces, StaysInside, word, punct]
  | ret value =>
    cases value with
    | none => simp [WrittenStmt.pieces, StaysInside, word, punct]
    | some t =>
      have hoperand := staysInside_listed (List.forall_mem_singleton.mpr (h t rfl))
      have hword : StaysInside [.word "return", .gap] := by simp [StaysInside, word, gap, punct]
      exact hword.append hoperand

theorem Token.IsValue.not_isBrace {t : Token} (h : t.IsValue) : ¬ t.IsBrace := by
  have hoperand := h.operand
  rintro (rfl | rfl) <;> cases hoperand

namespace WrittenBlock

/-! ## The tokens of a block, line by line -/

theorem locate_define {first : WrittenDefinition} (h : first.Legible) (rest : WrittenBlock)
    (line indent : Nat) : locate line ((define first rest).pieces indent)
      = onLine line first.pieces ++ locate (line + 1) (rest.pieces indent) :=
  locate_layOutLine line indent h.staysInside.newline_not_mem _

theorem locate_cons {head : WrittenStmt} (h : head.Legible) (rest : WrittenBlock)
    (line indent : Nat) : locate line ((cons head rest).pieces indent)
      = onLine line head.pieces ++ locate (line + 1) (rest.pieces indent) :=
  locate_layOutLine line indent h.staysInside.newline_not_mem _

/-- A block, and what is behind the line that closes it. -/
theorem locate_within {tail : List Piece} (htail : newline ∉ tail) (w : WrittenBlock)
    (line indent : Nat) (rest : List Piece) :
    locate line (w.pieces (indent + 2) ++ (layOutLine indent tail ++ rest))
      = locate line (w.pieces (indent + 2)) ++
        (onLine (line + lineCount (w.pieces (indent + 2))) tail ++
          locate (line + lineCount (w.pieces (indent + 2)) + 1) rest) := by
  rw [locate_append, locate_layOutLine _ indent htail]

theorem locate_loop (body rest : WrittenBlock) (line indent : Nat) :
    let next := line + 1 + lineCount (body.pieces (indent + 2))
    locate line ((loop body rest).pieces indent)
      = ⟨.word "loop", line⟩ :: ⟨.punct '{', line⟩ :: (locate (line + 1) (body.pieces (indent + 2)) ++
        ⟨.punct '}', next⟩ :: locate (next + 1) (rest.pieces indent)) := by
  simp only [pieces, List.append_assoc]
  rw [locate_layOutLine line indent (by simp [word, gap, punct]), locate_within (by simp [punct])]
  rfl

theorem locate_branch_of_isEmpty {reject : WrittenBlock} (h : reject.isEmpty) (condition : Token)
    (accept rest : WrittenBlock) (line indent : Nat) :
    let next := line + 1 + lineCount (accept.pieces (indent + 2))
    locate line ((branch condition accept reject rest).pieces indent)
      = ⟨.word "if", line⟩ :: ⟨condition, line⟩ :: ⟨.punct '{', line⟩ ::
        (locate (line + 1) (accept.pieces (indent + 2)) ++
          ⟨.punct '}', next⟩ :: locate (next + 1) (rest.pieces indent)) := by
  simp only [pieces, h, if_true, List.append_assoc, List.nil_append]
  rw [locate_layOutLine line indent (by simp [word, gap, punct]), locate_within (by simp [punct])]
  rfl

theorem locate_branch {reject : WrittenBlock} (h : reject.isEmpty = false) (condition : Token)
    (accept rest : WrittenBlock) (line indent : Nat) :
    let middle := line + 1 + lineCount (accept.pieces (indent + 2))
    let next := middle + 1 + lineCount (reject.pieces (indent + 2))
    locate line ((branch condition accept reject rest).pieces indent)
      = ⟨.word "if", line⟩ :: ⟨condition, line⟩ :: ⟨.punct '{', line⟩ ::
        (locate (line + 1) (accept.pieces (indent + 2)) ++
          ⟨.punct '}', middle⟩ :: ⟨.word "else", middle⟩ :: ⟨.punct '{', middle⟩ ::
          (locate (middle + 1) (reject.pieces (indent + 2)) ++
            ⟨.punct '}', next⟩ :: locate (next + 1) (rest.pieces indent))) := by
  simp only [pieces, h, Bool.false_eq_true, if_false, List.append_assoc]
  rw [locate_layOutLine line indent (by simp [word, gap, punct]),
    locate_within (by simp [word, gap, punct]), locate_within (by simp [punct])]
  rfl

/-! ## Counting lines -/

theorem lineCount_define {first : WrittenDefinition} (h : first.Legible) (rest : WrittenBlock)
    (indent : Nat) : lineCount ((define first rest).pieces indent)
      = 1 + lineCount (rest.pieces indent) := by
  rw [pieces, lineCount_append, lineCount_layOutLine _ h.staysInside.newline_not_mem]

theorem lineCount_cons {head : WrittenStmt} (h : head.Legible) (rest : WrittenBlock)
    (indent : Nat) : lineCount ((cons head rest).pieces indent)
      = 1 + lineCount (rest.pieces indent) := by
  rw [pieces, lineCount_append, lineCount_layOutLine _ h.staysInside.newline_not_mem]

theorem lineCount_loop (body rest : WrittenBlock) (indent : Nat) :
    lineCount ((loop body rest).pieces indent)
      = 1 + lineCount (body.pieces (indent + 2)) + 1 + lineCount (rest.pieces indent) := by
  rw [pieces, lineCount_append, lineCount_append, lineCount_append,
    lineCount_layOutLine _ (by simp [word, gap, punct]), lineCount_layOutLine _ (by simp [punct])]

theorem lineCount_branch_of_isEmpty {reject : WrittenBlock} (h : reject.isEmpty) (condition : Token)
    (accept rest : WrittenBlock) (indent : Nat) :
    lineCount ((branch condition accept reject rest).pieces indent)
      = 1 + lineCount (accept.pieces (indent + 2)) + 1 + lineCount (rest.pieces indent) := by
  simp only [pieces, h, if_true, lineCount_append]
  rw [lineCount_layOutLine _ (by simp [word, gap, punct]), lineCount_layOutLine _ (by simp [punct])]
  rfl

theorem lineCount_branch {reject : WrittenBlock} (h : reject.isEmpty = false) (condition : Token)
    (accept rest : WrittenBlock) (indent : Nat) :
    lineCount ((branch condition accept reject rest).pieces indent)
      = 1 + lineCount (accept.pieces (indent + 2)) + 1 + lineCount (reject.pieces (indent + 2)) + 1 +
        lineCount (rest.pieces indent) := by
  simp only [pieces, h, Bool.false_eq_true, if_false, lineCount_append]
  rw [lineCount_layOutLine _ (by simp [word, gap, punct]),
    lineCount_layOutLine _ (by simp [word, gap, punct]), lineCount_layOutLine _ (by simp [punct])]
  omega

end WrittenBlock

/-! ## Braces that match -/

theorem balanced_onLine {pieces : List Piece} (h : StaysInside pieces) (line : Nat) :
    Balanced (onLine line pieces) := by
  induction pieces with
  | nil => exact .nil
  | cons p pieces ih =>
    have hrest := ih fun q hq => h q (List.mem_cons_of_mem _ hq)
    cases p with
    | token t =>
      obtain ⟨-, hopen, hclose⟩ := h _ List.mem_cons_self
      rw [onLine_token]
      exact .plain (not_or.mpr ⟨fun heq => hopen (congrArg _ heq),
        fun heq => hclose (congrArg _ heq)⟩) hrest
    | space n => exact hrest
    | newline => exact hrest

/-- **The braces of a block match.** -/
theorem WrittenBlock.Legible.balanced {w : WrittenBlock} (h : w.Legible) :
    ∀ indent line : Nat, Balanced (locate line (w.pieces indent)) := by
  have hword : ∀ (word : String) (line : Nat), ¬ Token.IsBrace (⟨.word word, line⟩ : Located).token :=
    fun _ _ => by simp [Token.IsBrace]
  induction w with
  | nil => exact fun _ _ => .nil
  | define first rest ih =>
    intro indent line
    rw [WrittenBlock.locate_define h.1]
    exact (balanced_onLine h.1.staysInside line).append (ih h.2 indent _)
  | cons head rest ih =>
    intro indent line
    rw [WrittenBlock.locate_cons h.1]
    exact (balanced_onLine h.1.staysInside line).append (ih h.2 indent _)
  | branch condition accept reject rest iha ihr ih =>
    intro indent line
    obtain ⟨hcondition, haccept, hreject, hbehind⟩ := h
    have hvalue := hcondition.not_isBrace
    cases hempty : reject.isEmpty with
    | true =>
      rw [WrittenBlock.locate_branch_of_isEmpty hempty]
      exact .plain (hword _ _) (.plain hvalue (.block (iha haccept _ _) (ih hbehind _ _)))
    | false =>
      rw [WrittenBlock.locate_branch hempty]
      exact .plain (hword _ _) (.plain hvalue (.block (iha haccept _ _)
        (.plain (hword _ _) (.block (ihr hreject _ _) (ih hbehind _ _)))))
  | loop body rest ihb ih =>
    intro indent line
    rw [WrittenBlock.locate_loop]
    exact .plain (hword _ _) (.block (ihb h.1 _ _) (ih h.2 _ _))

end ResourceBinding
