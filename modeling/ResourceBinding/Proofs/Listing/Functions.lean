import ResourceBinding.Proofs.Listing.Lines
import ResourceBinding.Proofs.Listing.Shown

/-!
# Written functions

A function as its listing shows it: a signature, and a body unless it is only declared. The body
that is written of a well-formed function is legible, if the names of functions and parameters are
names and no literal is infinite (`Function.Writable.legible_writeBlock`). What is laid out of a
module are its written functions (`Module.layOut_eq`).
-/

namespace ResourceBinding

open Piece

/-! ## Bodies -/

/-- A number in single precision among the literals is finite. -/
def Function.Finite (f : Function) : Prop :=
  ∀ id x, f.expr? id = some (.literal (.f32 x)) → x.magnitude < Single.infinity

/-- The function is legible, and each of its tokens has a text that is read as the token. -/
structure Function.Writable (m : Module) (f : Function) : Prop extends f.Legible where
  wellFormed : f.WellFormed m.functions.size m.types.size
  finite : f.Finite
  params : ∀ p ∈ f.params, ∀ name, p.name = some name → IsName name

theorem isValue_token {l : Literal} (h : l.InRange)
    (hfinite : ∀ x, l = .f32 x → x.magnitude < Single.infinity) : l.token.IsValue := by
  cases l with
  | bool value => cases value <;> exact ⟨rfl, rfl⟩
  | i32 n =>
    have hrange : -0x80000000 ≤ n ∧ n < 0x80000000 := h
    exact ⟨rfl, by change -0x8000000000000000 ≤ n ∧ n < 0x8000000000000000; omega⟩
  | u32 n => exact ⟨rfl, Nat.lt_trans h (by decide)⟩
  | f32 x => exact ⟨rfl, hfinite x rfl⟩

theorem isWord_of_operation? {e : Expr} {operation : String} (h : e.operation? = some operation) :
    isWord operation.toList := by
  cases e with
  | literal l | parameter p | result callee => cases h
  | access base indices | load pointer =>
    cases h
    decide
  | binary op left right =>
    cases h
    cases op <;> decide

theorem WrittenBlock.legible_defining {ws : List WrittenDefinition} {w : WrittenBlock}
    (hws : ∀ d ∈ ws, d.Legible) (hw : w.Legible) : (defining ws w).Legible := by
  induction ws with
  | nil => exact hw
  | cons d ws ih =>
    exact ⟨hws d List.mem_cons_self, ih fun other hother => hws other (List.mem_cons_of_mem _ hother)⟩

namespace Function.Writable

variable {m : Module} {f : Function} {id : ExprId} {ids shown shown' : List ExprId}
  {ws : List WrittenDefinition} {b : Block}

theorem isValue_operandToken (h : f.Writable m) (hid : (id : Nat) < f.expressions.size) :
    (f.operandToken id).IsValue := by
  obtain ⟨e, he⟩ := exists_expr?_of_lt hid
  have hnamed : e.isNamed → (Token.valueName (f.shownName id)).IsValue := fun hnamed =>
    ⟨rfl, h.named id e he hnamed⟩
  rw [operandToken, he]
  cases e with
  | literal l => exact isValue_token (h.literal id l he) fun x hx => h.finite id x (hx ▸ he)
  | parameter p =>
    obtain ⟨hlt, heq, -⟩ := List.findIdx?_eq_some_iff_getElem.mp (h.parameter id p he)
    exact ⟨rfl, h.params _ (List.getElem_mem hlt) _ (eq_of_beq heq)⟩
  | _ => exact hnamed rfl

theorem isValue_of_mem_map (h : f.Writable m) (hids : ∀ id ∈ ids, (id : Nat) < f.expressions.size) :
    ∀ t ∈ ids.map f.operandToken, t.IsValue := by
  intro t ht
  obtain ⟨id, hid, rfl⟩ := List.mem_map.mp ht
  exact h.isValue_operandToken (hids id hid)

/-- Definitions are legible. -/
theorem legible_shows (h : f.Writable m) (hshows : f.Shows ids shown ws shown') :
    ∀ w ∈ ws, w.Legible := by
  induction hshows with
  | nil => exact fun _ hw => absurd hw List.not_mem_nil
  | skip _ _ ih => exact ih
  | @define id e operation _ _ _ _ _ _ _ he hop _ _ ihbefore ih =>
    refine List.forall_mem_append.mpr ⟨ihbefore, List.forall_mem_cons.mpr ⟨⟨?_, ?_, ?_⟩, ih⟩⟩
    · exact h.named id e he (Expr.isNamed_of_operation? hop)
    · exact isWord_of_operation? hop
    · exact h.isValue_of_mem_map fun op hmem => h.wellFormed.operand_lt op (.inl ⟨id, e, he, hmem⟩)

theorem legible_writeDefinitions (h : f.Writable m) (ids shown : List ExprId) :
    ∀ w ∈ (f.writeDefinitions ids shown).1, w.Legible :=
  h.legible_shows (shows_writeDefinitions h.wellFormed.acyclic ids shown)

theorem legible_writeStmt (h : f.Writable m) (hnames : ∀ name ∈ m.names, IsName name) {s : Stmt}
    (hops : ∀ op ∈ s.operands, (op : Nat) < f.expressions.size)
    (hcall : ∀ c, s = .call c → (c.callee : Nat) < m.functions.size ∧
      ∀ r, c.result = some r → f.expr? r = some (.result c.callee)) :
    (f.writeStmt m s).Legible := by
  cases s with
  | store pointer value =>
    exact ⟨h.isValue_operandToken (hops pointer (by simp [Stmt.operands])),
      h.isValue_operandToken (hops value (by simp [Stmt.operands]))⟩
  | leave => trivial
  | ret value =>
    intro t ht
    obtain ⟨id, rfl, rfl⟩ := Option.map_eq_some_iff.mp ht
    exact h.isValue_operandToken (hops id (by simp [Stmt.operands]))
  | call c =>
    obtain ⟨hcallee, hresult⟩ := hcall c rfl
    refine ⟨fun name hname => ?_, hnames _ ?_, h.isValue_of_mem_map hops⟩
    · obtain ⟨r, hr, rfl⟩ := Option.map_eq_some_iff.mp hname
      exact h.named r _ (hresult r hr) rfl
    · have hlt : (c.callee : Nat) < m.names.length := m.length_names.symm ▸ hcallee
      rw [Module.nameOf_eq, List.getElem?_eq_getElem hlt]
      exact List.getElem_mem hlt

/-- **What is written of a block is legible.** -/
theorem legible_writeBlock (h : f.Writable m) (hnames : ∀ name ∈ m.names, IsName name)
    (hops : ∀ op ∈ b.operands, (op : Nat) < f.expressions.size)
    (hcalls : ∀ c ∈ b.calls, (c.callee : Nat) < m.functions.size ∧
      ∀ r, c.result = some r → f.expr? r = some (.result c.callee)) (shown : List ExprId) :
    (f.writeBlock m b shown).1.Legible := by
  induction b generalizing shown with
  | nil => trivial
  | cons head rest ih =>
    refine WrittenBlock.legible_defining (h.legible_writeDefinitions head.operands shown) ⟨?_, ih ?_ ?_ _⟩
    · refine h.legible_writeStmt hnames (fun op hop => hops op (by simp [Block.operands, hop])) ?_
      rintro c rfl
      exact hcalls c List.mem_cons_self
    · exact fun op hop => hops op (by simp [Block.operands, hop])
    · exact fun c hc => hcalls c (by cases head <;> simp [Block.calls, hc])
  | branch condition accept reject rest iha ihr ih =>
    have hcondition := h.isValue_operandToken (hops condition (by simp [Block.operands]))
    refine WrittenBlock.legible_defining (h.legible_writeDefinitions [condition] shown)
      ⟨hcondition, iha ?_ ?_ _, ihr ?_ ?_ _, ih ?_ ?_ _⟩
    all_goals first
      | exact fun op hop => hops op (by simp [Block.operands, hop])
      | exact fun c hc => hcalls c (by simp [Block.calls, hc])
  | loop body rest ihb ih =>
    refine ⟨ihb ?_ ?_ _, ih ?_ ?_ _⟩
    all_goals first
      | exact fun op hop => hops op (by simp [Block.operands, hop])
      | exact fun c hc => hcalls c (by simp [Block.calls, hc])

end Function.Writable

/-! ## Functions -/

/-- A function as it is written. -/
structure WrittenFunction where
  signature : Signature
  body : Option WrittenBlock

namespace WrittenFunction

/-- The lines of the function. -/
def pieces (w : WrittenFunction) : List Piece :=
  match w.body with
  | none => w.signature.pieces ++ [.newline]
  | some b =>
    w.signature.pieces ++ [.gap, .punct '{', .newline] ++ b.pieces 2 ++ [.punct '}', .newline]

/-- The lines of functions, with an empty line in front of each that has a body, unless it is the
first of all. -/
def piecesEach : Bool → List WrittenFunction → List Piece
  | _, [] => []
  | first, w :: ws =>
    (if first || w.body.isNone then [] else [.newline]) ++ w.pieces ++ piecesEach false ws

/-- The function can be read again. -/
structure Legible (w : WrittenFunction) : Prop where
  readable : w.signature.Readable
  marks : ∀ p ∈ w.signature.params, ∀ d, p.direct = some d → IsName d.accessor
  isDeclaration : w.body.isNone = w.signature.isDeclaration
  body : ∀ b, w.body = some b → b.Legible

theorem Legible.pieces_append {w : WrittenFunction} (h : w.Legible) {rest : List Piece}
    (hrest : Piece.Legible rest) : Piece.Legible (w.pieces ++ rest) := by
  have hsignature := h.readable.legible h.marks
  cases hb : w.body with
  | none => simpa [pieces, hb] using hsignature.append hrest.newline (startsClosed_cons rfl)
  | some b =>
    have hclose := hrest.newline.punct (c := '}') (by decide)
    have hopen := (((h.body b hb).pieces_append 2 hclose).newline.punct (c := '{') (by decide)).gap
    simpa [pieces, hb] using hsignature.append hopen (startsClosed_cons rfl)

/-- **The lines of legible functions can be read.** -/
theorem legible_piecesEach {ws : List WrittenFunction} (h : ∀ w ∈ ws, w.Legible) (first : Bool) :
    Piece.Legible (piecesEach first ws) := by
  induction ws generalizing first with
  | nil => exact legible_nil
  | cons w ws ih =>
    have hrest := ih (fun other hother => h other (List.mem_cons_of_mem _ hother)) false
    have hw := (h w List.mem_cons_self).pieces_append hrest
    rw [piecesEach, List.append_assoc]
    split
    · exact hw
    · exact hw.newline

end WrittenFunction

/-- The marks of a signature that a function is written by refer to functions that have names. -/
theorem Signature.Writes.accessor_mem {names : List String} {types : TypeTable} {s : Signature}
    {f : Function} (h : s.Writes names types f) {p : WrittenParam} (hp : p ∈ s.params)
    {d : WrittenMark} (hd : p.direct = some d) : d.accessor ∈ names := by
  obtain ⟨q, -, hq⟩ := exists_mem_of_forall₂ h.params.flip hp
  have hmark := hq.mark
  rw [hd, Option.map_some, eq_comm, Option.map_eq_some_iff] at hmark
  obtain ⟨mark, -, heq⟩ := hmark
  exact List.mem_of_getElem? (congrArg Prod.fst heq)

/-- The function is written so. -/
structure Function.WrittenAs (m : Module) (f : Function) (w : WrittenFunction) : Prop where
  writes : w.signature.Writes m.names m.types f
  readable : w.signature.Readable
  body : w.body = f.body.map fun b => (f.writeBlock m b []).1

namespace Function.WrittenAs

variable {m : Module} {f : Function} {w : WrittenFunction}

theorem isNone_body (h : f.WrittenAs m w) : w.body.isNone = f.isDeclaration := by
  rw [h.body, Option.isNone_map, isDeclaration]

theorem layOut_eq (h : f.WrittenAs m w) : f.layOut m = w.pieces := by
  rw [layOut, WrittenFunction.pieces, h.writes.pieces_eq h.readable, h.body]
  cases f.body with
  | none => rfl
  | some b => simp only [layOutBlock_eq, Option.map_some]

/-- **A writable function is written legibly.** -/
theorem legible (h : f.WrittenAs m w) (hf : f.Writable m)
    (hnames : ∀ name ∈ m.names, IsName name) : w.Legible where
  readable := h.readable
  marks := fun p hp d hd => hnames _ (h.writes.accessor_mem hp hd)
  isDeclaration := h.isNone_body.trans h.writes.isDeclaration.symm
  body := by
    intro wb hwb
    rw [h.body, Option.map_eq_some_iff] at hwb
    obtain ⟨b, hb, rfl⟩ := hwb
    have hcalls : f.calls = b.calls := by rw [calls, hb]
    refine hf.legible_writeBlock hnames (fun op hop => ?_) (fun c hc => ?_) []
    · exact hf.wellFormed.operand_lt op (.inr ⟨b, hb, hop⟩)
    · rw [← hcalls] at hc
      exact ⟨hf.wellFormed.callee_lt c hc, hf.wellFormed.result c hc⟩

end Function.WrittenAs

/-- The functions of a module are written so. -/
def Module.WrittenAs (m : Module) (ws : List WrittenFunction) : Prop :=
  List.Forall₂ (Function.WrittenAs m) m.functions.toList ws

/-- **What is laid out of a module are its written functions.** -/
theorem Module.layOut_eq {m : Module} {ws : List WrittenFunction} (h : m.WrittenAs ws) :
    m.layOut = WrittenFunction.piecesEach true ws := by
  have hfrom : ∀ {fs : List Function} {ws : List WrittenFunction} (start : Nat),
      List.Forall₂ (Function.WrittenAs m) fs ws →
      (fs.zipIdx start).flatMap (fun p =>
        (if p.2 = 0 || p.1.isDeclaration then [] else [.newline]) ++ p.1.layOut m)
        = WrittenFunction.piecesEach (start = 0) ws := by
    intro fs ws start h
    induction h generalizing start with
    | nil => rfl
    | cons hf _ ih =>
      have hne : decide (start + 1 = 0) = false := rfl
      rw [List.zipIdx_cons, List.flatMap_cons, ih, hne, WrittenFunction.piecesEach, hf.layOut_eq,
        hf.isNone_body]
  rw [layOut, indexed, List.flatMap_map]
  exact hfrom 0 h

end ResourceBinding
