import ResourceBinding.Proofs.Program.Listing

/-!
# Bodies as they are written

A body as its listing shows it, with names instead of positions: `WrittenBlock`. `Function.writeBlock`
writes a block out, and what is laid out of the block are the lines of that
(`Function.layOutBlock_eq`). As in the listing, a definition is written in front of the first
statement that uses it, and `shown` holds what has been defined so far.
-/

namespace ResourceBinding

/-! ## Written syntax -/

/-- A definition that is no statement. -/
structure WrittenDefinition where
  name : String
  operation : String
  operands : List Token

/-- A statement that holds no block. -/
inductive WrittenStmt where
  | store (pointer value : Token)
  | call (result : Option String) (callee : String) (arguments : List Token)
  | leave
  | ret (value : Option Token)

/-- Definitions and statements in sequence. -/
inductive WrittenBlock where
  | nil
  | define (first : WrittenDefinition) (rest : WrittenBlock)
  | cons (head : WrittenStmt) (rest : WrittenBlock)
  | branch (condition : Token) (accept reject rest : WrittenBlock)
  | loop (body rest : WrittenBlock)

/-- Tokens with commas between them. -/
def Piece.listed (tokens : List Token) : List Piece :=
  commaSeparated (tokens.map fun t => [token t])

/-- The name that a line defines, and the sign of equality. -/
def Piece.defined (name : String) : List Piece :=
  [valueName name, gap, punct '=', gap]

def WrittenDefinition.pieces (d : WrittenDefinition) : List Piece :=
  Piece.defined d.name ++ [.word d.operation, .gap] ++ Piece.listed d.operands

namespace WrittenStmt

/-- The statement on its line. -/
def pieces : WrittenStmt → List Piece
  | store pointer value => [.word "store", .gap] ++ Piece.listed [pointer, value]
  | call result callee arguments =>
    let result : List Piece := match result with
      | some name => Piece.defined name
      | none => []
    result ++ [.word "call", .gap, .functionName callee, .punct '('] ++ Piece.listed arguments ++
      [.punct ')']
  | leave => [.word "break"]
  | ret none => [.word "return"]
  | ret (some value) => [.word "return", .gap, .token value]

end WrittenStmt

namespace WrittenBlock

def isEmpty : WrittenBlock → Bool
  | nil => true
  | define _ _ | cons _ _ | branch _ _ _ _ | loop _ _ => false

/-- Definitions in front of a block. -/
def defining (definitions : List WrittenDefinition) (rest : WrittenBlock) : WrittenBlock :=
  definitions.foldr define rest

/-- The lines of the block. -/
def pieces (indent : Nat) : WrittenBlock → List Piece
  | nil => []
  | define first rest => layOutLine indent first.pieces ++ rest.pieces indent
  | cons head rest => layOutLine indent head.pieces ++ rest.pieces indent
  | branch condition accept reject rest =>
    let middle := if reject.isEmpty then []
      else layOutLine indent [.punct '}', .gap, .word "else", .gap, .punct '{'] ++
        reject.pieces (indent + 2)
    layOutLine indent [.word "if", .gap, .token condition, .gap, .punct '{'] ++
      accept.pieces (indent + 2) ++ middle ++ layOutLine indent [.punct '}'] ++ rest.pieces indent
  | loop body rest =>
    layOutLine indent [.word "loop", .gap, .punct '{'] ++ body.pieces (indent + 2) ++
      layOutLine indent [.punct '}'] ++ rest.pieces indent

theorem isEmpty_defining (definitions : List WrittenDefinition) {b : WrittenBlock}
    (h : b.isEmpty = false) : (defining definitions b).isEmpty = false := by
  cases definitions with
  | nil => exact h
  | cons d ds => rfl

theorem pieces_defining (indent : Nat) (definitions : List WrittenDefinition) (b : WrittenBlock) :
    (defining definitions b).pieces indent
      = definitions.flatMap (fun d => layOutLine indent d.pieces) ++ b.pieces indent := by
  induction definitions with
  | nil => rfl
  | cons d ds ih =>
    rw [List.flatMap_cons, List.append_assoc, ← ih]
    rfl

end WrittenBlock

/-! ## Writing out -/

/-- Writes one item after the other; each sees what the ones before it have shown. -/
def writeEach {α β : Type} (write : α → List ExprId → List β × List ExprId) :
    List α → List ExprId → List β × List ExprId
  | [], shown => ([], shown)
  | item :: items, shown =>
    let (first, shown) := write item shown
    let (others, shown) := writeEach write items shown
    (first ++ others, shown)

namespace Function

/-- An expression where it is used. -/
def operandToken (f : Function) (id : ExprId) : Token :=
  match f.expr? id with
  | some (.literal l) => l.token
  | some (.parameter index) => .valueName (f.paramName index)
  | _ => .valueName (f.shownName id)

/-- The definitions of an expression, operands first. -/
def writeDefinition (f : Function) : Nat → ExprId → List ExprId →
    List WrittenDefinition × List ExprId
  | 0, _, shown => ([], shown)
  | depth + 1, id, shown =>
    if shown.contains id then ([], shown)
    else
      match f.expr? id with
      | none => ([], shown)
      | some e =>
        match e.operation? with
        | none => ([], shown)
        | some operation =>
          let (before, shown) := writeEach (f.writeDefinition depth) e.operands shown
          (before ++ [⟨f.shownName id, operation, e.operands.map f.operandToken⟩], id :: shown)

/-- The definitions of the expressions that a statement uses. -/
def writeDefinitions (f : Function) (ids : List ExprId) (shown : List ExprId) :
    List WrittenDefinition × List ExprId :=
  writeEach (f.writeDefinition (f.expressions.size + 1)) ids shown

/-- A statement without blocks. -/
def writeStmt (f : Function) (m : Module) : Stmt → WrittenStmt
  | .store pointer value => .store (f.operandToken pointer) (f.operandToken value)
  | .call c =>
    .call (c.result.map f.shownName) (m.nameOf c.callee) (c.arguments.map f.operandToken)
  | .leave => .leave
  | .ret value => .ret (value.map f.operandToken)

/-- A block. -/
def writeBlock (f : Function) (m : Module) : Block → List ExprId → WrittenBlock × List ExprId
  | .nil, shown => (.nil, shown)
  | .cons head rest, shown =>
    let (before, shown) := f.writeDefinitions head.operands shown
    let (after, shown) := f.writeBlock m rest (head.defines ++ shown)
    (.defining before (.cons (f.writeStmt m head) after), shown)
  | .branch condition accept reject rest, shown =>
    let (before, shown) := f.writeDefinitions [condition] shown
    let (accept, shown) := f.writeBlock m accept shown
    let (reject, shown) := f.writeBlock m reject shown
    let (after, shown) := f.writeBlock m rest shown
    (.defining before (.branch (f.operandToken condition) accept reject after), shown)
  | .loop body rest, shown =>
    let (body, shown) := f.writeBlock m body shown
    let (after, shown) := f.writeBlock m rest shown
    (.loop body after, shown)

/-! ## What is laid out is what is written -/

variable {f : Function} {m : Module}

theorem operandPiece_eq (f : Function) (id : ExprId) :
    f.operandPiece id = .token (f.operandToken id) := by
  unfold operandPiece operandToken
  cases f.expr? id with
  | none => rfl
  | some e => cases e <;> rfl

theorem operandPieces_eq (f : Function) (ids : List ExprId) :
    f.operandPieces ids = Piece.listed (ids.map f.operandToken) := by
  unfold operandPieces Piece.listed
  rw [List.map_map]
  simp only [operandPiece_eq]
  rfl

theorem layOutEach_eq {α β : Type} {layOut : α → List ExprId → List Piece × List ExprId}
    {write : α → List ExprId → List β × List ExprId} {pieces : β → List Piece} {items : List α}
    (h : ∀ item ∈ items, ∀ shown,
      layOut item shown = ((write item shown).1.flatMap pieces, (write item shown).2)) :
    ∀ shown, layOutEach layOut items shown
      = ((writeEach write items shown).1.flatMap pieces, (writeEach write items shown).2) := by
  induction items with
  | nil => exact fun _ => rfl
  | cons item items ih =>
    intro shown
    have hrest := ih fun other hother => h other (List.mem_cons_of_mem _ hother)
    rw [layOutEach_cons, h item List.mem_cons_self, hrest]
    simp only [writeEach, List.flatMap_append]

theorem layOutDefinition_eq (f : Function) (indent : Nat) : ∀ (depth : Nat) (id : ExprId)
    (shown : List ExprId), f.layOutDefinition indent depth id shown
      = ((f.writeDefinition depth id shown).1.flatMap (fun d => layOutLine indent d.pieces),
        (f.writeDefinition depth id shown).2)
  | 0, _, _ => rfl
  | depth + 1, id, shown => by
    unfold layOutDefinition writeDefinition
    split
    · rfl
    · cases f.expr? id with
      | none => rfl
      | some e =>
        dsimp only
        cases e.operation? with
        | none => rfl
        | some operation =>
          have heach : ∀ shown, layOutEach (f.layOutDefinition indent depth) e.operands shown = _ :=
            layOutEach_eq fun op _ => f.layOutDefinition_eq indent depth op
          simp only [heach, operandPieces_eq, List.flatMap_append, List.flatMap_cons, List.flatMap_nil,
            List.append_nil]
          rfl

theorem layOutDefinitions_eq (f : Function) (indent : Nat) (ids shown : List ExprId) :
    f.layOutDefinitions indent ids shown
      = ((f.writeDefinitions ids shown).1.flatMap (fun d => layOutLine indent d.pieces),
        (f.writeDefinitions ids shown).2) :=
  layOutEach_eq (fun id _ => f.layOutDefinition_eq indent _ id) shown

theorem stmtPieces_eq (f : Function) (m : Module) (s : Stmt) :
    f.stmtPieces m s = (f.writeStmt m s).pieces := by
  cases s with
  | store pointer value =>
    rw [stmtPieces, operandPieces_eq]
    rfl
  | call c =>
    simp only [stmtPieces, writeStmt, WrittenStmt.pieces, operandPieces_eq]
    cases c.result <;> rfl
  | leave => rfl
  | ret value =>
    cases value with
    | none => rfl
    | some value =>
      simp only [stmtPieces, operandPiece_eq]
      rfl

/-- Only a block without statements is written as one without lines. -/
theorem isEmpty_writeBlock (b : Block) (shown : List ExprId) :
    (f.writeBlock m b shown).1.isEmpty = b.isEmpty := by
  cases b with
  | nil => rfl
  | cons head rest => exact WrittenBlock.isEmpty_defining _ rfl
  | branch condition accept reject rest => exact WrittenBlock.isEmpty_defining _ rfl
  | loop body rest => rfl

/-- **What is laid out of a block are the lines of the written block.** -/
theorem layOutBlock_eq (f : Function) (m : Module) (b : Block) : ∀ (indent : Nat)
    (shown : List ExprId), f.layOutBlock m indent b shown
      = ((f.writeBlock m b shown).1.pieces indent, (f.writeBlock m b shown).2) := by
  induction b with
  | nil => exact fun _ _ => rfl
  | cons head rest ih =>
    intro indent shown
    simp only [layOutBlock, writeBlock, layOutDefinitions_eq, ih, stmtPieces_eq,
      WrittenBlock.pieces_defining, WrittenBlock.pieces, List.append_assoc]
  | branch condition accept reject rest iha ihr ih =>
    intro indent shown
    simp only [layOutBlock, writeBlock, layOutDefinitions_eq, iha, ihr, ih, operandPiece_eq,
      WrittenBlock.pieces_defining, WrittenBlock.pieces, isEmpty_writeBlock, List.append_assoc]
  | loop body rest ihb ih =>
    intro indent shown
    simp only [layOutBlock, writeBlock, ihb, ih, WrittenBlock.pieces]

end Function

end ResourceBinding
