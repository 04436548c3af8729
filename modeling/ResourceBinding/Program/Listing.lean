import ResourceBinding.Program.Module

/-!
# Listings

The textual form of a module: every function in the order of declaration, with its signature and,
if it has one, its body.

An expression has no line of its own where it stands in the store. It is defined in front of the
first statement that uses it, after its operands, and once: a listing keeps the expressions that
it has defined so far (`shown`). Literals, parameters and call results need no definition.

Operands are followed to a depth of the size of the store, which every chain of distinct
expressions fits in.
-/

namespace ResourceBinding

/-- Lays out one item after the other; each sees what the ones before it have shown. -/
def layOutEach {α : Type} (layOut : α → List ExprId → List Piece × List ExprId) :
    List α → List ExprId → List Piece × List ExprId
  | [], shown => ([], shown)
  | item :: items, shown =>
    let (first, shown) := layOut item shown
    let (others, shown) := layOutEach layOut items shown
    (first ++ others, shown)

/-- A line of text. -/
def layOutLine (indent : Nat) (pieces : List Piece) : List Piece :=
  .space indent :: pieces ++ [.newline]

/-- The word that an expression is defined by, if it needs a definition. -/
def Expr.operation? : Expr → Option String
  | access _ _ => some "access"
  | load _ => some "load"
  | binary op _ _ => some op.word
  | literal _ | parameter _ | result _ => none

/-- The expressions that the line of a statement defines. -/
def Stmt.defines : Stmt → List ExprId
  | call c => c.result.toList
  | store _ _ | leave | ret _ => []

namespace Function

/-! ## Names -/

/-- The name that a parameter is shown by. -/
def paramName (f : Function) (index : Nat) : String :=
  match (f.params[index]?).bind Param.name with
  | some name => name
  | none => s!"arg{index}"

/-- The name that an expression is shown by. -/
def shownName (f : Function) (id : ExprId) : String :=
  match f.exprName? id with
  | some name => name
  | none => s!"_{id}"

/-- An expression where it is used. -/
def operandPiece (f : Function) (id : ExprId) : Piece :=
  match f.expr? id with
  | some (.literal l) => .token l.token
  | some (.parameter index) => .valueName (f.paramName index)
  | _ => .valueName (f.shownName id)

/-- Expressions where they are used, with commas between them. -/
def operandPieces (f : Function) (ids : List ExprId) : List Piece :=
  Piece.commaSeparated (ids.map fun id => [f.operandPiece id])

/-! ## Definitions -/

/-- The name that a line defines, and the sign of equality. -/
def definedPieces (f : Function) (id : ExprId) : List Piece :=
  [.valueName (f.shownName id), .gap, .punct '=', .gap]

/-- The lines that define an expression, operands first. -/
def layOutDefinition (f : Function) (indent : Nat) :
    Nat → ExprId → List ExprId → List Piece × List ExprId
  | 0, _, shown => ([], shown)
  | depth + 1, id, shown =>
    if shown.contains id then ([], shown)
    else
      match f.expr? id with
      | none => ([], shown)
      | some e =>
        match e.operation? with
        | none => ([], shown)
        | some operation =>
          let (before, shown) := layOutEach (f.layOutDefinition indent depth) e.operands shown
          let line := layOutLine indent
            (f.definedPieces id ++ [.word operation, .gap] ++ f.operandPieces e.operands)
          (before ++ line, id :: shown)

/-- The lines that define the expressions a statement uses. -/
def layOutDefinitions (f : Function) (indent : Nat) (ids : List ExprId) (shown : List ExprId) :
    List Piece × List ExprId :=
  layOutEach (f.layOutDefinition indent (f.expressions.size + 1)) ids shown

/-! ## Statements -/

/-- A statement without blocks, as it stands on its line. -/
def stmtPieces (f : Function) (m : Module) : Stmt → List Piece
  | .store pointer value => [.word "store", .gap] ++ f.operandPieces [pointer, value]
  | .call c =>
    let result : List Piece := match c.result with
      | some id => f.definedPieces id
      | none => []
    result ++ [.word "call", .gap, .functionName (m.nameOf c.callee), .punct '('] ++
      f.operandPieces c.arguments ++ [.punct ')']
  | .leave => [.word "break"]
  | .ret none => [.word "return"]
  | .ret (some value) => [.word "return", .gap, f.operandPiece value]

/-- The lines of a block. -/
def layOutBlock (f : Function) (m : Module) (indent : Nat) :
    Block → List ExprId → List Piece × List ExprId
  | .nil, shown => ([], shown)
  | .cons head rest, shown =>
    let (before, shown) := f.layOutDefinitions indent head.operands shown
    let line := layOutLine indent (f.stmtPieces m head)
    let (after, shown) := f.layOutBlock m indent rest (head.defines ++ shown)
    (before ++ line ++ after, shown)
  | .branch condition accept reject rest, shown =>
    let (before, shown) := f.layOutDefinitions indent [condition] shown
    let head := layOutLine indent [.word "if", .gap, f.operandPiece condition, .gap, .punct '{']
    let (acceptLines, shown) := f.layOutBlock m (indent + 2) accept shown
    let (rejectLines, shown) := f.layOutBlock m (indent + 2) reject shown
    let middle := if reject.isEmpty then []
      else layOutLine indent [.punct '}', .gap, .word "else", .gap, .punct '{'] ++ rejectLines
    let (after, shown) := f.layOutBlock m indent rest shown
    (before ++ head ++ acceptLines ++ middle ++ layOutLine indent [.punct '}'] ++ after, shown)
  | .loop body rest, shown =>
    let head := layOutLine indent [.word "loop", .gap, .punct '{']
    let (bodyLines, shown) := f.layOutBlock m (indent + 2) body shown
    let (after, shown) := f.layOutBlock m indent rest shown
    (head ++ bodyLines ++ layOutLine indent [.punct '}'] ++ after, shown)

/-! ## Signatures -/

/-- The words in front of a function. -/
def headPieces (f : Function) : List Piece :=
  match f.isDeclaration, f.convention with
  | true, .kernel => [.word "declare", .gap, .word "kernel"]
  | true, .ordinary => [.word "declare"]
  | false, .kernel => [.word "kernel"]
  | false, .ordinary => [.word "fn"]

/-- The mark behind a parameter. -/
def markPieces (m : Module) (d : FixedResource) : List Piece :=
  [.gap, .word "direct", .punct '('] ++
    Piece.commaSeparated
      [[.functionName (m.nameOf d.accessor)], [.count d.set], [.count d.binding],
        [.count d.depth]] ++
    [.punct ')']

/-- A parameter. Only a declaration may leave out its name. -/
def paramPieces (f : Function) (m : Module) (index : Nat) (p : Param) : List Piece :=
  let name : List Piece :=
    if f.isDeclaration && p.name.isNone then []
    else [.valueName (f.paramName index), .punct ':', .gap]
  let mark : List Piece := match p.direct with
    | some d => markPieces m d
    | none => []
  name ++ m.types.pieces p.type ++ mark

/-- The line of a function up to its body. -/
def signaturePieces (f : Function) (m : Module) : List Piece :=
  let params := f.params.mapIdx fun index p => f.paramPieces m index p
  let result : List Piece := match f.result with
    | some type => [.gap, .token .arrow, .gap] ++ m.types.pieces type
    | none => []
  let flag : List Piece := if f.isPure then [.gap, .word "pure"] else []
  f.headPieces ++ [.gap, .functionName f.name, .punct '('] ++ Piece.commaSeparated params ++
    [.punct ')'] ++ result ++ flag

/-- A function. -/
def layOut (f : Function) (m : Module) : List Piece :=
  match f.body with
  | none => f.signaturePieces m ++ [.newline]
  | some body =>
    f.signaturePieces m ++ [.gap, .punct '{', .newline] ++ (f.layOutBlock m 2 body []).1 ++
      [.punct '}', .newline]

end Function

namespace Module

/-- The functions of a module, with an empty line in front of each that has a body, unless it is
the first. -/
def layOut (m : Module) : List Piece :=
  m.indexed.flatMap fun (id, f) =>
    (if id = 0 || f.isDeclaration then [] else [.newline]) ++ f.layOut m

/-- The textual form of a module. -/
def listing (m : Module) : String :=
  render m.layOut

end Module

end ResourceBinding
