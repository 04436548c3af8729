import ResourceBinding.Program.Expr

/-!
# Statements

Side effects and control flow. A block is a sequence of statements, and the statements for control
flow hold blocks in turn. `Block` is one inductive type for both, so that whatever is said of every
statement at every depth is a single recursion.

The functions on blocks follow program order: a statement stands before the blocks it holds, and
those before the statements after it.
-/

namespace ResourceBinding

/-- A call of a function. The result, if it is used, is an expression of the caller. -/
structure Call where
  callee : FunctionId
  arguments : List ExprId
  result : Option ExprId
deriving DecidableEq, Repr

/-- A statement that holds no block. -/
inductive Stmt where
  /-- Writes a value through a pointer. -/
  | store (pointer value : ExprId)
  | call (call : Call)
  /-- Leaves the innermost loop. -/
  | leave
  /-- Returns from the function. -/
  | ret (value : Option ExprId)
deriving DecidableEq, Repr

namespace Stmt

/-- The expressions that a statement uses. The result of a call is made, not used. -/
def operands : Stmt → List ExprId
  | store pointer value => [pointer, value]
  | call c => c.arguments
  | leave => []
  | ret value => value.toList

/-- Replaces each expression that a statement uses. -/
def mapOperands (f : ExprId → ExprId) : Stmt → Stmt
  | store pointer value => store (f pointer) (f value)
  | call c => call { c with arguments := c.arguments.map f }
  | leave => leave
  | ret value => ret (value.map f)

@[simp]
theorem operands_mapOperands (f : ExprId → ExprId) (s : Stmt) :
    (s.mapOperands f).operands = s.operands.map f := by
  cases s with
  | ret value => cases value <;> rfl
  | _ => rfl

end Stmt

/-- A sequence of statements. -/
inductive Block where
  | nil
  | cons (head : Stmt) (rest : Block)
  /-- Runs one of two blocks. -/
  | branch (condition : ExprId) (accept reject : Block) (rest : Block)
  /-- Runs a block until a statement leaves it. -/
  | loop (body : Block) (rest : Block)
deriving DecidableEq, Repr

namespace Block

/-- Whether a block has no statement. -/
def isEmpty : Block → Bool
  | nil => true
  | _ => false

/-- The calls in a block, at every depth, in program order. -/
def calls : Block → List Call
  | nil => []
  | cons (.call c) rest => c :: rest.calls
  | cons _ rest => rest.calls
  | branch _ accept reject rest => accept.calls ++ reject.calls ++ rest.calls
  | loop body rest => body.calls ++ rest.calls

/-- The expressions that the statements of a block use, at every depth, in program order. -/
def operands : Block → List ExprId
  | nil => []
  | cons head rest => head.operands ++ rest.operands
  | branch condition accept reject rest =>
    condition :: (accept.operands ++ reject.operands ++ rest.operands)
  | loop body rest => body.operands ++ rest.operands

/-- Replaces each expression that a statement uses. -/
def mapOperands (f : ExprId → ExprId) : Block → Block
  | nil => nil
  | cons head rest => cons (head.mapOperands f) (rest.mapOperands f)
  | branch condition accept reject rest =>
    branch (f condition) (accept.mapOperands f) (reject.mapOperands f) (rest.mapOperands f)
  | loop body rest => loop (body.mapOperands f) (rest.mapOperands f)

/-- Replaces each call, in program order, with effects. -/
def mapCallsM {m : Type → Type} [Monad m] (f : Call → m Call) : Block → m Block
  | nil => pure nil
  | cons (.call c) rest => do return cons (.call (← f c)) (← rest.mapCallsM f)
  | cons head rest => do return cons head (← rest.mapCallsM f)
  | branch condition accept reject rest => do
    return branch condition (← accept.mapCallsM f) (← reject.mapCallsM f) (← rest.mapCallsM f)
  | loop body rest => do return loop (← body.mapCallsM f) (← rest.mapCallsM f)

/-- Replaces each call. -/
def mapCalls (f : Call → Call) : Block → Block
  | nil => nil
  | cons (.call c) rest => cons (.call (f c)) (rest.mapCalls f)
  | cons head rest => cons head (rest.mapCalls f)
  | branch condition accept reject rest =>
    branch condition (accept.mapCalls f) (reject.mapCalls f) (rest.mapCalls f)
  | loop body rest => loop (body.mapCalls f) (rest.mapCalls f)

/-- A block with calls before its first statement. -/
def prepend (calls : List Call) (block : Block) : Block :=
  calls.foldr (fun c rest => cons (.call c) rest) block

/-! ## What the functions leave as it was -/

@[simp]
theorem operands_mapOperands (f : ExprId → ExprId) (b : Block) :
    (b.mapOperands f).operands = b.operands.map f := by
  induction b with
  | nil => rfl
  | cons head rest ih => simp [mapOperands, operands, ih]
  | branch condition accept reject rest iha ihr ih => simp [mapOperands, operands, iha, ihr, ih]
  | loop body rest ihb ih => simp [mapOperands, operands, ihb, ih]

@[simp]
theorem calls_mapOperands (f : ExprId → ExprId) (b : Block) :
    (b.mapOperands f).calls
      = b.calls.map fun c => { c with arguments := c.arguments.map f } := by
  induction b with
  | nil => rfl
  | cons head rest ih => cases head <;> simp [mapOperands, Stmt.mapOperands, calls, ih]
  | branch condition accept reject rest iha ihr ih => simp [mapOperands, calls, iha, ihr, ih]
  | loop body rest ihb ih => simp [mapOperands, calls, ihb, ih]

@[simp]
theorem calls_mapCalls (f : Call → Call) (b : Block) :
    (b.mapCalls f).calls = b.calls.map f := by
  induction b with
  | nil => rfl
  | cons head rest ih => cases head <;> simp [mapCalls, calls, ih]
  | branch condition accept reject rest iha ihr ih => simp [mapCalls, calls, iha, ihr, ih]
  | loop body rest ihb ih => simp [mapCalls, calls, ihb, ih]

@[simp]
theorem calls_prepend (cs : List Call) (b : Block) : (b.prepend cs).calls = cs ++ b.calls := by
  induction cs with
  | nil => rfl
  | cons c cs ih => simpa [prepend, calls] using ih

end Block

end ResourceBinding
