import ResourceBinding.Program.Literal

/-!
# Expressions

The values of a function. A function keeps its expressions in one store, and an expression names
its operands by their positions there, so that a value may be used in many places.
-/

namespace ResourceBinding

/-- The position of an expression in the store of its function. -/
abbrev ExprId := Nat

/-- The position of a function in its module. -/
abbrev FunctionId := Nat

/-- An operator on two values. -/
inductive BinaryOp where
  | add
  | sub
  | mul
deriving DecidableEq, Repr

namespace BinaryOp

/-- The word that an operator is written as. -/
def word : BinaryOp → String
  | add => "add"
  | sub => "sub"
  | mul => "mul"

/-- The operator that a word names. -/
def ofWord? : String → Option BinaryOp
  | "add" => some add
  | "sub" => some sub
  | "mul" => some mul
  | _ => none

end BinaryOp

/-- A value without side effects. -/
inductive Expr where
  | literal (literal : Literal)
  /-- The parameter of the function with this number. -/
  | parameter (index : Nat)
  /-- The result of a call; the call itself is a statement. -/
  | result (callee : FunctionId)
  /-- The address of a part of an aggregate. The first index steps over the pointer itself, and
  each further one goes a level deeper. -/
  | access (base : ExprId) (indices : List ExprId)
  /-- The value behind a pointer. -/
  | load (pointer : ExprId)
  | binary (op : BinaryOp) (left right : ExprId)
deriving DecidableEq, Repr

namespace Expr

/-- The operands of an expression, in order. -/
def operands : Expr → List ExprId
  | literal _ | parameter _ | result _ => []
  | access base indices => base :: indices
  | load pointer => [pointer]
  | binary _ left right => [left, right]

/-- Replaces each operand. -/
def mapOperands (f : ExprId → ExprId) : Expr → Expr
  | literal l => literal l
  | parameter index => parameter index
  | result callee => result callee
  | access base indices => access (f base) (indices.map f)
  | load pointer => load (f pointer)
  | binary op left right => binary op (f left) (f right)

/-- Replaces the function that a call result belongs to. -/
def mapCallee (f : FunctionId → FunctionId) : Expr → Expr
  | result callee => result (f callee)
  | e => e

@[simp]
theorem operands_mapOperands (f : ExprId → ExprId) (e : Expr) :
    (e.mapOperands f).operands = e.operands.map f := by
  cases e <;> simp [operands, mapOperands]

theorem mapOperands_id (e : Expr) : e.mapOperands id = e := by
  cases e <;> simp [mapOperands]

@[simp]
theorem operands_mapCallee (f : FunctionId → FunctionId) (e : Expr) :
    (e.mapCallee f).operands = e.operands := by
  cases e <;> rfl

end Expr

end ResourceBinding
