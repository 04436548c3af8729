import ResourceBinding.Program.Block

/-!
# Functions

A function has a signature, a store of expressions and, unless it is only declared, a body. A
function with the calling convention of a kernel and a body is called by the host.

Besides looking things up there is one edit, `substitute`, which turns every use of one
expression into a use of another.
-/

namespace ResourceBinding

/-- Who may call a function: other functions, or the host. -/
inductive Convention where
  | ordinary
  | kernel
deriving DecidableEq, Repr

/-- The mark of a parameter that receives one fixed resource at every call: so many zero-offset
accesses into the result of a call of the accessor with these constants. -/
structure FixedResource where
  accessor : FunctionId
  set : Nat
  binding : Nat
  depth : Nat
deriving DecidableEq, Repr

/-- A parameter of a function. -/
structure Param where
  name : Option String
  type : TypeId
  direct : Option FixedResource
deriving DecidableEq, Repr

/-- A function. `names` holds the names that users gave to expressions, at most one for each. -/
structure Function where
  name : String
  convention : Convention
  params : List Param
  result : Option TypeId
  isPure : Bool
  expressions : Array Expr
  names : List (ExprId × String)
  body : Option Block
deriving DecidableEq, Repr

namespace Function

/-- A function without a body. -/
def declaration (name : String) (paramTypes : List TypeId) (result : Option TypeId) : Function where
  name := name
  convention := .ordinary
  params := paramTypes.map fun type => ⟨none, type, none⟩
  result := result
  isPure := false
  expressions := #[]
  names := []
  body := none

/-- Whether the function has no body. -/
def isDeclaration (f : Function) : Bool :=
  f.body.isNone

/-- Whether the host may call the function. -/
def isKernel (f : Function) : Bool :=
  f.convention = .kernel && f.body.isSome

/-! ## Looking up -/

/-- The expression at a position. -/
def expr? (f : Function) (id : ExprId) : Option Expr :=
  f.expressions[id]?

/-- The literal at a position, if it is one. -/
def literal? (f : Function) (id : ExprId) : Option Literal :=
  match f.expr? id with
  | some (.literal l) => some l
  | _ => none

/-- The calls in the body, in program order. -/
def calls (f : Function) : List Call :=
  match f.body with
  | some body => body.calls
  | none => []

/-- The first call whose result is the given expression. -/
def callOf? (f : Function) (id : ExprId) : Option Call :=
  f.calls.find? fun c => c.result == some id

/-- The name that a user gave to an expression. -/
def exprName? (f : Function) (id : ExprId) : Option String :=
  f.names.lookup id

/-- The expressions that stand for a parameter, in order. -/
def parameterOccurrences (f : Function) (index : Nat) : List ExprId :=
  (List.range f.expressions.size).filter fun id => f.expr? id == some (.parameter index)

/-! ## Editing -/

/-- Adds an expression at the end of the store. -/
def append (f : Function) (e : Expr) : ExprId × Function :=
  (f.expressions.size, { f with expressions := f.expressions.push e })

/-- Adds literals at the end of the store. -/
def appendLiterals : List Literal → Function → List ExprId × Function
  | [], f => ([], f)
  | l :: rest, f =>
    let (id, f) := f.append (.literal l)
    let (ids, f) := appendLiterals rest f
    (id :: ids, f)

/-- Adds an access of so many zero indices, which share one literal. -/
def appendZeroAccess (f : Function) (base : ExprId) (indices : Nat) : ExprId × Function :=
  let (index, f) := f.append (.literal (.u32 0))
  f.append (.access base (List.replicate indices index))

/-- Names an expression, in place of a name that it has. -/
def setName (f : Function) (id : ExprId) (name : String) : Function :=
  { f with names := (id, name) :: f.names.filter (·.1 != id) }

/-- What `substitute source target` does to a single use. -/
def redirect (source target id : ExprId) : ExprId :=
  if id = source then target else id

/-- Turns each use of `source` into a use of `target`, in expressions and in statements. The
expression `target` itself stays as it is, so that one that is built on `source` does not come to
use itself. -/
def substitute (f : Function) (source target : ExprId) : Function :=
  { f with
    expressions := f.expressions.mapIdx fun id e =>
      if id = target then e else e.mapOperands (redirect source target)
    body := f.body.map (·.mapOperands (redirect source target)) }

/-- Whether `substitute source target` finds a use to replace. -/
def usesOutside (f : Function) (source target : ExprId) : Bool :=
  ((List.range f.expressions.size).any fun id =>
    id != target && (f.expr? id).any (·.operands.contains source)) ||
  f.body.any (·.operands.contains source)

/-- Turns each use of a parameter into a use of `target`. -/
def substituteParameter (f : Function) (index : Nat) (target : ExprId) : Function :=
  (f.parameterOccurrences index).foldl (·.substitute · target) f

/-- Puts calls at the start of the body, if there is one. -/
def prependCalls (f : Function) (calls : List Call) : Function :=
  { f with body := f.body.map (·.prepend calls) }

/-- Replaces each reference to a function: of calls, of their results and of direct marks. -/
def mapCallees (f : Function) (g : FunctionId → FunctionId) : Function :=
  { f with
    params := f.params.map fun p =>
      { p with direct := p.direct.map fun d => { d with accessor := g d.accessor } }
    expressions := f.expressions.map (·.mapCallee g)
    body := f.body.map (·.mapCalls fun c => { c with callee := g c.callee }) }

end Function

end ResourceBinding
