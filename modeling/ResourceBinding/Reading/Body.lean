import ResourceBinding.Reading.Signature

/-!
# Reading bodies

The body of a function is read when all functions are known by name. Reading it fills the store of
expressions: a literal is added where it is used, a parameter where it is first used, a definition
where it stands, and the result of a call behind the arguments of the call.

A name means the value that was last given it by a definition above, in whatever block, or else the
parameter of that name.
-/

namespace ResourceBinding

/-- What the names in a body may refer to from outside of it. -/
structure BodyContext where
  /-- The names of the functions of the module, in the order of declaration. -/
  functions : List String
  /-- The parameters of the function. -/
  params : List Param

/-- What has been read of a body. -/
structure BodyDraft where
  expressions : Array Expr
  /-- The names defined so far, the last one first. -/
  values : List (String × ExprId)
  /-- The expressions that stand for the parameters used so far. -/
  parameters : List (Nat × ExprId)

/-- Nothing has been read. -/
def BodyDraft.empty : BodyDraft :=
  ⟨#[], [], []⟩

/-- Reads from a cursor and adds to a draft. -/
abbrev BodyReader := StateT BodyDraft Reader

/-- The literal that a token stands for, unless it is out of range. -/
def Literal.ofToken? : Token → Option Literal
  | .int n => if -0x80000000 ≤ n ∧ n < 0x80000000 then some (.i32 n) else none
  | .uint n => if n < UInt32.size then some (.u32 n) else none
  | .float x => some (.f32 x)
  | .word "true" => some (.bool true)
  | .word "false" => some (.bool false)
  | _ => none

/-- Whether a token may stand for a value. -/
def Token.isOperand : Token → Bool
  | valueName _ | int _ | uint _ | float _ | word "true" | word "false" => true
  | _ => false

/-- What a definition may start with, behind its sign of equality. -/
inductive Operation where
  | access
  | load
  | binary (op : BinaryOp)
  | call

/-- The operation that a word names. -/
def Operation.ofWord? : String → Option Operation
  | "access" => some access
  | "load" => some load
  | "call" => some call
  | w => (BinaryOp.ofWord? w).map binary

/-- What a statement may start with. -/
inductive StmtHead where
  | define (name : String)
  | store
  | call
  | branch
  | loop
  | leave
  | ret

/-- The statement that a token starts. -/
def StmtHead.ofToken? : Token → Option StmtHead
  | .valueName name => some (define name)
  | .word "store" => some store
  | .word "call" => some call
  | .word "if" => some branch
  | .word "loop" => some loop
  | .word "break" => some leave
  | .word "return" => some ret
  | _ => none

namespace BodyReader

open Reader

/-- Adds an expression to the store. -/
def append (e : Expr) : BodyReader ExprId := do
  let draft ← get
  set { draft with expressions := draft.expressions.push e }
  return draft.expressions.size

/-- Adds the expression that stands for a parameter, unless it is there. -/
def parameter (index : Nat) : BodyReader ExprId := do
  match (← get).parameters.lookup index with
  | some id => return id
  | none =>
    let id ← append (.parameter index)
    modify fun draft => { draft with parameters := (index, id) :: draft.parameters }
    return id

/-- Gives a name to an expression. -/
def define (name : String) (id : ExprId) : BodyReader Unit :=
  modify fun draft => { draft with values := (name, id) :: draft.values }

/-- The value of a name that is used at the given line. -/
def value (ctx : BodyContext) (line : Nat) (name : String) : BodyReader ExprId := do
  match (← get).values.lookup name with
  | some id => return id
  | none =>
    match ctx.params.findIdx? (·.name == some name) with
    | some index => parameter index
    | none => refuse line (.unknownValue name)

/-- Reads a value where it is used. -/
def operand (ctx : BodyContext) : BodyReader ExprId := do
  let line ← line
  let token ← take .operand fun token => if token.isOperand then some token else none
  match token with
  | .valueName name => value ctx line name
  | token =>
    match Literal.ofToken? token with
    | some l => append (.literal l)
    | none => refuse line (.malformedNumber token.shown)

/-- Reads values behind commas, at most so many. -/
def operandsWithin (ctx : BodyContext) : Nat → BodyReader (List ExprId)
  | 0 => return []
  | n + 1 => do
    if ← eat (.punct ',') then
      let first ← operand ctx
      return first :: (← operandsWithin ctx n)
    else
      return []

/-- Reads the function and the arguments of a call that starts at the given line. -/
def call (ctx : BodyContext) (line : Nat) : BodyReader (FunctionId × List ExprId) := do
  let name ← functionName
  match ctx.functions.idxOf? name with
  | none => refuse line (.unknownFunction name)
  | some callee =>
    sign '('
    return (callee, ← itemsUntil ')' (operand ctx))

/-- Reads the definition of a name behind its sign of equality. A call is a statement, the other
definitions are none. -/
def definition (ctx : BodyContext) (line : Nat) (name : String) : BodyReader (Option Stmt) := do
  if ((← get).values.lookup name).isSome then
    refuse line (.valueTaken name)
  else
    match ← takeWord .operation Operation.ofWord? with
    | .call =>
      let (callee, arguments) ← call ctx line
      let id ← append (.result callee)
      define name id
      return some (.call ⟨callee, arguments, some id⟩)
    | .access =>
      let base ← operand ctx
      let indices ← operandsWithin ctx (← bound)
      define name (← append (.access base indices))
      return none
    | .load =>
      define name (← append (.load (← operand ctx)))
      return none
    | .binary op =>
      let left ← operand ctx
      sign ','
      let right ← operand ctx
      define name (← append (.binary op left right))
      return none

/-- Reads the value that a statement at the given line returns: it stands on the same line. -/
def returned (ctx : BodyContext) (line : Nat) : BodyReader (Option ExprId) := do
  let cursor ← (get : Reader Cursor)
  match cursor.rest with
  | next :: _ =>
    if next.line = line ∧ next.token ≠ .punct '}' then some <$> operand ctx else return none
  | [] => return none

/-- Reads statements up to the closing brace, of which there are at most so many, with at most so
many blocks nested around each. -/
def blockWithin (ctx : BodyContext) : Nat → BodyReader Block
  | 0 => expected (.punct '}')
  | n + 1 => do
    if ← eat (.punct '}') then
      return .nil
    else if (← peek).isNone then
      expected (.punct '}')
    else
      let line ← line
      match ← take .statement StmtHead.ofToken? with
      | .define name =>
        sign '='
        match ← definition ctx line name with
        | some stmt => return .cons stmt (← blockWithin ctx n)
        | none => blockWithin ctx n
      | .call =>
        let (callee, arguments) ← call ctx line
        return .cons (.call ⟨callee, arguments, none⟩) (← blockWithin ctx n)
      | .store =>
        let pointer ← operand ctx
        sign ','
        let value ← operand ctx
        return .cons (.store pointer value) (← blockWithin ctx n)
      | .ret =>
        let value ← returned ctx line
        return .cons (.ret value) (← blockWithin ctx n)
      | .leave => return .cons .leave (← blockWithin ctx n)
      | .branch =>
        let condition ← operand ctx
        sign '{'
        let accept ← blockWithin ctx n
        let reject ←
          if ← eat (.word "else") then
            sign '{'
            blockWithin ctx n
          else
            pure .nil
        return .branch condition accept reject (← blockWithin ctx n)
      | .loop =>
        sign '{'
        let body ← blockWithin ctx n
        return .loop body (← blockWithin ctx n)

/-- Reads a body. Each statement and each level of nesting takes a token at least. -/
def body (ctx : BodyContext) : BodyReader Block := do
  let n ← bound
  sign '{'
  blockWithin ctx n

end BodyReader

end ResourceBinding
