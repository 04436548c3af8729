import ResourceBinding.Program.Function
import ResourceBinding.Types.Written

/-!
# Modules

A module is a table of types and the functions in the order of their declaration. Functions refer
to each other by position, so removing one moves every reference to those behind it.
-/

namespace ResourceBinding

/-- Why a module was not edited. -/
inductive EditError where
  | noFunction (index size : Nat)
  | nameTaken (name : String)
  | stillCalled (name : String) (sites : Nat)
deriving DecidableEq, Repr

/-- The text of the error. -/
def EditError.message : EditError → String
  | noFunction index size => s!"handle index {index} out of bounds (arena size: {size})"
  | nameTaken name => s!"function '{name}' is already defined"
  | stillCalled name sites => s!"function '{name}' is still called from {sites} site(s)"

/-- A module. The names of its functions are distinct. -/
structure Module where
  types : TypeTable
  functions : Array Function
deriving DecidableEq, Repr

namespace Module

/-- The module without types and functions. -/
def empty : Module :=
  ⟨.empty, #[]⟩

/-! ## Looking up -/

/-- The function at a position. -/
def function? (m : Module) (id : FunctionId) : Option Function :=
  m.functions[id]?

/-- The name of the function at a position; a question mark where there is none. -/
def nameOf (m : Module) (id : FunctionId) : String :=
  match m.function? id with
  | some f => f.name
  | none => "?"

/-- The position of the function with a name. -/
def find? (m : Module) (name : String) : Option FunctionId :=
  m.functions.findIdx? (·.name == name)

/-- The functions with their positions, in the order of declaration. -/
def indexed (m : Module) : List (FunctionId × Function) :=
  m.functions.toList.zipIdx.map fun (f, id) => (id, f)

/-- The kernels with their positions, in the order of declaration. -/
def kernels (m : Module) : List (FunctionId × Function) :=
  m.indexed.filter (·.2.isKernel)

/-- Each call of a function, with its caller: callers in the order of declaration, and the calls of
one caller in program order. -/
def callsTo (m : Module) (callee : FunctionId) : List (FunctionId × Call) :=
  m.indexed.flatMap fun (caller, f) =>
    (f.calls.filter (·.callee == callee)).map fun c => (caller, c)

/-! ## Editing -/

/-- Adds a function behind the others. -/
def push (m : Module) (f : Function) : FunctionId × Module :=
  (m.functions.size, { m with functions := m.functions.push f })

/-- Adds a function whose name is not taken. -/
def add (m : Module) (f : Function) : Except EditError (FunctionId × Module) :=
  match m.find? f.name with
  | some _ => .error (.nameTaken f.name)
  | none => .ok (m.push f)

/-- The function with the name of the given one, which is added if there is none. -/
def ensure (m : Module) (f : Function) : FunctionId × Module :=
  match m.find? f.name with
  | some id => (id, m)
  | none => m.push f

/-- Enters a shape without a name into the table of types. -/
def insertShape (m : Module) (shape : Shape) : TypeId × Module :=
  let (id, types) := m.types.insertShape shape
  (id, { m with types })

/-- Edits the function at a position. -/
def modify (m : Module) (id : FunctionId) (edit : Function → Function) : Module :=
  { m with functions := m.functions.modify id edit }

/-- Where a reference to a function points once the function at `removed` is gone. -/
def shift (removed id : FunctionId) : FunctionId :=
  if removed < id then id - 1 else id

/-- Removes a function that is not called. -/
def remove (m : Module) (id : FunctionId) : Except EditError (Function × Module) :=
  match m.function? id with
  | none => .error (.noFunction id m.functions.size)
  | some f =>
    let sites := (m.callsTo id).length
    if sites = 0 then
      let others := m.functions.eraseIdxIfInBounds id
      .ok (f, { m with functions := others.map (·.mapCallees (shift id)) })
    else .error (.stillCalled f.name sites)

end Module

end ResourceBinding
