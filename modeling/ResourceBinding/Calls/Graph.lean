import ResourceBinding.Program.Module

/-!
# The call graph

Which functions with a body call which others with a body. Declarations are no part of it.
-/

namespace ResourceBinding

/-- The call graph of a module: what each function calls, in the order of declaration, and the
functions that the host may call. -/
structure CallGraph where
  edges : Array (List FunctionId)
  roots : List FunctionId

/-- Whether there is a function with a body at a position. -/
def Module.isDefined (m : Module) (id : FunctionId) : Bool :=
  (m.function? id).any fun f => !f.isDeclaration

/-- The functions with a body that a function calls, in the order of declaration. -/
def Module.definedCallees (m : Module) (f : Function) : List FunctionId :=
  (List.range m.functions.size).filter fun id => m.isDefined id && f.calls.any (·.callee == id)

/-- The call graph of a module. -/
def Module.callGraph (m : Module) : CallGraph :=
  ⟨m.functions.map m.definedCallees, m.kernels.map Prod.fst⟩

namespace CallGraph

/-- What a function calls. -/
def callees (g : CallGraph) (caller : FunctionId) : List FunctionId :=
  g.edges.getD caller []

/-- The functions that call a function. -/
def callers (g : CallGraph) (callee : FunctionId) : List FunctionId :=
  (List.range g.edges.size).filter fun id => (g.callees id).contains callee

end CallGraph

end ResourceBinding
