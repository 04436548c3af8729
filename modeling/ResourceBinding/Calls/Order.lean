import ResourceBinding.Calls.Graph
import ResourceBinding.Log

/-!
# Orders on the functions that kernels call

Two orders are taken from a call graph. The *breadth-first* order goes out from the kernels in
layers: each layer holds what the one before it calls and no earlier one holds. The order with
*callers first* puts callers before what they call, as far as the calls form no cycle.

## Why the loops end

Every layer but the last has a function that no earlier layer has, and every round of the second
order takes a function away, so that in both the number of functions bounds the rounds.
-/

namespace ResourceBinding

namespace CallGraph

/-! ## Breadth first -/

/-- The first occurrence of each candidate that has not been seen. -/
def fresh (seen : List FunctionId) : List FunctionId → List FunctionId
  | [] => []
  | f :: candidates =>
    if seen.contains f then fresh seen candidates else f :: fresh (f :: seen) candidates

/-- At most so many layers, of which `layer` is the first, where `seen` are the functions of earlier
ones. -/
def layersWithin (g : CallGraph) :
    Nat → List FunctionId → List FunctionId → List (List FunctionId)
  | 0, _, _ => []
  | n + 1, seen, layer =>
    if layer.isEmpty then []
    else
      let seen := layer ++ seen
      layer :: layersWithin g n seen (fresh seen (layer.flatMap g.callees))

/-- The functions that calls lead to from the kernels, in layers by the number of calls it takes. -/
def layers (g : CallGraph) : List (List FunctionId) :=
  g.layersWithin g.edges.size [] g.roots

/-- The functions that calls lead to from the kernels. The kernels come first, and within a layer a
function stands by the first that calls it. -/
def breadthFirst (g : CallGraph) : List FunctionId :=
  g.layers.flatten

/-! ## Callers first -/

/-- Functions with callers first. Those in `caught` lie on a cycle of calls or behind one. -/
structure CallOrder where
  settled : List FunctionId
  caught : List FunctionId
deriving DecidableEq, Repr

/-- All functions of an order. -/
def CallOrder.toList (order : CallOrder) : List FunctionId :=
  order.settled ++ order.caught

/-- The warning about functions that a cycle of calls has caught, if there are any. -/
def CallOrder.warnings (order : CallOrder) : Log :=
  let caught := order.caught.length
  if caught = 0 then []
  else [⟨.warn, s!"call graph has a cycle; {caught} function(s) ordered by discovery only"⟩]

/-- Whether none of the functions that remain calls a function. -/
def isFree (g : CallGraph) (remaining : List FunctionId) (f : FunctionId) : Bool :=
  remaining.all fun caller => !(g.callees caller).contains f

/-- Takes away, at most so many times, the functions that none of the remaining ones calls. -/
def settleWithin (g : CallGraph) : Nat → List FunctionId → CallOrder
  | 0, remaining => ⟨[], remaining⟩
  | n + 1, remaining =>
    let free := remaining.filter (g.isFree remaining)
    if free.isEmpty then ⟨[], remaining⟩
    else
      let order := settleWithin g n (remaining.filter fun f => !g.isFree remaining f)
      { order with settled := free ++ order.settled }

/-- The functions that calls lead to from the kernels, callers before callees. Functions that are
taken away together, and those that a cycle has caught, keep the breadth-first order. -/
def callersFirst (g : CallGraph) : CallOrder :=
  let reached := g.breadthFirst
  g.settleWithin reached.length reached

end CallGraph

end ResourceBinding
