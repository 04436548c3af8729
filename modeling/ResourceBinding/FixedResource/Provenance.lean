import ResourceBinding.Binding.ReservedName
import ResourceBinding.FixedResource.Verdict
import ResourceBinding.Program.Module

/-!
# Where arguments come from

The argument of a call is followed back through accesses whose indices are all zero. If it comes
from a call of an accessor with a constant set and binding, that is its origin. A parameter is
resolved if the arguments at all calls of its function have one origin.

Following accesses ends: there can be no more of them than expressions, unless they form a cycle,
and a cycle leads to no accessor.
-/

namespace ResourceBinding

/-- What an argument comes from. -/
structure Provenance where
  resource : FixedResource
  /-- The number of indices of each access, from the argument inwards. -/
  indexCounts : List Nat
  /-- The operands of the call of the accessor, as far as they are literals. -/
  operands : List (Option Literal)
deriving DecidableEq, Repr

/-- The origin with another access around it. -/
def Provenance.deepen (o : Provenance) (indices : Nat) : Provenance :=
  { o with
    resource := { o.resource with depth := o.resource.depth + 1 }
    indexCounts := indices :: o.indexCounts }

/-- Whether calls of a function lead to resources. -/
def Module.isAccessor (m : Module) (id : FunctionId) : Bool :=
  (m.function? id).any fun f =>
    ReservedName.isAccessor f.name || f.name == ReservedName.samplerAccessor

/-- A constant operand that is not negative. -/
def constantOperand (operands : List (Option Literal)) (i : Nat) :
    Except Obstacle Nat :=
  match (operands[i]?.join).bind Literal.natural? with
  | some n => .ok n
  | none => .error .unknownBinding

/-- The origin that is the result of a call. -/
def Module.callProvenance (m : Module) (caller : Function) (value : ExprId) (callee : FunctionId) :
    Except Obstacle Provenance :=
  if !m.isAccessor callee then .error .otherOrigin
  else
    match caller.callOf? value with
    | none => .error .otherOrigin
    | some c => do
      let operands := c.arguments.map caller.literal?
      let set ← constantOperand operands 0
      let binding ← constantOperand operands 1
      return ⟨⟨callee, set, binding, 0⟩, [], operands⟩

/-- Whether an index is an integer literal equal to zero. -/
def Function.isZeroIndex (f : Function) (id : ExprId) : Bool :=
  (f.literal? id).any Literal.isZero

/-- The origin of a value in a caller, behind at most so many accesses. -/
def Module.provenanceWithin (m : Module) (caller : Function) (levels : Nat) (value : ExprId) :
    Except Obstacle Provenance :=
  match caller.expr? value with
  | some (.access base indices) =>
    if !indices.all caller.isZeroIndex then .error .offset
    else
      match levels with
      | 0 => .error .otherOrigin
      | levels + 1 => (m.provenanceWithin caller levels base).map (·.deepen indices.length)
  | some (.parameter _) => .error .forwarded
  | some (.result callee) => m.callProvenance caller value callee
  | _ => .error .otherOrigin

/-- The origin of a value in a caller. -/
def Module.provenance (m : Module) (caller : Function) (value : ExprId) :
    Except Obstacle Provenance :=
  m.provenanceWithin caller (caller.expressions.size + 1) value

/-- The origin of an argument of a call. -/
def Module.argumentProvenance (m : Module) (index : Nat) (site : FunctionId × Call) :
    Except Obstacle Provenance :=
  match site.2.arguments[index]?, m.function? site.1 with
  | none, _ => .error .tooFewArguments
  | some value, some caller => m.provenance caller value
  | some _, none => .error .otherOrigin

/-- The common origin of the first and another argument. Where the accesses differ, though they are
as many, the counts of indices are dropped. -/
def Provenance.merge (first other : Provenance) : Except Obstacle Provenance :=
  if first.resource ≠ other.resource then .error .conflict
  else if first.indexCounts ≠ other.indexCounts then .ok { first with indexCounts := [] }
  else .ok first

/-- The common origin of the arguments at calls, where the one of an earlier call is given. -/
def Module.commonProvenance (m : Module) (index : Nat) :
    Provenance → List (FunctionId × Call) → Except Obstacle Provenance
  | first, [] => .ok first
  | first, site :: sites => do
    let other ← m.argumentProvenance index site
    let first ← first.merge other
    m.commonProvenance index first sites

/-- The common origin of a parameter at all calls of its function. -/
def Module.parameterProvenance (m : Module) (function : FunctionId) (index : Nat) :
    Except Obstacle Provenance :=
  match m.callsTo function with
  | [] => .error .neverCalled
  | site :: sites => do
    let first ← m.argumentProvenance index site
    m.commonProvenance index first sites

/-- Whether a parameter receives one fixed resource at every call of its function. -/
def Module.verdict (m : Module) (function : FunctionId) (index : Nat) : Verdict :=
  match m.parameterProvenance function index with
  | .ok origin => .resolved origin.resource
  | .error reason => .unresolved reason

end ResourceBinding
