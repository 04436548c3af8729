import ResourceBinding.Calls.Order
import ResourceBinding.Compilation
import ResourceBinding.FixedResource.Provenance

/-!
# Resolving parameters

Resolves the parameters of the functions that kernels call, and marks those that receive one fixed
resource at every call. If it is asked for, a function that has such a parameter is rewritten to
fetch the resource itself.

Functions are taken with callers first: by the time the calls of a function are looked at, its
callers have been rewritten, so that what they pass on has an origin.
-/

namespace ResourceBinding

/-! ## Rewriting -/

/-- Why a function does not fetch what its parameter was resolved to. -/
inductive Declined where
  | unknownOperand
  | countsDiffer
  | noBody
deriving DecidableEq, Repr

/-- What the log has about it, if anything. -/
def Declined.text? : Declined → Option String
  | unknownOperand => some "non-constant operand"
  | countsDiffer => some "access shapes differ"
  | noBody => none

/-- Adds zero-offset accesses around a value, of which the outermost is given first. -/
def Function.appendAccesses (f : Function) (value : ExprId) : List Nat → ExprId × Function
  | [] => (value, f)
  | indices :: inner =>
    let (value, f) := f.appendAccesses value inner
    f.appendZeroAccess value indices

/-- Lets a function fetch what its parameter was resolved to: it calls the accessor before anything
else, and what used the parameter uses the same accesses of the result as the callers do. -/
def Function.fetchParameter (f : Function) (index : Nat) (o : Provenance) :
    Except Declined Function :=
  match o.operands.mapM id with
  | none => .error .unknownOperand
  | some literals =>
    if o.indexCounts.length ≠ o.resource.depth then .error .countsDiffer
    else if f.isDeclaration then .error .noBody
    else
      let (operands, f) := f.appendLiterals literals
      let (result, f) := f.append (.result o.resource.accessor)
      let (value, f) := f.appendAccesses result o.indexCounts
      .ok ((f.substituteParameter index value).prependCalls
        [⟨o.resource.accessor, operands, some result⟩])

/-! ## Marks -/

/-- The mark of a parameter. -/
def Module.mark? (m : Module) (function : FunctionId) (index : Nat) : Option FixedResource := do
  let f ← m.function? function
  let p ← f.params[index]?
  p.direct

/-- Marks a parameter, or takes its mark away. -/
def Function.setMark (f : Function) (index : Nat) (mark : Option FixedResource) : Function :=
  { f with params := f.params.modify index fun p => { p with direct := mark } }

/-! ## The pass -/

/-- The state of the pass between two parameters. -/
structure Resolution where
  program : Module
  verdicts : List ParamVerdict
  log : Log
  changed : Bool

namespace Resolution

/-- Adds lines to the log. -/
def emit (s : Resolution) (lines : Log) : Resolution :=
  { s with log := s.log ++ lines }

/-- Adds a verdict. -/
def record (s : Resolution) (function : FunctionId) (index : Nat) (verdict : Verdict) :
    Resolution :=
  { s with verdicts := s.verdicts ++ [⟨function, index, verdict⟩] }

/-- Sets the mark of a parameter. -/
def mark (s : Resolution) (function : FunctionId) (index : Nat)
    (mark : Option FixedResource) : Resolution :=
  { s with
    program := s.program.modify function (·.setMark index mark)
    changed := s.changed || s.program.mark? function index != mark }

/-- Lets a function fetch what its parameter was resolved to, or has the log tell why not. -/
def fetch (s : Resolution) (function : FunctionId) (index : Nat) (o : Provenance) : Resolution :=
  match s.program.function? function with
  | none => s
  | some f =>
    match f.fetchParameter index o with
    | .ok f => { s with program := s.program.modify function fun _ => f, changed := true }
    | .error declined =>
      match declined.text? with
      | some text => s.emit [⟨.debug, s!"DRA: {f.name} arg {index} not rewritten: {text}"⟩]
      | none => s

/-- Resolves a parameter. -/
def step (options : Options) (s : Resolution) (function : FunctionId) (index : Nat) :
    Resolution :=
  let name := s.program.nameOf function
  match s.program.parameterProvenance function index with
  | .error reason =>
    let line := LogLine.trace options.traceVerdicts
      s!"DRA: {name} arg {index} unresolved: {reason.text}"
    ((s.emit [line]).mark function index none).record function index (.unresolved reason)
  | .ok origin =>
    let r := origin.resource
    let line := LogLine.trace options.traceVerdicts
      s!"DRA: {name} arg {index} -> set {r.set} binding {r.binding} depth {r.depth}"
    let s := (s.emit [line]).mark function index (some r)
    let s := if options.fetch then s.fetch function index origin else s
    s.record function index (.resolved r)

/-- Resolves parameters in turn. -/
def run (options : Options) (s : Resolution) (candidates : List (FunctionId × Nat)) :
    Resolution :=
  candidates.foldl (fun s (function, index) => s.step options function index) s

end Resolution

/-- The parameters of a function that may be resolved: those that a kernel would be passed a
resource for. -/
def Function.resourceParams (f : Function) (types : TypeTable) : List Nat :=
  (List.range f.params.length).filter fun index =>
    match f.params[index]? with
    | some p => match types.argumentKind p.type with
      | .ok kind => kind.isResource
      | .error _ => false
    | none => false

/-- The parameters to resolve, in the order of their functions. The host alone calls kernels, so
theirs are none of them. -/
def Module.candidates (m : Module) (order : List FunctionId) : List (FunctionId × Nat) :=
  order.flatMap fun id =>
    match m.function? id with
    | some f =>
      if f.convention = .kernel then []
      else (f.resourceParams m.types).map fun index => (id, index)
    | none => []

/-- Resolves the parameters of the functions that kernels call. -/
def Module.resolveParameters (m : Module) (c : Compilation) : Outcome :=
  let order := m.callGraph.callersFirst
  let start : Resolution := ⟨m, [], order.warnings, false⟩
  let final := start.run c.options (m.candidates order.toList)
  ⟨{ c with verdicts := c.verdicts ++ final.verdicts }, final.log,
    .ok (final.program, final.changed)⟩

end ResourceBinding
