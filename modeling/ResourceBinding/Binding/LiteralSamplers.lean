import ResourceBinding.Binding.Fault
import ResourceBinding.Binding.Report
import ResourceBinding.Binding.ReservedName
import ResourceBinding.Log
import ResourceBinding.Reading.Samplers

/-!
# Binding literal samplers

All literal samplers share one set. Each value of the sampler map has one binding in it, in the
order of first occurrences. A call that makes a sampler from its value becomes a call of the
accessor of literal samplers, in the same place, and the function that makes samplers is removed.
-/

namespace ResourceBinding

/-! ## The rows -/

/-- The rows with another sampler, which stands at `index` in the sampler map. Only a value that
has no row gets one. -/
def addSamplerRow (set : Nat) (rows : List SamplerRow) (sampler : Sampler) (index : Nat) :
    List SamplerRow :=
  if rows.any (·.value == sampler.value) then rows
  else rows ++ [⟨sampler.value, sampler.expression, set, rows.length, index⟩]

/-- The rows of a sampler map whose samplers are bound in the given set. -/
def samplerRows (set : Nat) (samplers : SamplerMap) : List SamplerRow :=
  samplers.zipIdx.foldl (fun rows (sampler, index) => addSamplerRow set rows sampler index) []

/-- What the log has about a row. -/
def SamplerRow.line (wanted : Bool) (row : SamplerRow) : LogLine :=
  let value := String.ofList (Numeral.hexadecimal row.value)
  .trace wanted
    s!"literal sampler 0x{value} ({row.expression}) -> set {row.set} binding {row.binding}"

/-! ## The calls -/

/-- What a call that makes a sampler becomes: its replacement, and the functions that it concerns. -/
structure SamplerBinding where
  rows : List SamplerRow
  initializer : FunctionId
  accessor : FunctionId

/-- The row of the sampler that a call makes in a function. -/
def SamplerBinding.row? (b : SamplerBinding) (f : Function) (c : Call) :
    Except Fault SamplerRow :=
  match (c.arguments.head?.bind f.literal?).bind Literal.natural? with
  | none => .error (.samplerNotLiteral f.name)
  | some value =>
    match b.rows.find? (·.value == value) with
    | none => .error (.samplerNotListed value f.name)
    | some row => .ok row

/-- Replaces a call, if it makes a sampler. The operands of the new call are added to the
function. -/
def SamplerBinding.rewriteCall (b : SamplerBinding) (c : Call) :
    StateT Function (Except Fault) Call := fun f =>
  if c.callee = b.initializer then
    match b.row? f c with
    | .error fault => .error fault
    | .ok row =>
      let (operands, f) := f.appendLiterals [.u32 row.set, .u32 row.binding, .u32 row.mapIndex]
      .ok ({ c with callee := b.accessor, arguments := operands }, f)
  else .ok (c, f)

/-- The expressions that are results of calls of a function. -/
def Function.resultsOf (f : Function) (callee : FunctionId) : List ExprId :=
  (f.calls.filter (·.callee == callee)).filterMap Call.result

/-- Replaces the calls in a function that make samplers, and their results. -/
def SamplerBinding.rewrite (b : SamplerBinding) (f : Function) : Except Fault Function :=
  match f.body with
  | none => .ok f
  | some body =>
    match (body.mapCallsM b.rewriteCall).run f with
    | .error fault => .error fault
    | .ok (body, g) =>
      let expressions := (f.resultsOf b.initializer).foldl
        (fun es id => es.setIfInBounds id (.result b.accessor)) g.expressions
      .ok { g with expressions, body := some body }

/-! ## The module -/

/-- The first function that makes a sampler. -/
def Module.samplerUser? (m : Module) : Option Function :=
  match m.find? ReservedName.samplerMaker with
  | none => none
  | some initializer =>
    (m.indexed.find? fun (_, f) => f.calls.any (·.callee == initializer)).map Prod.snd

/-- The accessor of literal samplers, which is declared if there is none. -/
def Module.samplerAccessor (m : Module) : FunctionId × Module :=
  let (u32, m) := m.insertShape (.scalar .u32)
  let (sampler, m) := m.insertShape .sampler
  m.ensure
    { Function.declaration ReservedName.samplerAccessor [u32, u32, u32] (some sampler) with
      isPure := true }

/-- Binds the samplers of a module by the given rows, and tells whether that changed it. The
function that makes samplers is removed even if it is not called. -/
def Module.bindSamplers (m : Module) (rows : List SamplerRow) : Except Fault (Module × Bool) :=
  match m.find? ReservedName.samplerMaker with
  | none => .ok (m, false)
  | some initializer => do
    let m ← match m.samplerUser? with
      | none => pure m
      | some _ => do
        let (accessor, m) := m.samplerAccessor
        let functions ← m.functions.mapM (SamplerBinding.rewrite ⟨rows, initializer, accessor⟩)
        pure { m with functions }
    match m.remove initializer with
    | .ok (_, m) => return (m, true)
    | .error cause => throw (.edit cause)

end ResourceBinding
