import ResourceBinding.Binding.Kernels
import ResourceBinding.Binding.LiteralSamplers
import ResourceBinding.Binding.Plan
import ResourceBinding.Compilation

/-!
# Allocation

Binds the literal samplers and then the arguments of the kernels. With a sampler map, the samplers
claim a set of their own before the kernels claim theirs, whether or not they are used.
-/

namespace ResourceBinding

/-- Binds the literal samplers. Yields their rows along with the outcome. -/
def Module.allocateSamplers (m : Module) (c : Compilation) : List SamplerRow × Outcome :=
  if c.samplers.isEmpty then
    match m.samplerUser? with
    | some f => ([], ⟨c, [], .error (.noSamplerMap f.name)⟩)
    | none => ([], ⟨c, [], .ok (m, false)⟩)
  else
    let (set, c) := c.claim
    let rows := samplerRows set c.samplers
    (rows, ⟨c, rows.map (·.line c.options.traceBindings), m.bindSamplers rows⟩)

/-- Binds the arguments of the kernels. The module is changed if there are any. -/
def Module.allocateArguments (m : Module) (c : Compilation) (samplers : List SamplerRow) :
    Outcome :=
  let wanted := c.options.traceBindings
  match ((Planner.plan m wanted).run ⟨c.nextSet, .empty, []⟩) with
  | (.error fault, plan) => ⟨{ c with nextSet := plan.nextSet }, plan.log, .error fault⟩
  | (.ok kernels, plan) =>
    let arguments := kernels.flatMap Prod.snd
    let report : AllocationReport := ⟨samplers, arguments, plan.discriminants⟩
    ⟨{ c with nextSet := plan.nextSet, allocation := some report }, plan.log,
      .ok (m.bindArguments plan.discriminants.keys kernels, !arguments.isEmpty)⟩

/-- Binds the literal samplers and the arguments of the kernels. -/
def Module.allocate (m : Module) (c : Compilation) : Outcome :=
  let (rows, first) := m.allocateSamplers c
  match first.result with
  | .error _ => first
  | .ok (m, changed) =>
    let second := m.allocateArguments first.compilation rows
    { second with
      log := first.log ++ second.log
      result := second.result.map fun (m, changedAgain) => (m, changed || changedAgain) }

end ResourceBinding
