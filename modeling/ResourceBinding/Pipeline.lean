import ResourceBinding.Binding.Allocation
import ResourceBinding.FixedResource.Resolution

/-!
# Passes in sequence

The passes that bind the resources of a module, and runs of several of them. Each runs once, and
the first fault ends the run.
-/

namespace ResourceBinding

/-- A step of binding. -/
inductive Pass where
  /-- Reports how the buffers of the kernels share discriminants. -/
  | reportBuffers
  /-- Binds literal samplers and the arguments of kernels. -/
  | allocate
  /-- Resolves parameters of functions that kernels call. -/
  | resolveParameters
deriving DecidableEq, Repr

namespace Pass

/-- The name of a pass. -/
def name : Pass → String
  | reportBuffers => "buffer-discriminants"
  | allocate => "allocate-descriptors"
  | resolveParameters => "direct-resource-access"

/-- The pass with a name. -/
def ofName? : String → Option Pass
  | "buffer-discriminants" => some reportBuffers
  | "allocate-descriptors" => some allocate
  | "direct-resource-access" => some resolveParameters
  | _ => none

/-- The passes that the options ask for. -/
def standard (options : Options) : List Pass :=
  [reportBuffers, allocate] ++
    if options.resolve then [resolveParameters] else []

end Pass

/-- Reports how the buffers of the kernels share discriminants. The module stays as it is. -/
def Module.reportBuffers (m : Module) (c : Compilation) : Outcome :=
  match m.bufferNumbering with
  | .error cause => ⟨c, [], .error (.unclassified cause)⟩
  | .ok numbering =>
    let log := numbering.keys.zipIdx.map fun (key, index) =>
      LogLine.trace c.options.traceNumbering
        s!"Map {m.types.text key.type} {key.position} -> {index}"
    ⟨{ c with buffers := some numbering }, log, .ok (m, false)⟩

/-- Runs a pass. -/
def Pass.run (pass : Pass) (m : Module) (c : Compilation) : Outcome :=
  match pass with
  | reportBuffers => m.reportBuffers c
  | allocate => m.allocate c
  | resolveParameters => m.resolveParameters c

/-- Runs passes in turn, up to the first fault. -/
def runPasses : List Pass → Module → Compilation → Outcome
  | [], m, c => ⟨c, [], .ok (m, false)⟩
  | pass :: rest, m, c =>
    let first := pass.run m c
    let log := ⟨.debug, s!"running pass '{pass.name}'"⟩ :: first.log
    match first.result with
    | .error fault => { first with log, result := .error fault }
    | .ok (m, changed) =>
      let others := runPasses rest m first.compilation
      let done : LogLine := ⟨.debug, s!"pass '{pass.name}' modified module: {changed}"⟩
      { others with
        log := log ++ done :: others.log
        result := others.result.map fun (m, changedLater) => (m, changed || changedLater) }

end ResourceBinding
