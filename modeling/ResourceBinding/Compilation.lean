import ResourceBinding.Binding.Fault
import ResourceBinding.Binding.Report
import ResourceBinding.FixedResource.Verdict
import ResourceBinding.Log
import ResourceBinding.Reading.Samplers

/-!
# The state of a compilation

What the passes are given and what they leave behind, besides the module. Sets that were once
claimed are never claimed again: `nextSet` only grows, also in runs that fail.
-/

namespace ResourceBinding

/-- What is to be done, and what the log is to show. -/
structure Options where
  /-- Resolve the parameters of functions that kernels call. -/
  resolve : Bool
  /-- Let functions fetch what their parameters were resolved to. -/
  fetch : Bool
  traceNumbering : Bool
  traceBindings : Bool
  traceVerdicts : Bool
deriving DecidableEq, Repr

/-- Nothing but the allocation is to be done, and the log shows no details. -/
def Options.none : Options :=
  ⟨false, false, false, false, false⟩

/-- The state of a compilation. The results of a pass replace those of an earlier run, except for
verdicts, which add up. -/
structure Compilation where
  options : Options
  samplers : SamplerMap
  nextSet : Nat
  buffers : Option Numbering
  allocation : Option AllocationReport
  verdicts : List ParamVerdict
deriving DecidableEq, Repr

/-- The state at the start of a compilation. -/
def Compilation.start (options : Options) (samplers : SamplerMap) : Compilation where
  options := options
  samplers := samplers
  nextSet := 0
  buffers := none
  allocation := none
  verdicts := []

/-- Claims the next set. -/
def Compilation.claim (c : Compilation) : Nat × Compilation :=
  (c.nextSet, { c with nextSet := c.nextSet + 1 })

/-- What a run has come to: the state and the log, also if a fault ended it, and the module, with
whether it was changed. -/
structure Outcome where
  compilation : Compilation
  log : Log
  result : Except Fault (Module × Bool)

end ResourceBinding
