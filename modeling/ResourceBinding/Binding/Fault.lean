import ResourceBinding.Binding.ArgumentKind
import ResourceBinding.Program.Module

/-!
# Faults

Why a module cannot be bound. A fault ends the run it occurs in.
-/

namespace ResourceBinding

/-- Why a module cannot be bound. -/
inductive Fault where
  | noSamplerMap (function : String)
  | samplerNotLiteral (function : String)
  | samplerNotListed (value : Nat) (function : String)
  | workgroupArgument (kernel : String) (position : Nat)
  | unclassifiedArgument (kernel : String) (position : Nat) (cause : Unclassified)
  | unclassified (cause : Unclassified)
  | edit (cause : EditError)
deriving DecidableEq, Repr

/-- The text of a fault. -/
def Fault.message : Fault → String
  | noSamplerMap function =>
    s!"function '{function}' uses a literal sampler but no sampler map was provided"
  | samplerNotLiteral function =>
    s!"sampler initializer in '{function}' has a non-constant argument"
  | samplerNotListed value function =>
    s!"literal sampler value {value} in '{function}' is not in the sampler map"
  | workgroupArgument kernel position =>
    s!"kernel '{kernel}' argument {position}: local arguments are not supported"
  | unclassifiedArgument kernel position cause =>
    s!"kernel '{kernel}' argument {position}: {cause.message}"
  | unclassified cause => cause.message
  | edit cause => cause.message

end ResourceBinding
