import ResourceBinding.Binding.Numbering

/-!
# What an allocation has bound

A report has a row for each literal sampler and each argument of a kernel, in the order in which
they were bound.
-/

namespace ResourceBinding

/-- A literal sampler and where it is bound. -/
structure SamplerRow where
  value : Nat
  expression : String
  set : Nat
  binding : Nat
  /-- Where the value first occurs in the sampler map. -/
  mapIndex : Nat
deriving DecidableEq, Repr

/-- An argument of a kernel and where it is bound. -/
structure ArgumentRow where
  kernel : String
  position : Nat
  name : Option String
  kind : ArgumentKind
  set : Nat
  binding : Nat
  /-- The number of its discriminant, and of its accessor. -/
  discriminant : Nat
deriving DecidableEq, Repr

/-- What an allocation has bound. -/
structure AllocationReport where
  samplers : List SamplerRow
  arguments : List ArgumentRow
  discriminants : Numbering
deriving DecidableEq, Repr

end ResourceBinding
