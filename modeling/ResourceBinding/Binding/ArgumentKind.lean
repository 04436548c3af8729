import ResourceBinding.Types.Written

/-!
# Kinds of kernel arguments

What the host passes for a parameter of a kernel depends on the shape of its type. Pointers into
the memory of a single function or work item, and pointers that already go into a bound buffer, are
no arguments of kernels.
-/

namespace ResourceBinding

/-- What the host passes for a parameter of a kernel. -/
inductive ArgumentKind where
  | buffer
  /-- Plain data. -/
  | pod
  | readOnlyImage
  | writeOnlyImage
  | sampler
  /-- Memory of a work group. -/
  | workgroup
deriving DecidableEq, Repr

namespace ArgumentKind

/-- The number that accessors are passed for a kind. -/
def tag : ArgumentKind → Nat
  | buffer => 0
  | pod => 1
  | readOnlyImage => 2
  | writeOnlyImage => 3
  | sampler => 4
  | workgroup => 5

/-- The word that reports have for a kind. -/
def word : ArgumentKind → String
  | buffer => "buffer"
  | pod => "pod"
  | readOnlyImage => "ro_image"
  | writeOnlyImage => "wo_image"
  | sampler => "sampler"
  | workgroup => "local"

/-- Whether a parameter of the kind may be resolved to a fixed binding. -/
def isResource : ArgumentKind → Bool
  | buffer | readOnlyImage | writeOnlyImage | sampler => true
  | pod | workgroup => false

/-- The kind for a shape. -/
def ofShape? : Shape → Option ArgumentKind
  | .pointer _ space =>
    match space with
    | .global | .constant => some buffer
    | .workgroup => some workgroup
    | .function | .priv | .storageBuffer => none
  | .sampler => some sampler
  | .image .read => some readOnlyImage
  | .image .write => some writeOnlyImage
  | .scalar _ | .vector _ _ | .array _ _ | .struct _ => some pod

/-- Exactly the shapes of plain data are passed as such. -/
theorem ofShape?_eq_pod_iff {shape : Shape} : ofShape? shape = some pod ↔ shape.isPlain := by
  cases shape with
  | pointer _ space => cases space <;> simp [ofShape?, Shape.isPlain]
  | image access => cases access <;> simp [ofShape?, Shape.isPlain]
  | _ => simp [ofShape?, Shape.isPlain]

end ArgumentKind

/-- A type that is passed for no parameter of a kernel. -/
structure Unclassified where
  text : String
deriving DecidableEq, Repr

/-- The text of the error. -/
def Unclassified.message (e : Unclassified) : String :=
  s!"unhandled kernel argument type: {e.text}"

/-- The kind of argument that the host passes for a type. -/
def TypeTable.argumentKind (types : TypeTable) (type : TypeId) : Except Unclassified ArgumentKind :=
  match (types.get? type).bind fun entry => ArgumentKind.ofShape? entry.shape with
  | some kind => .ok kind
  | none => .error ⟨types.text type⟩

end ResourceBinding
