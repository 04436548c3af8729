import ResourceBinding.Number.Numeral

/-!
# Reserved names

Names of functions and types that have a meaning to the binding of resources and to whatever emits
code from the bound module.
-/

namespace ResourceBinding.ReservedName

/-- The function that makes a literal sampler from its value. -/
def samplerMaker : String :=
  "__translate_sampler_initializer"

/-- The accessor of literal samplers: it is called with a set, a binding and an index into the
sampler map. -/
def samplerAccessor : String :=
  "kernbind.sampler.literal"

/-- What the names of resource accessors start with. A number follows. -/
def accessorStem : String :=
  "kernbind.resource."

/-- What the names of carrier types start with. A number follows. -/
def carrierStem : String :=
  "kernbind.resource.type."

/-- The accessor with a number: it is called with a set, a binding, the tag of a kind and a
position. -/
def accessor (index : Nat) : String :=
  accessorStem ++ String.ofList (Numeral.decimal index)

/-- The type of what the accessor with a number leads to. -/
def carrier (index : Nat) : String :=
  carrierStem ++ String.ofList (Numeral.decimal index)

/-- Whether a name is that of a resource accessor. -/
def isAccessor (name : String) : Bool :=
  match accessorStem.toList.isPrefixOf? name.toList with
  | some digits => !digits.isEmpty && digits.all Char.isDigit
  | none => false

end ResourceBinding.ReservedName
