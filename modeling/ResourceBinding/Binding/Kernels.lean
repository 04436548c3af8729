import ResourceBinding.Binding.Report
import ResourceBinding.Binding.ReservedName

/-!
# Binding the arguments of kernels

Each discriminant has an accessor, a declaration that is called with a set, a binding, the tag of a
kind and a position. A kernel calls the accessor of each of its arguments before anything else, and
what used the argument uses the result of that call.

A buffer is reached by three zero indices: over the pointer, into the carrier, to the first
element. Plain data is reached by the first two and loaded. Samplers and images are the result
itself.
-/

namespace ResourceBinding

/-! ## Accessors -/

/-- The structure around the data of the accessor with a number, as a pointer to a bound buffer. -/
def Module.insertCarrier (m : Module) (index : Nat) (data : TypeId) : TypeId × Module :=
  let (carrier, types) := m.types.insert
    ⟨some (ReservedName.carrier index), .struct [⟨none, data⟩]⟩
  { m with types }.insertShape (.pointer carrier .storageBuffer)

/-- The type that the accessor with a number returns for arguments of a type. -/
def Module.insertAccessorResult (m : Module) (index : Nat) (type : TypeId) : TypeId × Module :=
  match (m.types.get? type).map TypeEntry.shape with
  | some .sampler | some (.image _) => (type, m)
  | some (.pointer pointee _) =>
    let (elements, m) := m.insertShape (.array pointee none)
    m.insertCarrier index elements
  | _ => m.insertCarrier index type

/-- Declares the accessor with a number. -/
def Module.addAccessor (m : Module) (index : Nat) (key : Discriminant) : Module :=
  let (result, m) := m.insertAccessorResult index key.type
  let (u32, m) := m.insertShape (.scalar .u32)
  (m.push
    { Function.declaration (ReservedName.accessor index) [u32, u32, u32, u32] (some result) with
      isPure := true }).2

/-- Declares accessors in the order of their numbers, the first of which is given. -/
def Module.addAccessors (m : Module) : Nat → List Discriminant → Module
  | _, [] => m
  | index, key :: keys => (m.addAccessor index key).addAccessors (index + 1) keys

/-! ## Kernels -/

/-- What the uses of an argument come to use, where `result` is the result of its accessor. -/
def Function.appendArgument (f : Function) (kind : ArgumentKind) (result : ExprId) :
    ExprId × Function :=
  match kind with
  | .buffer => f.appendZeroAccess result 3
  | .pod =>
    let (pointer, f) := f.appendZeroAccess result 2
    f.append (.load pointer)
  | .readOnlyImage | .writeOnlyImage | .sampler | .workgroup => (result, f)

/-- Binds an argument by its row, where `first` is the accessor with the number zero. Yields the
call of the accessor. -/
def Function.bindArgument (f : Function) (first : FunctionId) (row : ArgumentRow) :
    Call × Function :=
  let accessor := first + row.discriminant
  let (operands, f) := f.appendLiterals
    [.u32 row.set, .u32 row.binding, .u32 row.kind.tag, .u32 row.position]
  let (result, f) := f.append (.result accessor)
  let (value, f) := f.appendArgument row.kind result
  (⟨accessor, operands, some result⟩, f.substituteParameter row.position value)

/-- Binds arguments in turn. Yields the calls of their accessors. -/
def Function.bindEach (first : FunctionId) : List ArgumentRow → Function → List Call × Function
  | [], f => ([], f)
  | row :: rows, f =>
    let (call, f) := f.bindArgument first row
    let (calls, f) := bindEach first rows f
    (call :: calls, f)

/-- Binds the arguments of a kernel by their rows. -/
def Function.bindArguments (f : Function) (first : FunctionId) (rows : List ArgumentRow) :
    Function :=
  let (calls, f) := bindEach first rows f
  f.prependCalls calls

/-- Binds the arguments of kernels by their rows. The discriminants of the rows get accessors. -/
def Module.bindArguments (m : Module) (keys : List Discriminant)
    (kernels : List (FunctionId × List ArgumentRow)) : Module :=
  kernels.foldl
    (fun bound (id, rows) => bound.modify id (·.bindArguments m.functions.size rows))
    (m.addAccessors 0 keys)

end ResourceBinding
