import ResourceBinding.Binding.Fault
import ResourceBinding.Binding.Report
import ResourceBinding.Binding.ReservedName
import ResourceBinding.Log

/-!
# Planning the bindings of arguments

Where the arguments of the kernels are bound depends on the signatures of the kernels alone. So the
rows of all arguments are made first, and with them all faults; the module is edited afterwards
(`ResourceBinding.Binding.Kernels`).

Each kernel with arguments claims the next set, with its first argument, and binds its arguments
in it from zero on.
-/

namespace ResourceBinding

/-- What has been claimed and numbered so far. -/
structure PlanState where
  nextSet : Nat
  discriminants : Numbering
  log : Log

/-- Claims sets and numbers discriminants. What was claimed before a fault stays so. -/
abbrev Planner := ExceptT Fault (StateM PlanState)

namespace Planner

/-- The kind of an argument that can be bound. -/
def kind (m : Module) (kernel : Function) (position : Nat) (p : Param) : Except Fault ArgumentKind :=
  match m.types.argumentKind p.type with
  | .error cause => .error (.unclassifiedArgument kernel.name position cause)
  | .ok .workgroup => .error (.workgroupArgument kernel.name position)
  | .ok kind => .ok kind

/-- Adds a line to the log. -/
def emit (line : LogLine) : Planner Unit :=
  modify fun s => { s with log := s.log ++ [line] }

/-- The number of a discriminant. A new one needs an accessor whose name is not taken. -/
def number (m : Module) (wanted : Bool) (key : Discriminant) : Planner Nat := do
  let s ← get
  match s.discriminants.index? key with
  | some index => return index
  | none =>
    let (index, discriminants) := s.discriminants.insert key
    let name := ReservedName.accessor index
    set { s with discriminants }
    if (m.find? name).isSome then
      throw (.edit (.nameTaken name))
    else
      emit (.trace wanted s!"{name} for {m.types.text key.type} {key.position}")
      return index

/-- The row of an argument of a kernel that binds its arguments in the given set. -/
def argument (m : Module) (wanted : Bool) (kernel : Function) (set position : Nat) (p : Param) :
    Planner ArgumentRow := do
  let kind ← kind m kernel position p
  modify fun s => { s with nextSet := set + 1 }
  let index ← number m wanted ⟨p.type, position⟩
  emit (.trace wanted
    s!"kernel {kernel.name} arg {position} ({kind.word}) -> set {set} binding {position}")
  return ⟨kernel.name, position, p.name, kind, set, position, index⟩

/-- The rows of the arguments from the given position on. -/
def arguments (m : Module) (wanted : Bool) (kernel : Function) (set : Nat) :
    Nat → List Param → Planner (List ArgumentRow)
  | _, [] => return []
  | position, p :: rest => do
    let row ← argument m wanted kernel set position p
    return row :: (← arguments m wanted kernel set (position + 1) rest)

/-- The rows of kernels, each with the position of its kernel. -/
def kernels (m : Module) (wanted : Bool) :
    List (FunctionId × Function) → Planner (List (FunctionId × List ArgumentRow))
  | [] => return []
  | (id, f) :: rest => do
    let rows ← arguments m wanted f (← get).nextSet 0 f.params
    return (id, rows) :: (← kernels m wanted rest)

/-- The rows of all kernels of a module. -/
def plan (m : Module) (wanted : Bool) : Planner (List (FunctionId × List ArgumentRow)) :=
  kernels m wanted m.kernels

end Planner

end ResourceBinding
