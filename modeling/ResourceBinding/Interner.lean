/-!
# Interning

An interner numbers values in the order in which they are first seen. It keeps them twice: in that
order, where the value of a number is found, and with their numbers, where the number of a value is
found.
-/

namespace ResourceBinding

/-- Values in the order in which they were first seen, and the number of each. -/
structure Interner (α : Type) where
  order : Array α
  numbers : List (α × Nat)
deriving DecidableEq, Repr

namespace Interner

variable {α : Type} [DecidableEq α]

/-- The interner that has seen nothing. -/
def empty : Interner α :=
  ⟨#[], []⟩

/-- The number of a value that has been seen. -/
def number? (t : Interner α) (a : α) : Option Nat :=
  t.numbers.lookup a

/-- The number of a value, which gets the next one if it is new, and whether it is. -/
def insert (t : Interner α) (a : α) : (Nat × Bool) × Interner α :=
  match t.number? a with
  | some i => ((i, false), t)
  | none => ((t.order.size, true), ⟨t.order.push a, (a, t.order.size) :: t.numbers⟩)

/-- The values with their numbers, from zero on. -/
def entries (t : Interner α) : List (Nat × α) :=
  t.order.toList.mapIdx Prod.mk

/-- Inserts values one after another. -/
def insertAll (t : Interner α) : List α → List (Nat × Bool) × Interner α
  | [] => ([], t)
  | a :: rest =>
    let (answer, t) := t.insert a
    let (answers, t) := t.insertAll rest
    (answer :: answers, t)

end Interner

end ResourceBinding
