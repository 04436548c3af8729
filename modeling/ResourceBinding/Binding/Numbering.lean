import ResourceBinding.Binding.ArgumentKind
import ResourceBinding.Program.Module

/-!
# Discriminants

Two kernel arguments of the same type at the same position share an accessor. The pair of type and
position is their discriminant, and discriminants are numbered in the order in which they are first
seen.

The numbering is the list of distinct keys. A key has the number that it was given
(`index?_insert`), and keeps it for good (`index?_insert_of_index?`).
-/

namespace ResourceBinding

/-- What kernel arguments with one accessor have in common. -/
structure Discriminant where
  type : TypeId
  position : Nat
deriving DecidableEq, Repr

/-- Discriminants, each numbered by its place in the list. -/
structure Numbering where
  keys : List Discriminant
deriving DecidableEq, Repr

namespace Numbering

/-- The numbering of no discriminants. -/
def empty : Numbering :=
  ⟨[]⟩

/-- The number of a discriminant. -/
def index? (n : Numbering) (key : Discriminant) : Option Nat :=
  n.keys.idxOf? key

/-- The number of a discriminant, which gets the next one if it is new. -/
def insert (n : Numbering) (key : Discriminant) : Nat × Numbering :=
  match n.index? key with
  | some i => (i, n)
  | none => (n.keys.length, ⟨n.keys ++ [key]⟩)

/-- **What was inserted has the number that was returned.** -/
@[simp]
theorem index?_insert (n : Numbering) (key : Discriminant) :
    (n.insert key).2.index? key = some (n.insert key).1 := by
  unfold insert
  split
  · assumption
  · rename_i h
    simp only [index?, List.idxOf?] at h
    simp [index?, List.idxOf?, List.findIdx?_append, h]

/-- **A key keeps its number.** -/
theorem index?_insert_of_index? {n : Numbering} {key : Discriminant} {i : Nat}
    (h : n.index? key = some i) (other : Discriminant) :
    (n.insert other).2.index? key = some i := by
  unfold insert
  split
  · exact h
  · simp only [index?, List.idxOf?] at h
    simp [index?, List.idxOf?, List.findIdx?_append, h]

end Numbering

/-- The discriminants of the buffers among the arguments of the kernels. Other arguments have none,
but count in the positions. -/
def Module.bufferNumbering (m : Module) : Except Unclassified Numbering :=
  let arguments := m.kernels.flatMap fun (_, f) =>
    f.params.mapIdx fun position p => Discriminant.mk p.type position
  arguments.foldlM (fun n key => do
    match ← m.types.argumentKind key.type with
    | .buffer => return (n.insert key).2
    | _ => return n) .empty

end ResourceBinding
