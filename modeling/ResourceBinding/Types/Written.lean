import ResourceBinding.Layout
import ResourceBinding.Types.Table

/-!
# Types written out

A type as text shows it, with its components in place instead of their positions.

`TypeTable.written?` writes out the type at a position, `TypeTable.intern` enters a written type
into the table, components first, and `WrittenType.pieces` lays it out as text.

Writing out ends on every table: a component is followed only to a smaller position, and in a table
that was built by `insert` a component always stands before the types that are built from it.
-/

namespace ResourceBinding

/-- A type with its components in place. Only structures show a name. -/
inductive WrittenType where
  | scalar (scalar : Scalar)
  | vector (size : VectorSize) (scalar : Scalar)
  | array (element : WrittenType) (count : Option Nat)
  | struct (name : Option String) (members : List WrittenType)
  | pointer (space : AddressSpace) (pointee : WrittenType)
  | sampler
  | image (access : ImageAccess)
deriving Repr

namespace WrittenType

mutual

/-- The text of a type. -/
def pieces : WrittenType → List Piece
  | scalar s => [.word s.word]
  | vector size s =>
    [.word "vec", .punct '<', .count size.count, .punct ',', .gap, .word s.word, .punct '>']
  | array element none => [.word "array", .punct '<'] ++ element.pieces ++ [.punct '>']
  | array element (some n) =>
    [.word "array", .punct '<'] ++ element.pieces ++ [.punct ',', .gap, .count n, .punct '>']
  | struct name members =>
    let title : List Piece := match name with
      | some name => [.gap, .valueName name]
      | none => []
    [.word "struct"] ++ title ++ [.punct '{'] ++ Piece.commaSeparated (piecesEach members) ++
      [.punct '}']
  | pointer space pointee =>
    [.word "ptr", .punct '<', .word space.word, .punct ',', .gap] ++ pointee.pieces ++ [.punct '>']
  | sampler => [.word "sampler"]
  | image access => [.word "image", .punct '<', .word access.word, .punct '>']

/-- The text of each type of a list. -/
def piecesEach : List WrittenType → List (List Piece)
  | [] => []
  | type :: types => type.pieces :: piecesEach types

end

end WrittenType

namespace TypeTable

mutual

/-- Enters a written type into the table, its components before it and from left to right. -/
def intern : WrittenType → TypeTable → TypeId × TypeTable
  | .scalar s, types => types.insertShape (.scalar s)
  | .vector size s, types => types.insertShape (.vector size s)
  | .array element count, types =>
    let (element, types) := intern element types
    types.insertShape (.array element count)
  | .struct name members, types =>
    let (members, types) := internEach members types
    types.insert ⟨name, .struct (members.map fun type => ⟨none, type⟩)⟩
  | .pointer space pointee, types =>
    let (pointee, types) := intern pointee types
    types.insertShape (.pointer pointee space)
  | .sampler, types => types.insertShape .sampler
  | .image access, types => types.insertShape (.image access)

/-- Enters the types of a list, from left to right. -/
def internEach : List WrittenType → TypeTable → List TypeId × TypeTable
  | [], types => ([], types)
  | written :: rest, types =>
    let (type, types) := intern written types
    let (others, types) := internEach rest types
    (type :: others, types)

end

/-- The type at a position, written out; `none` if the position, or that of a component, has no
entry before it. -/
def written? (types : TypeTable) (id : TypeId) : Option WrittenType :=
  let component (c : TypeId) : Option WrittenType := if c < id then types.written? c else none
  match types.get? id with
  | none => none
  | some ⟨name, shape⟩ =>
    match shape with
    | .scalar s => some (.scalar s)
    | .vector size s => some (.vector size s)
    | .array element count => (component element).map (.array · count)
    | .struct members => (members.mapM fun m => component m.type).map (.struct name)
    | .pointer pointee space => (component pointee).map (.pointer space)
    | .sampler => some .sampler
    | .image access => some (.image access)
termination_by id

/-- The text of the type at a position, empty where there is none. -/
def pieces (types : TypeTable) (id : TypeId) : List Piece :=
  match types.written? id with
  | some type => type.pieces
  | none => []

/-- The text of the type at a position. -/
def text (types : TypeTable) (id : TypeId) : String :=
  render (types.pieces id)

end TypeTable

end ResourceBinding
