/-!
# Types of values

Scalars, vector sizes, address spaces and image accesses, each with the word it is written as, and
the shapes that types are built from. A composite type names its components by their position in
the table of types of its module (`ResourceBinding.Types.Table`).
-/

namespace ResourceBinding

/-- The position of a type in the table of types. -/
abbrev TypeId := Nat

/-- What the bits of a scalar stand for. -/
inductive ScalarKind where
  | bool
  | sint
  | uint
  | float
deriving DecidableEq, Repr

/-- A scalar type. The width is in bytes. -/
structure Scalar where
  kind : ScalarKind
  width : UInt8
deriving DecidableEq, Repr

namespace Scalar

/-- The booleans of text. -/
def bool : Scalar := ⟨.bool, 1⟩

/-- Integers of 32 bits with a sign. -/
def i32 : Scalar := ⟨.sint, 4⟩

/-- Integers of 32 bits without a sign. -/
def u32 : Scalar := ⟨.uint, 4⟩

/-- Numbers in single precision. -/
def f32 : Scalar := ⟨.float, 4⟩

/-- The width in bits. It is an octet as well, so that widths from 32 bytes on wrap around. -/
def bits (s : Scalar) : UInt8 :=
  8 * s.width

/-- The word a scalar type is written as: a letter for the kind, and the width in bits. All
booleans are written alike. -/
def word (s : Scalar) : String :=
  match s.kind with
  | .bool => "bool"
  | .sint => "i" ++ toString s.bits
  | .uint => "u" ++ toString s.bits
  | .float => "f" ++ toString s.bits

/-- The scalar type that a word names. Text has words for four of them. -/
def ofWord? : String → Option Scalar
  | "bool" => some bool
  | "i32" => some i32
  | "u32" => some u32
  | "f32" => some f32
  | _ => none

end Scalar

/-- The number of components of a vector. -/
inductive VectorSize where
  | two
  | three
  | four
deriving DecidableEq, Repr

namespace VectorSize

/-- The number itself. -/
def count : VectorSize → Nat
  | two => 2
  | three => 3
  | four => 4

/-- The size with a number of components: there are vectors of two to four. -/
def ofCount? : Nat → Option VectorSize
  | 2 => some two
  | 3 => some three
  | 4 => some four
  | _ => none

/-- Sizes are told by their number of components. -/
theorem ofCount?_eq_some_iff {n : Nat} {size : VectorSize} :
    ofCount? n = some size ↔ n = size.count := by
  constructor
  · intro h
    unfold ofCount? at h
    split at h <;> simp at h <;> subst h <;> rfl
  · rintro rfl
    cases size <;> rfl

end VectorSize

/-- The memory a pointer points into. -/
inductive AddressSpace where
  | function
  | priv
  | global
  | constant
  | workgroup
  | storageBuffer
deriving DecidableEq, Repr

namespace AddressSpace

/-- The word that an address space is written as. -/
def word : AddressSpace → String
  | function => "function"
  | priv => "private"
  | global => "global"
  | constant => "constant"
  | workgroup => "local"
  | storageBuffer => "storage_buffer"

/-- The address space that a word names. -/
def ofWord? : String → Option AddressSpace
  | "function" => some function
  | "private" => some priv
  | "global" => some global
  | "constant" => some constant
  | "local" => some workgroup
  | "storage_buffer" => some storageBuffer
  | _ => none

@[simp]
theorem ofWord?_word (space : AddressSpace) : ofWord? space.word = some space := by
  cases space <;> rfl

end AddressSpace

/-- What may be done with an image. -/
inductive ImageAccess where
  | read
  | write
deriving DecidableEq, Repr

namespace ImageAccess

/-- The word that an access is written as. -/
def word : ImageAccess → String
  | read => "read"
  | write => "write"

/-- The access that a word names. -/
def ofWord? : String → Option ImageAccess
  | "read" => some read
  | "write" => some write
  | _ => none

@[simp]
theorem ofWord?_word (access : ImageAccess) : ofWord? access.word = some access := by
  cases access <;> rfl

end ImageAccess

/-- A member of a structure. -/
structure Member where
  name : Option String
  type : TypeId
deriving DecidableEq, Repr

/-- The shape of a type. An array without a count has its size fixed only when the program runs. -/
inductive Shape where
  | scalar (scalar : Scalar)
  | vector (size : VectorSize) (scalar : Scalar)
  | array (element : TypeId) (count : Option Nat)
  | struct (members : List Member)
  | pointer (pointee : TypeId) (space : AddressSpace)
  | sampler
  | image (access : ImageAccess)
deriving DecidableEq, Repr

namespace Shape

/-- The types a shape is built from. -/
def components : Shape → List TypeId
  | array element _ => [element]
  | struct members => members.map Member.type
  | pointer pointee _ => [pointee]
  | scalar _ | vector _ _ | sampler | image _ => []

/-- Whether values of the shape are passed as plain data. -/
def isPlain : Shape → Bool
  | scalar _ | vector _ _ | array _ _ | struct _ => true
  | pointer _ _ | sampler | image _ => false

end Shape

/-- An entry of the table of types: a shape, and a name if it has one. -/
structure TypeEntry where
  name : Option String
  shape : Shape
deriving DecidableEq, Repr

/-- A shape without a name. -/
def TypeEntry.anonymous (shape : Shape) : TypeEntry :=
  ⟨none, shape⟩

end ResourceBinding
