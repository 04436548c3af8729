import ResourceBinding.Program.Function
import ResourceBinding.Reading.Cursor
import ResourceBinding.Types.Written

/-!
# Reading types and signatures

A type is read as it is written, with its components in place; it enters the table of types only
when the function it belongs to is declared. In the same way a signature keeps the name of the
accessor of a direct mark, which may be declared further down.
-/

namespace ResourceBinding

/-! ## Types -/

/-- The words that types start with. -/
inductive TypeKeyword where
  | scalar (scalar : Scalar)
  | vector
  | array
  | struct
  | pointer
  | sampler
  | image

/-- The type that a word starts. -/
def TypeKeyword.ofWord? : String → Option TypeKeyword
  | "vec" => some vector
  | "array" => some array
  | "ptr" => some pointer
  | "struct" => some struct
  | "sampler" => some sampler
  | "image" => some image
  | w => (Scalar.ofWord? w).map scalar

namespace Reader

/-- Reads the name of a value if one comes next. -/
def valueName? : Reader (Option String) := do
  match ← peek with
  | some (.valueName name) =>
    advance
    return some name
  | _ => return none

/-- Reads the number of components of a vector. -/
def vectorSize : Reader VectorSize := do
  let line ← line
  let count ← natural
  match VectorSize.ofCount? count with
  | some size => return size
  | none => refuse line (.malformedNumber (String.ofList (Numeral.decimal count)))

/-- Reads a type in which types are nested to at most the given depth. -/
def typeWithin : Nat → Reader WrittenType
  | 0 => expected .type
  | depth + 1 => do
    match ← takeWord .type TypeKeyword.ofWord? with
    | .scalar s => return .scalar s
    | .vector =>
      sign '<'
      let size ← vectorSize
      sign ','
      let scalar ← takeWord .scalarType Scalar.ofWord?
      sign '>'
      return .vector size scalar
    | .array =>
      sign '<'
      let element ← typeWithin depth
      let count ← if ← eat (.punct ',') then some <$> natural else pure none
      sign '>'
      return .array element count
    | .struct =>
      let name ← valueName?
      sign '{'
      return .struct name (← itemsUntil '}' (typeWithin depth))
    | .pointer =>
      sign '<'
      let space ← takeWord .addressSpace AddressSpace.ofWord?
      sign ','
      let pointee ← typeWithin depth
      sign '>'
      return .pointer space pointee
    | .sampler => return .sampler
    | .image =>
      sign '<'
      let access ← takeWord .imageAccess ImageAccess.ofWord?
      sign '>'
      return .image access

/-- Reads a type. Each level of nesting takes a token at least. -/
def type : Reader WrittenType := do
  typeWithin (← bound)

end Reader

/-! ## Signatures -/

/-- A direct mark as it is written, with the line it is on. -/
structure WrittenMark where
  accessor : String
  set : Nat
  binding : Nat
  depth : Nat
  line : Nat

/-- A parameter as it is written. -/
structure WrittenParam where
  name : Option String
  type : WrittenType
  direct : Option WrittenMark

/-- The line of a function up to its body. `line` is where its name stands. -/
structure Signature where
  isDeclaration : Bool
  convention : Convention
  name : String
  line : Nat
  params : List WrittenParam
  result : Option WrittenType
  isPure : Bool

namespace Reader

/-- Reads the words in front of a function: whether it is only declared, and its convention. -/
def head : Reader (Bool × Convention) := do
  let (isDeclaration, convention) ← takeWord .header fun
    | "declare" => some (true, Convention.ordinary)
    | "kernel" => some (false, .kernel)
    | "fn" => some (false, .ordinary)
    | _ => none
  if isDeclaration then
    if ← eat (.word "kernel") then
      return (true, .kernel)
  return (isDeclaration, convention)

/-- Reads what follows the word of a direct mark. -/
def direct : Reader WrittenMark := do
  let line ← line
  sign '('
  let accessor ← functionName
  sign ','
  let set ← natural
  sign ','
  let binding ← natural
  sign ','
  let depth ← natural
  sign ')'
  return ⟨accessor, set, binding, depth, line⟩

/-- Reads the name of a parameter, which only a declaration may leave out. -/
def paramName (isDeclaration : Bool) : Reader (Option String) := do
  match isDeclaration, ← peek with
  | false, _ | true, some (.valueName _) =>
    let name ← valueName
    sign ':'
    return some name
  | true, _ => return none

/-- Reads a parameter. -/
def param (isDeclaration : Bool) : Reader WrittenParam := do
  let name ← paramName isDeclaration
  let type ← type
  let mark ← if ← eat (.word "direct") then some <$> direct else pure none
  return ⟨name, type, mark⟩

/-- Reads a signature. -/
def signature : Reader Signature := do
  let (isDeclaration, convention) ← head
  let line ← line
  let name ← functionName
  sign '('
  let params ← itemsUntil ')' (param isDeclaration)
  let result ← if ← eat .arrow then some <$> type else pure none
  let isPure ← eat (.word "pure")
  return { isDeclaration, convention, name, line, params, result, isPure }

end Reader

end ResourceBinding
