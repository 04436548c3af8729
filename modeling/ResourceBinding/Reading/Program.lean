import ResourceBinding.Program.Module
import ResourceBinding.Reading.Body

/-!
# Reading modules

A text is read in two turns. The first reads every signature and steps over the bodies, so that
functions may be called before they are declared. Then all functions are declared, and the second
turn reads the bodies, each from where the first turn met it.
-/

namespace ResourceBinding

/-- A function as the first turn meets it. A definition keeps the cursor before its body. -/
structure Outline where
  signature : Signature
  body : Option Cursor

/-! ## The first turn -/

/-- The tokens behind the brace that closes a block, where `depth` more blocks are open inside of
it. -/
def afterBlock : Nat → List Located → Option (List Located)
  | _, [] => none
  | depth, ⟨.punct '{', _⟩ :: rest => afterBlock (depth + 1) rest
  | 0, ⟨.punct '}', _⟩ :: rest => some rest
  | depth + 1, ⟨.punct '}', _⟩ :: rest => afterBlock depth rest
  | depth, _ :: rest => afterBlock depth rest

namespace Reader

/-- Steps over the body of a function that starts at the given line. -/
def skipBody (line : Nat) : Reader Unit := do
  sign '{'
  match afterBlock 0 (← get).rest with
  | some rest => modify fun cursor => { cursor with rest }
  | none => refuse line (.mismatch .bodyEnd none)

/-- Reads a function whose name is not among those that are taken. -/
def outline (taken : List String) : Reader Outline := do
  let line ← line
  let s ← signature
  if taken.contains s.name then
    refuse s.line (.functionTaken s.name)
  else if s.isDeclaration then
    return ⟨s, none⟩
  else
    let start ← get
    skipBody line
    return ⟨s, some start⟩

/-- Reads functions up to the end of the text, of which there are at most so many. -/
def outlinesWithin : Nat → List String → Reader (List Outline)
  | 0, _ => return []
  | n + 1, taken => do
    if (← peek).isNone then
      return []
    else
      let first ← outline taken
      return first :: (← outlinesWithin n (first.signature.name :: taken))

/-- Reads functions up to the end of the text. -/
def outlines : Reader (List Outline) := do
  outlinesWithin (← bound) []

end Reader

/-! ## Declaring the functions -/

/-- The mark that a written mark stands for, among functions with the given names. -/
def WrittenMark.resolve (names : List String) (d : WrittenMark) :
    Except ParseError FixedResource :=
  match names.idxOf? d.accessor with
  | some accessor => .ok ⟨accessor, d.set, d.binding, d.depth⟩
  | none => .error ⟨d.line, .unknownFunction d.accessor⟩

/-- Declares parameters, entering their types into the table. -/
def declareParams (names : List String) :
    List WrittenParam → TypeTable → Except ParseError (List Param × TypeTable)
  | [], types => .ok ([], types)
  | p :: rest, types => do
    let (type, types) := types.intern p.type
    let direct ← p.direct.mapM (·.resolve names)
    let (others, types) ← declareParams names rest types
    return (⟨p.name, type, direct⟩ :: others, types)

/-- Declares a function. A definition starts with an empty body. -/
def Signature.declare (names : List String) (s : Signature) (types : TypeTable) :
    Except ParseError (Function × TypeTable) := do
  let (params, types) ← declareParams names s.params types
  let (result, types) := match s.result with
    | some written =>
      let (type, types) := types.intern written
      (some type, types)
    | none => (none, types)
  let f : Function :=
    { name := s.name
      convention := s.convention
      params
      result
      isPure := s.isPure
      expressions := #[]
      names := []
      body := if s.isDeclaration then none else some .nil }
  return (f, types)

/-- Declares functions in turn. -/
def declareAll (names : List String) :
    List Outline → TypeTable → Except ParseError (List Function × TypeTable)
  | [], types => .ok ([], types)
  | o :: rest, types => do
    let (f, types) ← o.signature.declare names types
    let (others, types) ← declareAll names rest types
    return (f :: others, types)

/-! ## The second turn -/

/-- A function with the body that is read at its cursor. -/
def Function.readBody (names : List String) (f : Function) (start : Cursor) :
    Except ParseError Function := do
  let ((body, draft), _) ← ((BodyReader.body ⟨names, f.params⟩).run .empty).run start
  return { f with
    expressions := draft.expressions
    names := draft.values.map fun (name, id) => (id, name)
    body := some body }

/-- Functions with the bodies that are read at the cursors of their outlines. -/
def readBodies (names : List String) :
    List Outline → List Function → Except ParseError (List Function)
  | o :: outlines, f :: functions => do
    let first ← match o.body with
      | some start => f.readBody names start
      | none => pure f
    let others ← readBodies names outlines functions
    return first :: others
  | _, _ => .ok []

/-- The module that tokens stand for. -/
def Module.ofTokens (tokens : List Located) : Except ParseError Module := do
  let (outlines, _) ← Reader.outlines.run (.start tokens)
  let names := outlines.map (·.signature.name)
  let (declared, types) ← declareAll names outlines .empty
  let functions ← readBodies names outlines declared
  return ⟨types, functions.toArray⟩

/-- The module that a text stands for. -/
def Module.read (source : String) : Except ParseError Module := do
  Module.ofTokens (← readTokens source)

end ResourceBinding
