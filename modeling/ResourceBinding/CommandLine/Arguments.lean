import ResourceBinding.Compilation
import ResourceBinding.Text.Split

/-!
# The arguments of the command

The command takes the file of a module, and options. Arguments are read from left to right, and the
first that cannot be taken decides.

An option with a value has it behind an equals sign or in the next argument; the short one also
right behind its letter. No option may be given twice, a flag takes no value, and no value is
empty. Behind two dashes nothing is an option.
-/

namespace ResourceBinding.CommandLine

/-- What the command is asked to do. -/
structure Invocation where
  input : String
  samplerMap : Option String
  output : Option String
  options : Options
  dryRun : Bool
deriving DecidableEq, Repr

/-- What arguments stand for. -/
inductive Request where
  | run (invocation : Invocation)
  | help
  | version
  | badUsage
deriving DecidableEq, Repr

/-- The options without a value. -/
inductive Flag where
  | resolve
  | fetch
  | traceNumbering
  | traceBindings
  | traceVerdicts
  | dryRun
  | help
  | version
deriving DecidableEq, Repr

/-- The options with a value, which is a path, and the argument that is no option. -/
inductive PathSlot where
  | input
  | samplerMap
  | output
deriving DecidableEq, Repr

/-- What an argument in long form names, without its two dashes. -/
def ofLongName? : String → Option (Flag ⊕ PathSlot)
  | "direct-resource-access" => some (.inl .resolve)
  | "rewrite-direct-access" => some (.inl .fetch)
  | "show-discriminants" => some (.inl .traceNumbering)
  | "show-descriptors" => some (.inl .traceBindings)
  | "show-dra" => some (.inl .traceVerdicts)
  | "dry-run" => some (.inl .dryRun)
  | "help" => some (.inl .help)
  | "version" => some (.inl .version)
  | "sampler-map" => some (.inr .samplerMap)
  | "output" => some (.inr .output)
  | _ => none

/-- What has been taken so far. -/
structure Taken where
  flags : List Flag
  paths : List (PathSlot × String)
deriving DecidableEq, Repr

/-- Takes a flag that has not been given yet. -/
def Taken.flag (t : Taken) (f : Flag) : Except Request Taken :=
  match f with
  | .help => .error .help
  | .version => .error .version
  | f => if t.flags.contains f then .error .badUsage else .ok { t with flags := f :: t.flags }

/-- Takes a path for a slot that has none yet. -/
def Taken.path (t : Taken) (slot : PathSlot) (path : String) : Except Request Taken :=
  if path.isEmpty || (t.paths.lookup slot).isSome then .error .badUsage
  else .ok { t with paths := (slot, path) :: t.paths }

/-- How an argument is to be understood. -/
inductive Argument where
  /-- An argument that is no option, or the value of one. -/
  | plain (text : String)
  /-- Two dashes. -/
  | endOfOptions
  /-- A flag. -/
  | flag (flag : Flag)
  /-- An option whose value is the next argument. -/
  | open (slot : PathSlot)
  /-- An option with its value. -/
  | closed (slot : PathSlot) (path : String)
  | unknown
deriving DecidableEq, Repr

/-- A text up to the first equals sign, and what follows the sign if there is one. -/
def cutAtEquals (text : List Char) : String × Option String :=
  let name := text.takeWhile (· ≠ '=')
  match text.dropWhile (· ≠ '=') with
  | _ :: value => (String.ofList name, some (String.ofList value))
  | [] => (String.ofList name, none)

/-- Understands an argument by itself. -/
def Argument.ofString (text : String) : Argument :=
  match text.toList with
  | ['-', '-'] => .endOfOptions
  | '-' :: '-' :: long =>
    let (name, value) := cutAtEquals long
    match ofLongName? name, value with
    | some (.inl f), none => .flag f
    | some (.inr slot), none => .open slot
    | some (.inr slot), some path => .closed slot path
    | some (.inl _), some _ | none, _ => .unknown
  | ['-', 'o'] => .open .output
  | '-' :: 'o' :: '=' :: path | '-' :: 'o' :: path => .closed .output (String.ofList path)
  | '-' :: 'h' :: _ => .flag .help
  | '-' :: 'V' :: _ => .flag .version
  | '-' :: _ :: _ => .unknown
  | _ => .plain text

/-- Takes arguments of which none is an option. -/
def takePlain (t : Taken) : List String → Except Request Taken
  | [] => .ok t
  | text :: rest => do
    let t ← t.path .input text
    takePlain t rest

/-- Takes arguments. -/
def takeAll (t : Taken) : List String → Except Request Taken
  | [] => .ok t
  | text :: rest =>
    match Argument.ofString text with
    | .plain path => do
      let t ← t.path .input path
      takeAll t rest
    | .endOfOptions => takePlain t rest
    | .flag f => do
      let t ← t.flag f
      takeAll t rest
    | .closed slot path => do
      let t ← t.path slot path
      takeAll t rest
    | .open slot =>
      match rest with
      | [] => .error .badUsage
      | value :: rest =>
        match Argument.ofString value with
        | .plain path => do
          let t ← t.path slot path
          takeAll t rest
        | _ => .error .badUsage
    | .unknown => .error .badUsage

/-- What has been taken altogether stands for. The rewrite needs the pass that it belongs to. -/
def Taken.request (t : Taken) : Request :=
  let given (f : Flag) : Bool := t.flags.contains f
  match t.paths.lookup .input with
  | none => .badUsage
  | some input =>
    if given .fetch && !given .resolve then .badUsage
    else
      .run
        { input
          samplerMap := t.paths.lookup .samplerMap
          output := t.paths.lookup .output
          options :=
            ⟨given .resolve, given .fetch, given .traceNumbering,
              given .traceBindings, given .traceVerdicts⟩
          dryRun := given .dryRun }

/-- What arguments stand for. -/
def Request.ofArguments (arguments : List String) : Request :=
  match takeAll ⟨[], []⟩ arguments with
  | .ok taken => taken.request
  | .error request => request

end ResourceBinding.CommandLine
