import ResourceBinding.CommandLine.Arguments
import ResourceBinding.Pipeline
import ResourceBinding.Program.Listing
import ResourceBinding.Reading.Program
import ResourceBinding.Text.Printable

/-!
# Running the command

The command reads a module and a sampler map, binds the resources of the module, and writes it.
What it does is a function of the files it reads; the files themselves are left to the caller, or
to a `Directory`, which holds files by name.
-/

namespace ResourceBinding.CommandLine

/-- Why the command fails. -/
inductive Failure where
  | unreadable (path : String)
  | unparsable (path : String) (cause : ParseError)
  | invalidSamplerMap (path : String) (cause : ParseError)
  | unbound (cause : Fault)
  | unwritable (path : String)
deriving DecidableEq, Repr

/-- The text of a failure. -/
def Failure.message : Failure → String
  | unreadable path => s!"failed to read {path}"
  | unparsable path cause => s!"failed to parse {path}: {cause.message}"
  | invalidSamplerMap path cause => s!"invalid sampler map {path}: {cause.message}"
  | unbound cause => s!"descriptor binding failed: {cause.message}"
  | unwritable path => s!"failed to write {path}"

/-- What the command has to say, and the text of the bound module. -/
structure Bound where
  trace : Log
  text : Except Failure String

/-- What the command shows of the log of a run: the lines up to the level of information, without
what does not print. -/
def shownLog (log : Log) : Log :=
  (log.upTo LogLevel.info.rank).map fun line => { line with text := Text.printable line.text }

/-- Reads the module of an invocation. -/
def Invocation.readModule (i : Invocation) (read : String → Option String) : Except Failure Module :=
  match read i.input with
  | none => .error (.unreadable i.input)
  | some source => (Module.read source).mapError (.unparsable i.input)

/-- Reads the sampler map of an invocation, which is empty if there is none. -/
def Invocation.readSamplers (i : Invocation) (read : String → Option String) :
    Except Failure SamplerMap :=
  match i.samplerMap with
  | none => .ok []
  | some path =>
    match read path with
    | none => .error (.unreadable path)
    | some source => (SamplerMap.read source).mapError (.invalidSamplerMap path)

/-- Does what an invocation asks for, up to the writing. -/
def Invocation.run (i : Invocation) (read : String → Option String) : Bound :=
  match i.readModule read with
  | .error failure => ⟨[], .error failure⟩
  | .ok m =>
    match i.readSamplers read with
    | .error failure => ⟨[], .error failure⟩
    | .ok samplers =>
      let outcome := runPasses (Pass.standard i.options) m (.start i.options samplers)
      ⟨shownLog outcome.log,
        match outcome.result with
        | .ok (m, _) => .ok m.listing
        | .error fault => .error (.unbound fault)⟩

/-! ## In a directory -/

/-- A directory of files, without directories in it. -/
structure Directory where
  files : List (String × String)
deriving DecidableEq, Repr

namespace Directory

/-- The file that a path names: its last component, if the others stay in the directory. -/
def fileName? (path : String) : Option String :=
  let components := (Text.splitOn '/' path.toList).map String.ofList
  match components.reverse with
  | [] => none
  | name :: others =>
    let absolute := components.length > 1 && components.head? == some ""
    if absolute || ["", ".", ".."].contains name then none
    else if others.all fun c => c == "." || c == "" then some name
    else none

/-- The text of a file. -/
def read (d : Directory) (path : String) : Option String :=
  (fileName? path).bind fun name => d.files.lookup name

/-- The directory with a file of the given text, new or in place of another. -/
def write (d : Directory) (path text : String) : Option Directory :=
  (fileName? path).map fun name => ⟨(name, text) :: d.files.filter (·.1 != name)⟩

end Directory

/-- What a run of the command leaves behind. -/
structure Ending where
  exitCode : Nat
  stdout : String
  trace : Log
  directory : Directory

/-- Runs the command in a directory. -/
def runIn (d : Directory) (arguments : List String) : Ending :=
  match Request.ofArguments arguments with
  | .badUsage => ⟨2, "", [], d⟩
  | .help | .version => ⟨0, "", [], d⟩
  | .run i =>
    let bound := i.run d.read
    match bound.text with
    | .error _ => ⟨1, "", bound.trace, d⟩
    | .ok text =>
      if i.dryRun then ⟨0, "", bound.trace, d⟩
      else
        match i.output with
        | none => ⟨0, text, bound.trace, d⟩
        | some path =>
          match d.write path text with
          | some d => ⟨0, "", bound.trace, d⟩
          | none => ⟨1, "", bound.trace, d⟩

end ResourceBinding.CommandLine
