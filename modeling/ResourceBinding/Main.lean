import ResourceBinding.CommandLine.Run

/-!
# The command

Reads the files that the arguments name, binds the resources of the module in the first, and writes
the bound module to a file or to the standard output. The log and failures go to standard error.
-/

namespace ResourceBinding.CommandLine

/-- How the command is used. -/
def usage : String :=
  String.intercalate "\n"
    ["Usage: kernbind [OPTIONS] <INPUT>",
     "",
     "Options:",
     "      --sampler-map <SAMPLER_MAP>  Literal sampler map file",
     "  -o, --output <OUTPUT>            Output path (default: stdout)",
     "      --direct-resource-access     Prove which parameters receive one bound resource",
     "      --rewrite-direct-access      Rewrite proven parameters to call their accessor",
     "      --show-discriminants         Trace discriminant to index mappings",
     "      --show-descriptors           Trace descriptor set and binding assignments",
     "      --show-dra                   Trace direct resource access verdicts",
     "      --dry-run                    Run the passes without producing output",
     "  -h, --help                       Print help",
     "  -V, --version                    Print version",
     ""]

/-- The text of a file, if it can be read. -/
def readFile? (path : String) : IO (Option String) := do
  try
    return some (← IO.FS.readFile path)
  catch _ =>
    return none

/-- Writes a file, and tells whether that worked. -/
def writeFile (path text : String) : IO Bool := do
  try
    IO.FS.writeFile path text
    return true
  catch _ =>
    return false

/-- Says why the command fails. -/
def fail (failure : Failure) : IO UInt32 := do
  IO.eprintln s!"Error: {failure.message}"
  return 1

/-- Does what an invocation asks for. -/
def Invocation.perform (i : Invocation) : IO UInt32 := do
  let paths := i.input :: i.samplerMap.toList
  let files ← paths.filterMapM fun path => do
    return (← readFile? path).map fun text => (path, text)
  let bound := i.run fun path => files.lookup path
  for line in bound.trace do
    IO.eprintln s!"[{line.level.word}] {line.text}"
  match bound.text with
  | .error failure => fail failure
  | .ok text =>
    if i.dryRun then return 0
    match i.output with
    | none =>
      IO.print text
      return 0
    | some path =>
      if ← writeFile path text then return 0
      fail (.unwritable path)

end ResourceBinding.CommandLine

open ResourceBinding.CommandLine in
/-- The command. -/
def main (arguments : List String) : IO UInt32 := do
  match Request.ofArguments arguments with
  | .run invocation => invocation.perform
  | .help =>
    IO.print usage
    return 0
  | .version =>
    IO.println "kernbind 0.1.0"
    return 0
  | .badUsage =>
    IO.eprint usage
    return 2
