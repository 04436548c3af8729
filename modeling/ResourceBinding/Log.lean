/-!
# The log

What a run has to say besides its results, line by line, each with a level.
-/

namespace ResourceBinding

/-- How much a line matters, the most important first. -/
inductive LogLevel where
  | warn
  | info
  | debug
deriving DecidableEq, Repr

/-- The word that stands in front of a line. -/
def LogLevel.word : LogLevel → String
  | warn => "WARN"
  | info => "INFO"
  | debug => "DEBUG"

/-- Warnings have rank one; the rank grows with the detail. -/
def LogLevel.rank : LogLevel → Nat
  | warn => 1
  | info => 2
  | debug => 3

/-- A line of the log. -/
structure LogLine where
  level : LogLevel
  text : String
deriving DecidableEq, Repr

/-- The lines of a run, in the order of their emission. -/
abbrev Log := List LogLine

/-- A line that is of interest if it is asked for, and otherwise a detail. -/
def LogLine.trace (wanted : Bool) (text : String) : LogLine :=
  ⟨if wanted then .info else .debug, text⟩

/-- The lines up to a rank of detail. -/
def Log.upTo (log : Log) (rank : Nat) : Log :=
  log.filter (·.level.rank ≤ rank)

end ResourceBinding
