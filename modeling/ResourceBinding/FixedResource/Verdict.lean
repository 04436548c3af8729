import ResourceBinding.Program.Function

/-!
# Verdicts on parameters

Whether a parameter receives one fixed resource at every call of its function, and if not, why.
-/

namespace ResourceBinding

/-- Why a parameter is not resolved. -/
inductive Obstacle where
  | neverCalled
  | tooFewArguments
  | forwarded
  | offset
  | otherOrigin
  | unknownBinding
  | conflict
deriving DecidableEq, Repr

/-- The text of an obstacle. -/
def Obstacle.text : Obstacle → String
  | neverCalled => "no call sites"
  | tooFewArguments => "call site is missing the argument"
  | forwarded => "caller forwards a parameter"
  | offset => "non-zero offset"
  | otherOrigin => "not an accessor call"
  | unknownBinding => "non-constant set or binding"
  | conflict => "call sites disagree"

/-- Whether a parameter receives one fixed resource. -/
inductive Verdict where
  | resolved (resource : FixedResource)
  | unresolved (reason : Obstacle)
deriving DecidableEq, Repr

/-- The verdict on a parameter of a function. -/
structure ParamVerdict where
  function : FunctionId
  index : Nat
  verdict : Verdict
deriving DecidableEq, Repr

end ResourceBinding
