import ResourceBinding.Token
import ResourceBinding.Types.Basic

/-!
# Literals

Constant values in expressions, with the token each is written as.
-/

namespace ResourceBinding

/-- A constant value. Integers are taken to be in the range of their 32 bits. -/
inductive Literal where
  | bool (value : Bool)
  | i32 (value : Int)
  | u32 (value : Nat)
  | f32 (value : Single)
deriving DecidableEq, Repr

namespace Literal

/-- The type of a literal. -/
def scalar : Literal → Scalar
  | bool _ => .bool
  | i32 _ => .i32
  | u32 _ => .u32
  | f32 _ => .f32

/-- The value of an integer literal that is not negative. -/
def natural? : Literal → Option Nat
  | u32 n => some n
  | i32 (.ofNat n) => some n
  | i32 (.negSucc _) | bool _ | f32 _ => none

/-- Whether the literal is an integer zero, of either signedness. -/
def isZero (literal : Literal) : Bool :=
  literal.natural? == some 0

/-- The token a literal is written as. -/
def token : Literal → Token
  | bool true => .word "true"
  | bool false => .word "false"
  | i32 n => .int n
  | u32 n => .uint n
  | f32 x => .float x

/-- The text of a literal. -/
def text (literal : Literal) : String :=
  String.ofList literal.token.chars

end Literal

end ResourceBinding
