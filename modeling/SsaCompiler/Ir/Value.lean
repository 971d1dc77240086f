import SsaCompiler.Double

/-!
Types and values of the intermediate representation.
-/
namespace SsaCompiler.Ir

inductive Ty
  | void
  | i1
  | i8
  | i64
  | double
  | ptr (target : Ty)
  | array (elem : Ty) (len : Nat)
  deriving DecidableEq, Repr

namespace Ty

/-- The type of strings. -/
def string : Ty := ptr i8

def pointee? : Ty → Option Ty
  | ptr t => some t
  | _ => none

def isInteger : Ty → Bool
  | i1 | i8 | i64 => true
  | _ => false

def text : Ty → String
  | void => "void"
  | i1 => "i1"
  | i8 => "i8"
  | i64 => "i64"
  | double => "double"
  | ptr t => t.text ++ "*"
  | array t n => "[" ++ toString n ++ " x " ++ t.text ++ "]"

end Ty

/-- Blocks are numbered within their function, and a number is never used again. -/
abbrev BlockId := Nat

/-- Registers are numbered within their function. -/
abbrev Reg := Nat

inductive Constant
  | int (n : Int64)
  | float (x : Double)
  | bool (b : Bool)
  | undef (ty : Ty)
  deriving DecidableEq, Repr

def Constant.ty : Constant → Ty
  | int _ => .i64
  | float _ => .double
  | bool _ => .i1
  | undef t => t

/-- Operands: constants, results of instructions, parameters and strings of the module. -/
inductive Value
  | const (c : Constant)
  | reg (r : Reg)
  | param (index : Nat)
  | global (index : Nat)
  deriving DecidableEq, Repr

namespace Value

abbrev int (n : Int64) : Value := const (.int n)

abbrev float (x : Double) : Value := const (.float x)

abbrev bool (b : Bool) : Value := const (.bool b)

def reg? : Value → Option Reg
  | reg r => some r
  | _ => none

def global? : Value → Option Nat
  | global i => some i
  | _ => none

/-- The value with every use of `r` replaced by `v`. -/
def replace (r : Reg) (v : Value) (x : Value) : Value := if x = reg r then v else x

end Value

end SsaCompiler.Ir
