import SsaCompiler.Ir.Value
import SsaCompiler.Program.Basic

/-!
The types of the language and their representation. A sequence is represented by a pointer to an
array.
-/
namespace SsaCompiler

inductive DataType
  | int
  | float
  | string
  | bool
  | void
  | sequence (elem : DataType) (len : Nat)
  deriving DecidableEq, Repr

namespace DataType

/-- The type of a bare type name. -/
def ofName? (name : String) : Option DataType :=
  match name with
  | "int" => some int
  | "float" => some float
  | "string" => some string
  | "bool" => some bool
  | "void" => some void
  | _ => none

/-- The type that a written type stands for. There are no sequences of void. -/
def resolve? (t : TypeName) : Option DataType :=
  match ofName? t.name, t.len with
  | some ty, none => some ty
  | some ty, some n => if ty = void then none else some (sequence ty n)
  | none, _ => none

def toIr : DataType → Ir.Ty
  | int => .i64
  | float => .double
  | string => .string
  | bool => .i1
  | void => .void
  | sequence t n => .ptr (.array t.toIr n)

def isScalar : DataType → Bool
  | void | sequence .. => false
  | _ => true

/-- The type that a representation belongs to. -/
def ofIr? : Ir.Ty → Option DataType
  | .i64 => some int
  | .double => some float
  | .i1 => some bool
  | .void => some void
  | .ptr .i8 => some string
  | .ptr (.array t n) =>
    match ofIr? t with
    | some ty => if ty.isScalar then some (sequence ty n) else none
    | none => none
  | _ => none

def text : DataType → String
  | int => "int"
  | float => "float"
  | string => "string"
  | bool => "bool"
  | void => "void"
  | sequence t n => t.text ++ "[" ++ toString n ++ "]"

end DataType

end SsaCompiler
