import SsaCompiler.Ir.Module
import SsaCompiler.Typing.DataType

/-!
Signatures of functions. Parameters are not void and results are not sequences.
-/
namespace SsaCompiler

structure Signature where
  params : List DataType
  result : DataType
  deriving DecidableEq, Repr

namespace Signature

/-- The type of a parameter, or the written type if it is not allowed. -/
def resolveParam (t : TypeName) : Except TypeName DataType :=
  match DataType.resolve? t with
  | some .void | none => .error t
  | some ty => .ok ty

/-- The type of a result, or the written type if it is not allowed. -/
def resolveResult (t : TypeName) : Except TypeName DataType :=
  match DataType.resolve? t with
  | some (.sequence ..) | none => .error t
  | some ty => .ok ty

def resolveParams : List Param → Except TypeName (List DataType)
  | [] => .ok []
  | p :: ps => do
    let ty ← resolveParam p.type
    return ty :: (← resolveParams ps)

/-- The signature of a prototype, or the first written type that is not allowed. -/
def resolve (proto : Prototype) : Except TypeName Signature := do
  let params ← resolveParams proto.params
  return ⟨params, ← resolveResult proto.result⟩

/-- The signature of a function, if all its types have a meaning in the language. -/
def of? (f : Ir.Function) : Option Signature := do
  let params ← f.params.mapM fun p => DataType.ofIr? p.ty
  return ⟨params, ← DataType.ofIr? f.ret⟩

/-- The declaration of a prototype with this signature. -/
def declaration (s : Signature) (proto : Prototype) : Ir.Function where
  name := proto.name
  params := (proto.params.zip s.params).map fun p => ⟨p.1.name, p.2.toIr⟩
  ret := s.result.toIr
  body := none

end Signature

end SsaCompiler
