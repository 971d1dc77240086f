import SsaCompiler.Ir.Builder
import SsaCompiler.Ir.Verify
import SsaCompiler.Program.ParseState
import SsaCompiler.Typing.Signature

/-!
Why a program is not compiled. The first error ends a compilation.
-/
namespace SsaCompiler

/-- Values whose types do not fit. -/
inductive TypeError
  | missingReturn (result : DataType)
  | wrongReturn (found result : DataType)
  | condition (found : DataType)
  | notSequence (found : DataType)
  | argument (place : Nat) (callee : String) (expected found : DataType)
  | operands (op : Operator) (lhs rhs : DataType)
  | concatenation
  | noOperator (op : Operator) (ty : DataType)
  | elementNotScalar (found : DataType)
  | mixedElements (first other : DataType)
  | emptySequence
  deriving DecidableEq, Repr

def TypeError.message : TypeError → String
  | missingReturn t => "missing return value in function returning " ++ t.text
  | wrongReturn t r => "cannot return " ++ t.text ++ " from function returning " ++ r.text
  | condition t => "condition must be bool, found " ++ t.text
  | notSequence t => "for-in expects a sequence, found " ++ t.text
  | argument n f e t =>
    "argument " ++ toString n ++ " of '" ++ f ++ "' expects " ++ e.text ++ ", found " ++ t.text
  | operands op l r => "operator '" ++ op.text ++ "' applied to " ++ l.text ++ " and " ++ r.text
  | concatenation => "string concatenation is not supported"
  | noOperator op t => "operator '" ++ op.text ++ "' is not defined for " ++ t.text
  | elementNotScalar t => "sequence elements must be scalar, found " ++ t.text
  | mixedElements a b => "sequence mixes " ++ a.text ++ " and " ++ b.text
  | emptySequence => "empty sequence literal has no element type"

inductive CompileError
  | parse (e : ParseError)
  | undefined (name : String)
  | arity (callee : String) (expected found : Nat)
  | mismatch (e : TypeError)
  | unsupported (type : TypeName)
  | missingOverload (name : String) (operands : List DataType)
  | redefinition (name : String)
  | verification (function : String) (flaw : Ir.Flaw)
  /-- A broken rule of building, which no program leads to. -/
  | build (e : Ir.BuildError)
  deriving DecidableEq, Repr

def CompileError.message : CompileError → String
  | parse e => e.message
  | undefined name => "undefined symbol '" ++ name ++ "'"
  | arity f expected found =>
    "procedure '" ++ f ++ "' expects " ++ toString expected ++ " argument(s), got " ++
      toString found
  | mismatch e => "type mismatch: " ++ e.message
  | unsupported t => "unsupported type '" ++ t.text ++ "'"
  | missingOverload name operands =>
    "missing overload '" ++ name ++ "' for (" ++
      ", ".intercalate (operands.map DataType.text) ++ ")"
  | redefinition name => "redefinition of '" ++ name ++ "'"
  | verification f flaw =>
    "error occurred while verifying procedure '" ++ f ++ "': " ++ flaw.message
  | build e => e.message

end SsaCompiler
