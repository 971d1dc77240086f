import SsaCompiler.Decimal.Numeral
import SsaCompiler.Ir.Module
import SsaCompiler.Text.Quoted

/-!
The textual form of modules.
-/
namespace SsaCompiler.Ir

open Text (quote)

/-- A decimal text with a point. If there is none, a point and a zero go before the exponent, or to the
end if there is no exponent either. -/
def pointed (cs : List Char) : List Char :=
  if '.' ∈ cs then cs
  else
    match cs.dropWhile (· ≠ 'e') with
    | _ :: exponent => cs.takeWhile (· ≠ 'e') ++ '.' :: '0' :: 'e' :: exponent
    | [] => cs ++ ['.', '0']

/-- The sixteen hexadecimal digits of a bit pattern. -/
def bitPattern (x : Double) : List Char :=
  (List.range 16).map fun i => Text.hexDigit (x.bits.toNat >>> (4 * (15 - i)) % 16)

/-- A float constant, always with a point. What is not finite is given by its bit pattern. -/
def floatLiteral (x : Double) : String :=
  if x.isFinite then String.ofList (pointed (Decimal.text x).toList)
  else "0x" ++ String.ofList (bitPattern x)

namespace BinOp

def mnemonic : BinOp → String
  | add => "add"
  | sub => "sub"
  | mul => "mul"
  | sdiv => "sdiv"
  | fadd => "fadd"
  | fsub => "fsub"
  | fmul => "fmul"
  | fdiv => "fdiv"

end BinOp

def IntPred.mnemonic : IntPred → String
  | eq => "eq"
  | ne => "ne"
  | slt => "slt"
  | sgt => "sgt"

def FloatPred.mnemonic : FloatPred → String
  | oeq => "oeq"
  | one => "one"
  | olt => "olt"
  | ogt => "ogt"

namespace Function

/-- Texts between commas. -/
def commaList (ss : List String) : String := ", ".intercalate ss

/-- A block as an operand. -/
def labelText (f : Function) (id : BlockId) : String :=
  let label := ((f.body.bind (·.block? id)).map Block.label).getD ("missing." ++ toString id)
  "%" ++ quote label

def valueText (f : Function) : Value → String
  | .const (.int n) => toString n.toInt
  | .const (.float x) => floatLiteral x
  | .const (.bool b) => if b then "true" else "false"
  | .const (.undef _) => "undef"
  | .reg r => "%" ++ toString r
  | .param i =>
    match f.params[i]? with
    | some p => "%" ++ quote p.name
    | none => "%arg" ++ toString i
  | .global i => "@.str." ++ toString i

/-- An operand with its type. -/
def typedText (f : Function) (v : Value) : String := (f.typeOf v).text ++ " " ++ f.valueText v

def opText (f : Function) (ty : Ty) : Op → String
  | .binary op l r => op.mnemonic ++ " " ++ f.typedText l ++ ", " ++ f.valueText r
  | .icmp p l r => "icmp " ++ p.mnemonic ++ " " ++ f.typedText l ++ ", " ++ f.valueText r
  | .fcmp p l r => "fcmp " ++ p.mnemonic ++ " " ++ f.typedText l ++ ", " ++ f.valueText r
  | .call callee args =>
    "call " ++ ty.text ++ " @" ++ quote callee ++ "(" ++ commaList (args.map f.typedText) ++ ")"
  | .phi incoming =>
    "phi " ++ ty.text ++ " " ++ commaList (incoming.map fun e =>
      "[ " ++ f.valueText e.1 ++ ", " ++ f.labelText e.2 ++ " ]")
  | .alloca t => "alloca " ++ t.text
  | .load p => "load " ++ ty.text ++ ", " ++ f.typedText p
  | .store v p => "store " ++ f.typedText v ++ ", " ++ f.typedText p
  | .elementPtr b i =>
    "getelementptr " ++ ((f.typeOf b).pointee?.getD .void).text ++ ", " ++ f.typedText b ++
      ", i64 0, " ++ f.typedText i

def instrText (f : Function) (i : Instr) : String :=
  (match i.result with
    | some r => "%" ++ toString r ++ " = "
    | none => "") ++ f.opText i.ty i.op

def termText (f : Function) : Terminator → String
  | .br t => "br label " ++ f.labelText t
  | .condBr c t e =>
    "br " ++ f.typedText c ++ ", label " ++ f.labelText t ++ ", label " ++ f.labelText e
  | .ret none => "ret void"
  | .ret (some v) => "ret " ++ f.typedText v

def blockText (f : Function) (b : Block) : String :=
  quote b.label ++ ":\n" ++
    String.join (b.instrs.map fun i => "  " ++ f.instrText i ++ "\n") ++
    (match b.term with
      | some t => "  " ++ f.termText t ++ "\n"
      | none => "")

def text (f : Function) : String :=
  match f.body with
  | none =>
    "declare " ++ f.ret.text ++ " @" ++ quote f.name ++ "(" ++
      commaList (f.params.map (·.ty.text)) ++ ")\n"
  | some body =>
    "define " ++ f.ret.text ++ " @" ++ quote f.name ++ "(" ++
      commaList (f.params.map fun p => p.ty.text ++ " %" ++ quote p.name) ++ ") \x7b\n" ++
      "\n".intercalate (body.blocks.map f.blockText) ++ "\x7d\n"

end Function

namespace Module

def stringText (s : String × Nat) : String :=
  "@.str." ++ toString s.2 ++ " = private unnamed_addr constant [" ++
    toString (s.1.utf8ByteSize + 1) ++ " x i8] c\"" ++ Text.escape s.1 ++ "\\00\"\n"

def routineText (r : Routine) : String :=
  "\ndeclare " ++ r.ret.text ++ " @" ++ r.name ++ "(" ++
    Function.commaList (r.params.map Ty.text) ++ ")\n"

/-- The text of a module. A routine is declared only if no function has its name. -/
def text (m : Module) : String :=
  "; ModuleID = '" ++ m.name ++ "'\n" ++
    (if m.strings.isEmpty then "" else "\n") ++
    String.join (m.strings.zipIdx.map stringText) ++
    String.join ((m.routines.filter fun r => (m.function? r.name).isNone).map routineText) ++
    String.join (m.functions.map fun f => "\n" ++ f.text)

end Module

end SsaCompiler.Ir
