import SsaCompiler.Ir.Value

/-!
Instructions and the terminators that end blocks.
-/
namespace SsaCompiler.Ir

inductive BinOp
  | add
  | sub
  | mul
  | sdiv
  | fadd
  | fsub
  | fmul
  | fdiv
  deriving DecidableEq, Repr

namespace BinOp

def isFloat : BinOp → Bool
  | fadd | fsub | fmul | fdiv => true
  | _ => false

/-- The type of both operands and of the result. -/
def ty (op : BinOp) : Ty := if op.isFloat then .double else .i64

end BinOp

inductive IntPred
  | eq
  | ne
  | slt
  | sgt
  deriving DecidableEq, Repr

/-- Ordered comparisons: none of them holds of a NaN. -/
inductive FloatPred
  | oeq
  | one
  | olt
  | ogt
  deriving DecidableEq, Repr

inductive Op
  | binary (op : BinOp) (lhs rhs : Value)
  | icmp (pred : IntPred) (lhs rhs : Value)
  | fcmp (pred : FloatPred) (lhs rhs : Value)
  | call (callee : String) (args : List Value)
  /-- The value that belongs to the block control came from. -/
  | phi (incoming : List (Value × BlockId))
  | alloca (ty : Ty)
  | load (ptr : Value)
  | store (value ptr : Value)
  | elementPtr (base index : Value)
  deriving DecidableEq, Repr

namespace Op

def operands : Op → List Value
  | binary _ l r | icmp _ l r | fcmp _ l r => [l, r]
  | call _ args => args
  | phi incoming => incoming.map (·.1)
  | alloca _ => []
  | load p => [p]
  | store v p => [v, p]
  | elementPtr b i => [b, i]

def mapOperands (f : Value → Value) : Op → Op
  | binary op l r => binary op (f l) (f r)
  | icmp pred l r => icmp pred (f l) (f r)
  | fcmp pred l r => fcmp pred (f l) (f r)
  | call callee args => call callee (args.map f)
  | phi incoming => phi (incoming.map fun e => (f e.1, e.2))
  | alloca t => alloca t
  | load p => load (f p)
  | store v p => store (f v) (f p)
  | elementPtr b i => elementPtr (f b) (f i)

/-- The edges of a phi changed as a whole; other instructions stay. -/
def mapIncoming (f : List (Value × BlockId) → List (Value × BlockId)) : Op → Op
  | phi incoming => phi (f incoming)
  | op => op

def isPhi : Op → Bool
  | phi _ => true
  | _ => false

def isAlloca : Op → Bool
  | alloca _ => true
  | _ => false

/-- Whether dropping an unused instruction changes nothing. -/
def isPure : Op → Bool
  | call .. | store .. | alloca _ => false
  | _ => true

def callee? : Op → Option String
  | call callee _ => some callee
  | _ => none

end Op

structure Instr where
  result : Option Reg
  ty : Ty
  op : Op
  deriving DecidableEq, Repr

def Instr.mapOperands (f : Value → Value) (i : Instr) : Instr :=
  { i with op := i.op.mapOperands f }

def Instr.mapIncoming (f : List (Value × BlockId) → List (Value × BlockId)) (i : Instr) : Instr :=
  { i with op := i.op.mapIncoming f }

inductive Terminator
  | br (target : BlockId)
  | condBr (cond : Value) (thenTo elseTo : BlockId)
  | ret (value : Option Value)
  deriving DecidableEq, Repr

namespace Terminator

/-- The blocks that control may go to, one entry for each arm. -/
def successors : Terminator → List BlockId
  | br t => [t]
  | condBr _ t e => [t, e]
  | ret _ => []

def operands : Terminator → List Value
  | br _ => []
  | condBr c _ _ => [c]
  | ret v => v.toList

def mapOperands (f : Value → Value) : Terminator → Terminator
  | br t => br t
  | condBr c t e => condBr (f c) t e
  | ret v => ret (v.map f)

/-- Sends the arms that go to `source` to `dest`. -/
def retarget (source dest : BlockId) : Terminator → Terminator
  | br t => br (if t = source then dest else t)
  | condBr c t e =>
    condBr c (if t = source then dest else t) (if e = source then dest else e)
  | ret v => ret v

end Terminator

end SsaCompiler.Ir
