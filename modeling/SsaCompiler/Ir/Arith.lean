import SsaCompiler.Ir.Instr

/-!
The arithmetic of the instructions. Integers have 64 bits and wrap around. A division by zero, and
the one quotient that does not fit, have no value.
-/
namespace SsaCompiler.Ir

/-- The value of an integer operation. -/
def BinOp.onInts? : BinOp → Int64 → Int64 → Option Int64
  | add, a, b => some (a + b)
  | sub, a, b => some (a - b)
  | mul, a, b => some (a * b)
  | sdiv, a, b => if b = 0 ∨ (a = Int64.minValue ∧ b = -1) then none else some (a / b)
  | _, _, _ => none

/-- The value of a float operation. -/
def BinOp.onFloats? : BinOp → Double → Double → Option Double
  | fadd, x, y => some (x.add y)
  | fsub, x, y => some (x.sub y)
  | fmul, x, y => some (x.mul y)
  | fdiv, x, y => some (x.div y)
  | _, _, _ => none

namespace IntPred

def onInts : IntPred → Int64 → Int64 → Bool
  | eq, a, b => a = b
  | ne, a, b => a ≠ b
  | slt, a, b => a < b
  | sgt, a, b => b < a

/-- Booleans are ordered with `false` first. -/
def onBools : IntPred → Bool → Bool → Bool
  | eq, a, b => a = b
  | ne, a, b => a ≠ b
  | slt, a, b => !a && b
  | sgt, a, b => a && !b

/-- Strings compare by identity only. -/
def onGlobals? : IntPred → Nat → Nat → Option Bool
  | eq, i, j => some (i = j)
  | ne, i, j => some (i ≠ j)
  | _, _, _ => none

end IntPred

def FloatPred.onFloats : FloatPred → Double → Double → Bool
  | oeq, x, y => x.numEq y
  | one, x, y => !x.numEq y && !x.isNaN && !y.isNaN
  | olt, x, y => x.less y
  | ogt, x, y => y.less x

end SsaCompiler.Ir
