import SsaCompiler.Ir.Arith
import SsaCompiler.Ir.Body
import SsaCompiler.Stable

/-!
Instruction combining. An instruction whose value is known is replaced by that value: operations on
constants, neutral elements, and phis of one constant, parameter or string. Afterwards instructions
that only compute an unused value are dropped.
-/
namespace SsaCompiler.Optimize

open Ir

/-- The value of an operation on constants or with a neutral element. What has no value is left for
run time. -/
def foldBinary (op : BinOp) (lhs rhs : Value) : Option Value :=
  match lhs, rhs with
  | .const (.int a), .const (.int b) => (op.onInts? a b).map .int
  | .const (.float x), .const (.float y) => (op.onFloats? x y).map .float
  | _, _ =>
    if rhs = .int 0 ∧ (op = .add ∨ op = .sub) then some lhs
    else if lhs = .int 0 ∧ op = .add then some rhs
    else if rhs = .int 1 ∧ (op = .mul ∨ op = .sdiv) then some lhs
    else if lhs = .int 1 ∧ op = .mul then some rhs
    else none

/-- The outcome of comparing constants. Different strings are different constants. -/
def foldIcmp (pred : IntPred) (lhs rhs : Value) : Option Value :=
  match lhs, rhs with
  | .const (.int a), .const (.int b) => some (.bool (pred.onInts a b))
  | .const (.bool a), .const (.bool b) => some (.bool (pred.onBools a b))
  | .global i, .global j => (pred.onGlobals? i j).map .bool
  | _, _ => none

def foldFcmp (pred : FloatPred) (lhs rhs : Value) : Option Value :=
  match lhs, rhs with
  | .const (.float x), .const (.float y) => some (.bool (pred.onFloats x y))
  | _, _ => none

/-- The one value that a phi with result `r` merges, apart from itself. A register is no such value,
since it may be computed anew between two visits of the phi. -/
def foldPhi (r : Reg) (incoming : List (Value × BlockId)) : Option Value :=
  match (incoming.map (·.1)).filter (· ≠ .reg r) with
  | [] => none
  | v :: vs => if v.reg?.isNone ∧ ∀ w ∈ vs, w = v then some v else none

/-- The known value of an operation with result `r`. -/
def simplify? (r : Reg) : Op → Option Value
  | .binary op x y => foldBinary op x y
  | .icmp pred x y => foldIcmp pred x y
  | .fcmp pred x y => foldFcmp pred x y
  | .phi incoming => foldPhi r incoming
  | _ => none

/-- The first register whose value is known. -/
def simplification? (b : Body) : Option (Reg × Value) :=
  b.blocks.findSome? fun x => x.instrs.findSome? fun i =>
    i.result.bind fun r => (simplify? r i.op).map (r, ·)

def simplifyFirst? (b : Body) : Option Body :=
  (simplification? b).map fun s => b.substitute s.1 s.2

/-- Whether an instruction stays when the given registers are used. -/
def isLive (used : List Reg) (i : Instr) : Bool :=
  match i.result with
  | some r => !i.op.isPure || decide (r ∈ used)
  | none => true

/-- Drops the instructions that only compute an unused value. -/
def dropUnused (b : Body) : Body × Bool :=
  let used := b.uses
  let next := b.filterInstrs (isLive used)
  (next, next.instrCount ≠ b.instrCount)

/-- Drops instructions until every value is used. Each round but the last drops one. -/
def eliminateDeadCode (b : Body) : Body := untilStable dropUnused (b.instrCount + 1) b

/-- Replaces known values until there are none, then drops what became unused. Each replacement
drops an instruction. -/
def combineInstrs (b : Body) : Body :=
  eliminateDeadCode (untilStable (roundOf simplifyFirst?) (b.instrCount + 1) b)

end SsaCompiler.Optimize
