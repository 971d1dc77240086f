import SsaCompiler.Lowering.Expr

/-!
Lowering statements. Every statement reports whether control goes on behind it; statements behind
one that does not are left out.
-/
namespace SsaCompiler

open Ir (BlockId Value)
open LowerM

namespace LowerM

/-- Lowers a branch and jumps to `exit` from its end, if it has one. Reports whether it has. -/
def branchTo (exit : BlockId) (branch : LowerM Flow) : LowerM Bool := do
  match ← branch with
  | .continues =>
    br exit
    return true
  | .terminated => return false

/-- Where control goes when a condition fails: to a new block for the next condition if there is
one, to `elseTo` otherwise. -/
def testBlock (elseTo : BlockId) (rest : ElseChain) : LowerM BlockId :=
  if rest.isElseIf then appendBlock "if.elif" else pure elseTo

/-- Counts an iteration and goes back to the header of a loop, if control reaches the end of its
body. -/
def closeLoop (header : BlockId) (counter : Value) : Flow → LowerM Unit
  | .continues => do
    let latch ← currentBlock
    let next ← build (·.binary .add counter (.int 1))
    edit (·.addIncoming counter next latch)
    br header
  | .terminated => pure ()

def bindIndex (counter : Value) : Option String → LowerM Unit
  | some name => LowerM.bind name ⟨counter, .int⟩
  | none => pure ()

end LowerM

def lowerReturn (ctx : LowerContext) : Option Expr → LowerM Flow
  | none => do
    if ctx.result ≠ .void then mismatch (.missingReturn ctx.result)
    else
      ret none
      return .terminated
  | some e => do
    let v ← lowerExpr ctx e
    if v.type ≠ ctx.result then mismatch (.wrongReturn v.type ctx.result)
    else
      ret (if v.type = .void then none else some v.value)
      return .terminated

/-- Lowers a loop that tests its condition before every iteration. The header counts iterations. -/
def lowerWhile (ctx : LowerContext) (condition : Expr) (body : LowerM Flow) : LowerM Flow := do
  let preheader ← currentBlock
  let header ← appendBlock "loop.header"
  let inside ← appendBlock "loop.body"
  let exit ← appendBlock "loop.end"
  br header
  position header
  let counter ← build (·.phi .i64 [(.int 0, preheader)])
  let cond ← lowerCondition ctx condition
  condBr cond inside exit
  position inside
  let flow ← body
  closeLoop header counter flow
  continueIn exit
  return .continues

/-- Lowers a loop over a sequence of at least one element. A stack slot holds the element: it is
filled with the first one before the loop and with the next one after each iteration. -/
def lowerForIn (index : Option String) (element : String) (sequence : Value) (elem : DataType)
    (len : Nat) (body : LowerM Flow) : LowerM Flow := do
  let slot ← build (·.alloca elem.toIr)
  let first ← build (·.elementPtr elem.toIr sequence (.int 0))
  let first ← build (·.load elem.toIr first)
  emit (·.store first slot)
  let preheader ← currentBlock
  let header ← appendBlock "for.header"
  let step ← appendBlock "for.step"
  let exit ← appendBlock "for.end"
  br header
  position header
  let counter ← build (·.phi .i64 [(.int 0, preheader)])
  let current ← build (·.load elem.toIr slot)
  let flow ← inFrame do
    bindIndex counter index
    LowerM.bind element ⟨current, elem⟩
    body
  match flow with
  | .terminated =>
    edit fun b => (b.removeBlock step).removeBlock exit
    return .terminated
  | .continues =>
    let next ← build (·.binary .add counter (.int 1))
    let more ← build (·.icmp .slt next (.int (Int64.ofNat len)))
    condBr more step exit
    continueIn step
    let ptr ← build (·.elementPtr elem.toIr sequence next)
    let value ← build (·.load elem.toIr ptr)
    emit (·.store value slot)
    edit (·.addIncoming counter next step)
    br header
    continueIn exit
    return .continues

mutual

def lowerStmt (ctx : LowerContext) : Stmt → LowerM Flow
  | .expr e => do
    let _ ← lowerExpr ctx e
    return .continues
  | .ret value => lowerReturn ctx value
  | .branch condition thenBlock rest => do
    let cond ← lowerCondition ctx condition
    let thenTo ← appendBlock "if.then"
    let elseTo ← appendBlock "if.else"
    let exit ← appendBlock "if.end"
    let test ← testBlock elseTo rest
    condBr cond thenTo test
    position thenTo
    let thenReaches ← branchTo exit (inFrame (lowerStmts ctx thenBlock))
    let restReaches ← lowerElse ctx elseTo exit test rest
    if thenReaches || restReaches then
      continueIn exit
      return .continues
    else
      edit (·.removeBlock exit)
      return .terminated
  | .whileLoop condition body => lowerWhile ctx condition (inFrame (lowerStmts ctx body))
  | .forIn index element sequence body => do
    let v ← lowerExpr ctx sequence
    match v.type with
    | .sequence elem len =>
      if len = 0 then return .continues
      else lowerForIn index element v.value elem len (inFrame (lowerStmts ctx body))
    | ty => mismatch (.notSequence ty)

/-- Lowers statements up to the first one that control does not go on behind. -/
def lowerStmts (ctx : LowerContext) : List Stmt → LowerM Flow
  | [] => return .continues
  | s :: ss => do
    match ← lowerStmt ctx s with
    | .terminated => return .terminated
    | .continues => lowerStmts ctx ss

/-- Lowers what follows the first block of a branch. The next condition is tested in `test`, the
last alternative goes to `elseTo`. Reports whether control reaches `exit` from here. -/
def lowerElse (ctx : LowerContext) (elseTo exit : BlockId) : BlockId → ElseChain → LowerM Bool
  | _, .none => do
    continueIn elseTo
    br exit
    return true
  | _, .otherwise block => do
    continueIn elseTo
    branchTo exit (inFrame (lowerStmts ctx block))
  | test, .elseIf condition block rest => do
    continueIn test
    let cond ← lowerCondition ctx condition
    let thenTo ← appendBlock "if.elif.then"
    let next ← testBlock elseTo rest
    condBr cond thenTo next
    position thenTo
    let thenReaches ← branchTo exit (inFrame (lowerStmts ctx block))
    let restReaches ← lowerElse ctx elseTo exit next rest
    return thenReaches || restReaches

end

/-- Lowers the body of a function. A void function returns at its end. -/
def lowerBody (ctx : LowerContext) (body : List Stmt) : LowerM Unit := do
  match ← inFrame (lowerStmts ctx body) with
  | .continues => if ctx.result = .void then ret none
  | .terminated => pure ()

end SsaCompiler
