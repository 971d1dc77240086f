import SsaCompiler.Ir.FlowGraph
import SsaCompiler.Ir.Module

/-!
Checking that a function is well formed: every block ends in a terminator, phis agree with the
edges into their block, operands exist and have the right types, and a definition dominates every
use of its register. Code that cannot be reached is not held to the last rule.
-/
namespace SsaCompiler.Ir

/-- What is wrong with a function. Blocks are given by their labels. -/
inductive Flaw
  | noEntry
  | entryHasPredecessors
  | redefined (r : Reg)
  | unterminated (label : String)
  | missingTarget (label : String)
  | ungroupedPhi (label : String)
  | phiEdges (label : String)
  | missingParam (index : Nat)
  | missingGlobal (index : Nat)
  | binaryTypes (op : BinOp) (lhs rhs : Ty)
  | icmpTypes (lhs rhs : Ty)
  | fcmpTypes (lhs rhs : Ty)
  | undeclaredCallee (callee : String)
  | callSignature (callee : String)
  | callResult (callee : String)
  | phiType (ty : Ty)
  | slotType
  | loadType (ty ptr : Ty)
  | storeType (ty ptr : Ty)
  | elementOfNonArray (ty : Ty)
  | elementType
  | conditionType
  | missingReturnValue (ret : Ty)
  | returnType (ty ret : Ty)
  | undefinedReg (r : Reg)
  | notDominated (r : Reg)
  deriving DecidableEq, Repr

/-- How a message names an operation. -/
def BinOp.describe : BinOp → String
  | add => "Add"
  | sub => "Sub"
  | mul => "Mul"
  | sdiv => "SDiv"
  | fadd => "FAdd"
  | fsub => "FSub"
  | fmul => "FMul"
  | fdiv => "FDiv"

def Flaw.message : Flaw → String
  | noEntry => "function has no entry block"
  | entryHasPredecessors => "entry block has predecessors"
  | redefined r => "value %" ++ toString r ++ " is defined more than once"
  | unterminated l => "block '" ++ l ++ "' does not end in a terminator"
  | missingTarget l => "block '" ++ l ++ "' branches to a missing block"
  | ungroupedPhi l => "phi node not grouped at top of block '" ++ l ++ "'"
  | phiEdges l => "phi node in block '" ++ l ++ "' does not have one entry per predecessor"
  | missingParam i => "reference to missing parameter " ++ toString i
  | missingGlobal i => "reference to missing global " ++ toString i
  | binaryTypes op l r =>
    "binary operator " ++ op.describe ++ " applied to " ++ l.text ++ " and " ++ r.text
  | icmpTypes l r => "integer comparison of " ++ l.text ++ " and " ++ r.text
  | fcmpTypes l r => "float comparison of " ++ l.text ++ " and " ++ r.text
  | undeclaredCallee c => "call to undeclared function '" ++ c ++ "'"
  | callSignature c => "call to '" ++ c ++ "' does not match its signature"
  | callResult c => "call to '" ++ c ++ "' has the wrong result type"
  | phiType t => "phi node of type " ++ t.text ++ " has an incoming value of another type"
  | slotType => "stack slot has the wrong pointer type"
  | loadType t p => "load of " ++ t.text ++ " through " ++ p.text
  | storeType t p => "store of " ++ t.text ++ " through " ++ p.text
  | elementOfNonArray t => "element address of non-array " ++ t.text
  | elementType => "element address has the wrong type"
  | conditionType => "branch condition is not i1"
  | missingReturnValue t => "missing return value in function returning " ++ t.text
  | returnType t ret => "return of " ++ t.text ++ " in function returning " ++ ret.text
  | undefinedReg r => "use of undefined value %" ++ toString r
  | notDominated r => "instruction does not dominate all uses: %" ++ toString r

/-- Fails with a flaw unless a condition holds. -/
def require (p : Prop) [Decidable p] (flaw : Flaw) : Except Flaw Unit :=
  if p then .ok () else .error flaw

namespace Function

/-- Checks that an operand exists if it is a parameter or a string. -/
def checkExists (f : Function) (m : Module) : Value → Except Flaw Unit
  | .param i => require (i < f.params.length) (.missingParam i)
  | .global i => require (i < m.strings.length) (.missingGlobal i)
  | _ => .ok ()

def operandType (f : Function) (m : Module) (v : Value) : Except Flaw Ty := do
  f.checkExists m v
  return f.typeOf v

def operandTypes (f : Function) (m : Module) : List Value → Except Flaw (List Ty)
  | [] => .ok []
  | v :: vs => do
    let t ← f.operandType m v
    return t :: (← f.operandTypes m vs)

/-- Checks the types of an operation whose result has type `ty`. -/
def checkOp (f : Function) (m : Module) (ty : Ty) (op : Op) : Except Flaw Unit := do
  let types ← f.operandTypes m op.operands
  match op with
  | .binary op l r =>
    require (f.typeOf l = op.ty ∧ f.typeOf r = op.ty ∧ ty = op.ty)
      (.binaryTypes op (f.typeOf l) (f.typeOf r))
  | .icmp _ l r =>
    let t := f.typeOf l
    require (t = f.typeOf r ∧ (t.isInteger ∨ t.pointee?.isSome)) (.icmpTypes t (f.typeOf r))
  | .fcmp _ l r =>
    require (f.typeOf l = .double ∧ f.typeOf r = .double) (.fcmpTypes (f.typeOf l) (f.typeOf r))
  | .call callee _ =>
    match m.calleeSignature? callee with
    | none => throw (.undeclaredCallee callee)
    | some (params, ret) =>
      require (params = types) (.callSignature callee)
      require (ret = ty) (.callResult callee)
  | .phi _ => require (∀ t ∈ types, t = ty) (.phiType ty)
  | .alloca t => require (ty = .ptr t) .slotType
  | .load p => require ((f.typeOf p).pointee? = some ty) (.loadType ty (f.typeOf p))
  | .store v p =>
    require ((f.typeOf p).pointee? = some (f.typeOf v)) (.storeType (f.typeOf v) (f.typeOf p))
  | .elementPtr b i =>
    match f.typeOf b with
    | .ptr (.array elem _) =>
      require (f.typeOf i = .i64 ∧ ty.pointee? = some elem) .elementType
    | t => throw (.elementOfNonArray t)

def checkTerm (f : Function) : Terminator → Except Flaw Unit
  | .br _ => .ok ()
  | .condBr c _ _ => require (f.typeOf c = .i1) .conditionType
  | .ret none => require (f.ret = .void) (.missingReturnValue f.ret)
  | .ret (some v) =>
    require (f.ret ≠ .void ∧ f.typeOf v = f.ret) (.returnType (f.typeOf v) f.ret)

/-- Whether two lists have the same members and the first has no repetition. -/
def onePerPred (sources preds : List BlockId) : Prop :=
  sources.Nodup ∧ (∀ s ∈ sources, s ∈ preds) ∧ ∀ p ∈ preds, p ∈ sources

instance (sources preds : List BlockId) : Decidable (onePerPred sources preds) :=
  inferInstanceAs (Decidable (_ ∧ _ ∧ _))

/-- Checks the place and the edges of a phi in a block with the given label and predecessors. -/
def checkPhi (label : String) (preds : List BlockId) (past : Bool) : Op → Except Flaw Unit
  | .phi incoming => do
    require (past = false) (.ungroupedPhi label)
    require (onePerPred (incoming.map (·.2)) preds) (.phiEdges label)
  | _ => .ok ()

/-- Checks the instructions of a block with the given label and predecessors. Once an instruction
other than a phi was seen, `past` is set. -/
def checkInstrs (f : Function) (m : Module) (label : String) (preds : List BlockId) :
    Bool → List Instr → Except Flaw Unit
  | _, [] => .ok ()
  | past, i :: is => do
    checkPhi label preds past i.op
    f.checkOp m i.ty i.op
    f.checkInstrs m label preds (past || !i.op.isPhi) is

/-- Checks the shape and the types of a block. -/
def checkBlock (f : Function) (m : Module) (body : Body) (g : FlowGraph) (b : Block) :
    Except Flaw Unit := do
  match b.term with
  | none => throw (.unterminated b.label)
  | some t =>
    require (∀ s ∈ t.successors, (body.block? s).isSome) (.missingTarget b.label)
    f.checkInstrs m b.label (g.preds b.id) false b.instrs
    f.checkTerm t

end Function

namespace Body

/-- The registers that instructions define, in layout order. -/
def results (b : Body) : List Reg := b.blocks.flatMap fun x => x.instrs.filterMap (·.result)

/-- The first entry of a list that occurred before, if `seen` came before the list. -/
def firstRepeated (seen : List Reg) : List Reg → Option Reg
  | [] => none
  | r :: rs => if r ∈ seen then some r else firstRepeated (r :: seen) rs

/-- Checks that `r` is defined before index `before` of block `place`, or anywhere in it, or in a
block that dominates it. -/
def checkUse (b : Body) (doms : List (BlockId × List BlockId)) (r : Reg) (place : BlockId)
    (before : Option Nat) : Except Flaw Unit :=
  match b.definition? r with
  | none => .error (.undefinedReg r)
  | some (home, index) =>
    match doms.lookup place with
    | none => .ok ()
    | some above =>
      if home = place then require (∀ i ∈ before, index < i) (.notDominated r)
      else require (home ∈ above) (.notDominated r)

/-- Checks the uses of registers among values. -/
def checkUses (b : Body) (doms : List (BlockId × List BlockId)) (place : BlockId)
    (before : Option Nat) (vs : List Value) : Except Flaw Unit :=
  (vs.filterMap Value.reg?).forM fun r => b.checkUse doms r place before

/-- Checks the uses in an instruction. A phi uses a value at the end of the block it comes from. -/
def checkInstrUses (b : Body) (doms : List (BlockId × List BlockId)) (place : BlockId)
    (i : Instr × Nat) : Except Flaw Unit :=
  match i.1.op with
  | .phi incoming =>
    if (doms.lookup place).isSome then
      incoming.forM fun e => b.checkUses doms e.2 none [e.1]
    else .ok ()
  | op => b.checkUses doms place (some i.2) op.operands

def checkBlockUses (b : Body) (doms : List (BlockId × List BlockId)) (x : Block) :
    Except Flaw Unit := do
  x.instrs.zipIdx.forM (b.checkInstrUses doms x.id)
  b.checkUses doms x.id none (x.term.elim [] Terminator.operands)

end Body

namespace Function

/-- Checks a function against the module it belongs to. -/
def verify (f : Function) (m : Module) : Except Flaw Unit := do
  match f.body with
  | none => return ()
  | some body =>
    match body.entryId? with
    | none => throw .noEntry
    | some entry =>
      let g := FlowGraph.ofBody body
      require (g.preds entry = []) .entryHasPredecessors
      match Body.firstRepeated [] body.results with
      | some r => throw (.redefined r)
      | none =>
        body.blocks.forM (f.checkBlock m body g)
        let doms := g.dominators
        body.blocks.forM (body.checkBlockUses doms)

end Function

/-- Checks all functions of a module. A failure names its function. -/
def Module.verify (m : Module) : Except (String × Flaw) Unit :=
  m.functions.forM fun f => (f.verify m).mapError (f.name, ·)

end SsaCompiler.Ir
