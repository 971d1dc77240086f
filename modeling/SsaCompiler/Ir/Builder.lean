import SsaCompiler.Ir.Module

/-!
Building a function body. Instructions go to the end of the current block, except that phis join the
phis at its top and stack slots go to the top of the entry block. The first terminator of a block
stays.
-/
namespace SsaCompiler.Ir

/-- A broken rule of building, which no source program leads to. -/
inductive BuildError
  | insertionBlockRemoved
  | noEntryBlock
  | noBuilder
  deriving DecidableEq, Repr

def BuildError.message : BuildError → String
  | .insertionBlockRemoved => "insertion block was removed"
  | .noEntryBlock => "function has no entry block"
  | .noBuilder => "statements are only lowered inside a function"

/-- A function whose body is being built. -/
structure Builder where
  name : String
  params : List Param
  ret : Ty
  body : Body
  current : BlockId
  deriving DecidableEq, Repr

namespace Builder

/-- Starts a body with an empty entry block. -/
def start (f : Function) : Builder :=
  let (entry, body) := Body.empty.addBlock "entry"
  ⟨f.name, f.params, f.ret, body, entry⟩

def finish (b : Builder) : Function := ⟨b.name, b.params, b.ret, some b.body⟩

def appendBlock (b : Builder) (name : String) : BlockId × Builder :=
  let (id, body) := b.body.addBlock name
  (id, { b with body })

/-- Moves a block to the end of the layout. -/
def moveToEnd (b : Builder) (id : BlockId) : Builder :=
  match b.body.block? id with
  | some x =>
    let body := b.body.removeBlock id
    { b with body := { body with blocks := body.blocks ++ [x] } }
  | none => b

def removeBlock (b : Builder) (id : BlockId) : Builder := { b with body := b.body.removeBlock id }

def position (b : Builder) (id : BlockId) : Builder := { b with current := id }

/-- Whether the current block has its terminator. -/
def isTerminated (b : Builder) : Bool := (b.body.block? b.current).any (·.term.isSome)

/-- Changes the current block. -/
def updateCurrent (b : Builder) (f : Block → Block) : Except BuildError Builder :=
  if (b.body.block? b.current).isSome then
    .ok { b with body := b.body.updateBlock b.current f }
  else .error .insertionBlockRemoved

/-- Appends an instruction to the current block. -/
def append (b : Builder) (i : Instr) : Except BuildError Builder :=
  b.updateCurrent fun x => { x with instrs := x.instrs ++ [i] }

/-- Appends an instruction. It has a result unless its type is void. -/
def push (b : Builder) (ty : Ty) (op : Op) : Except BuildError (Option Value × Builder) := do
  if ty = .void then
    let b ← b.append ⟨none, ty, op⟩
    return (none, b)
  else
    let (r, body) := b.body.newReg ty
    let b ← { b with body }.append ⟨some r, ty, op⟩
    return (some (.reg r), b)

/-- Appends an instruction and returns its result, which is undefined if it has none. -/
def pushValue (b : Builder) (ty : Ty) (op : Op) : Except BuildError (Value × Builder) := do
  let (v, b) ← b.push ty op
  return (v.getD (.const (.undef .void)), b)

def binary (b : Builder) (op : BinOp) (lhs rhs : Value) : Except BuildError (Value × Builder) :=
  b.pushValue op.ty (.binary op lhs rhs)

def icmp (b : Builder) (pred : IntPred) (lhs rhs : Value) :
    Except BuildError (Value × Builder) :=
  b.pushValue .i1 (.icmp pred lhs rhs)

def fcmp (b : Builder) (pred : FloatPred) (lhs rhs : Value) :
    Except BuildError (Value × Builder) :=
  b.pushValue .i1 (.fcmp pred lhs rhs)

/-- Appends a call, which has no result if its type is void. -/
def call (b : Builder) (callee : String) (args : List Value) (ret : Ty) :
    Except BuildError (Option Value × Builder) :=
  b.push ret (.call callee args)

/-- Inserts an instruction behind the leading ones that satisfy `p`. -/
def insertAfter (p : Instr → Bool) (i : Instr) (is : List Instr) : List Instr :=
  is.takeWhile p ++ i :: is.dropWhile p

/-- Adds a phi below the phis of the current block. -/
def phi (b : Builder) (ty : Ty) (incoming : List (Value × BlockId)) :
    Except BuildError (Value × Builder) := do
  let (r, body) := b.body.newReg ty
  let b ← { b with body }.updateCurrent fun x =>
    { x with instrs := insertAfter (·.op.isPhi) ⟨some r, ty, .phi incoming⟩ x.instrs }
  return (.reg r, b)

/-- Adds an edge to a phi. -/
def addIncoming (b : Builder) (phi value : Value) (source : BlockId) : Builder :=
  match phi with
  | .reg r =>
    let addTo (x : Block) : Block := { x with
      instrs := modifyFirst (·.result = some r) (·.mapIncoming (· ++ [(value, source)])) x.instrs }
    { b with body := { b.body with
        blocks := modifyFirst (·.instrs.any (·.result = some r)) addTo b.body.blocks } }
  | _ => b

/-- Adds a stack slot below the slots of the entry block. -/
def alloca (b : Builder) (ty : Ty) : Except BuildError (Value × Builder) :=
  let (r, body) := b.body.newReg (.ptr ty)
  match body.blocks with
  | [] => .error .noEntryBlock
  | x :: rest =>
    let x := { x with
      instrs := insertAfter (·.op.isAlloca) ⟨some r, .ptr ty, .alloca ty⟩ x.instrs }
    .ok (.reg r, { b with body := { body with blocks := x :: rest } })

def load (b : Builder) (ty : Ty) (ptr : Value) : Except BuildError (Value × Builder) :=
  b.pushValue ty (.load ptr)

def store (b : Builder) (value ptr : Value) : Except BuildError Builder := do
  let (_, b) ← b.push .void (.store value ptr)
  return b

/-- Appends the address of an element of the array that `base` points to. -/
def elementPtr (b : Builder) (elem : Ty) (base index : Value) :
    Except BuildError (Value × Builder) :=
  b.pushValue (.ptr elem) (.elementPtr base index)

/-- Ends the current block unless it has ended before. -/
def terminate (b : Builder) (t : Terminator) : Except BuildError Builder :=
  b.updateCurrent fun x => { x with term := x.term.or (some t) }

end Builder

end SsaCompiler.Ir
