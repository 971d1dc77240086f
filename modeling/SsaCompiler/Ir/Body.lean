import SsaCompiler.Ir.Instr

/-!
Blocks and function bodies. The blocks of a body stand in layout order, and the first one is the
entry.
-/
namespace SsaCompiler.Ir

structure Block where
  id : BlockId
  name : String
  instrs : List Instr
  term : Option Terminator
  deriving DecidableEq, Repr

namespace Block

/-- The printed name: block 0 has its bare name, others add their number. -/
def label (b : Block) : String :=
  if b.id = 0 then b.name else b.name ++ "." ++ toString b.id

def successors (b : Block) : List BlockId := b.term.elim [] Terminator.successors

/-- The phis at the top of a block. -/
def phis (b : Block) : List Instr := b.instrs.takeWhile (·.op.isPhi)

/-- The operands of all instructions and of the terminator. -/
def operands (b : Block) : List Value :=
  b.instrs.flatMap (·.op.operands) ++ b.term.elim [] Terminator.operands

def mapOperands (f : Value → Value) (b : Block) : Block :=
  { b with instrs := b.instrs.map (Instr.mapOperands f), term := b.term.map (.mapOperands f) }

def mapIncoming (f : List (Value × BlockId) → List (Value × BlockId)) (b : Block) : Block :=
  { b with instrs := b.instrs.map (Instr.mapIncoming f) }

end Block

/-- Changes the first element that satisfies `p`. -/
def modifyFirst {α : Type} (p : α → Bool) (f : α → α) : List α → List α
  | [] => []
  | x :: xs => if p x then f x :: xs else x :: modifyFirst p f xs

structure Body where
  blocks : List Block
  /-- The type of each register. -/
  regTypes : List Ty
  /-- The number of the next block. -/
  nextBlock : Nat
  deriving DecidableEq, Repr

namespace Body

def empty : Body := ⟨[], [], 0⟩

def entryId? (b : Body) : Option BlockId := b.blocks.head?.map (·.id)

def block? (b : Body) (id : BlockId) : Option Block := b.blocks.find? (·.id = id)

/-- Appends an empty block and returns its number. -/
def addBlock (b : Body) (name : String) : BlockId × Body :=
  (b.nextBlock,
    { b with blocks := b.blocks ++ [⟨b.nextBlock, name, [], none⟩], nextBlock := b.nextBlock + 1 })

def removeBlock (b : Body) (id : BlockId) : Body :=
  { b with blocks := b.blocks.eraseP (·.id = id) }

def updateBlock (b : Body) (id : BlockId) (f : Block → Block) : Body :=
  { b with blocks := modifyFirst (·.id = id) f b.blocks }

/-- Allocates a register and returns its number. -/
def newReg (b : Body) (ty : Ty) : Reg × Body :=
  (b.regTypes.length, { b with regTypes := b.regTypes ++ [ty] })

def instrCount (b : Body) : Nat := (b.blocks.flatMap (·.instrs)).length

/-- The block that defines a register, and the place in it. -/
def definition? (b : Body) (r : Reg) : Option (BlockId × Nat) :=
  b.blocks.findSome? fun x => (x.instrs.findIdx? (·.result = some r)).map (x.id, ·)

/-- The instruction that defines a register. -/
def instr? (b : Body) (r : Reg) : Option Instr :=
  b.blocks.findSome? fun x => x.instrs.find? (·.result = some r)

def operands (b : Body) : List Value := b.blocks.flatMap Block.operands

/-- The registers used as operands, one entry for each use. -/
def uses (b : Body) : List Reg := b.operands.filterMap Value.reg?

def useCount (b : Body) (r : Reg) : Nat := b.uses.count r

def mapOperands (f : Value → Value) (b : Body) : Body :=
  { b with blocks := b.blocks.map (Block.mapOperands f) }

/-- Replaces every use of a register by a value. -/
def replaceUses (b : Body) (r : Reg) (v : Value) : Body := b.mapOperands (Value.replace r v)

/-- Drops the instructions that do not satisfy `p`. -/
def filterInstrs (p : Instr → Bool) (b : Body) : Body :=
  { b with blocks := b.blocks.map fun x => { x with instrs := x.instrs.filter p } }

/-- Drops the definition of a register. -/
def removeDefinition (b : Body) (r : Reg) : Body := b.filterInstrs (·.result ≠ some r)

/-- Drops the definition of a register and puts a value in its place. -/
def substitute (b : Body) (r : Reg) (v : Value) : Body := (b.replaceUses r v).removeDefinition r

end Body

end SsaCompiler.Ir
