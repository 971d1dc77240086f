import SsaCompiler.Ir.Arith
import SsaCompiler.Ir.Module

/-!
Running a body. An environment answers calls and keeps the memory; apart from it a run is
determined. Integers wrap around, a quotient that does not exist stops the run without an outcome,
and so does a branch on an undefined value, which arithmetic and comparisons hand on. Phis take
their values all at once when control enters their block.
-/
namespace SsaCompiler.Ir

/-- Values at run time. What is neither a number nor a boolean, such as an address, belongs to the
environment. -/
inductive Val (α : Type)
  | int (n : Int64)
  | float (x : Double)
  | bool (b : Bool)
  | other (a : α)
  | undef
  deriving DecidableEq, Repr

/-- A call with its arguments. -/
structure Call (α : Type) where
  callee : String
  args : List (Val α)
  deriving DecidableEq, Repr

/-- How a call ends: it returns, or it stops the program. -/
inductive Reply (α μ : Type)
  | returned (value : Option (Val α)) (world : μ)
  | stopped (world : μ)

/-- What a body does not settle itself: where strings are, memory and the functions it calls, each
in the state `μ` of the world. -/
structure Environment (α μ : Type) where
  equal : α → α → Bool
  equal_iff : ∀ a b, equal a b = true ↔ a = b
  string : Nat → α
  string_injective : ∀ i j, string i = string j → i = j
  alloca : μ → Ty → Option (Val α × μ)
  load : μ → Ty → Val α → Option (Val α)
  store : μ → Val α → Val α → Option μ
  /-- The address of type `ty` of an element, from the address of the array and the index. -/
  element : (ty : Ty) → Val α → Val α → Option (Val α)
  call : μ → String → List (Val α) → Option (Reply α μ)

section Arith

variable {α : Type}

def BinOp.onValues? (op : BinOp) : Val α → Val α → Option (Val α)
  | .int a, .int b => (op.onInts? a b).map .int
  | .float x, .float y => (op.onFloats? x y).map .float
  | .undef, .int b => if op = .sdiv ∧ b = 0 then none else some .undef
  | .undef, _ | _, .undef => some .undef
  | _, _ => none

/-- A boolean as a number of one bit with a sign. -/
def signedBit (b : Bool) : Int64 := if b then -1 else 0

/-- Numbers compare by their order, what belongs to the environment by `equal` only. -/
def IntPred.onValues? (equal : α → α → Bool) (pred : IntPred) : Val α → Val α → Option (Val α)
  | .int a, .int b => some (.bool (pred.onInts a b))
  | .bool a, .bool b => some (.bool (pred.onInts (signedBit a) (signedBit b)))
  | .other a, .other b =>
    match pred with
    | .eq => some (.bool (equal a b))
    | .ne => some (.bool (!equal a b))
    | _ => none
  | .undef, _ | _, .undef => some .undef
  | _, _ => none

def FloatPred.onValues? (pred : FloatPred) : Val α → Val α → Option (Val α)
  | .float x, .float y => some (.bool (pred.onFloats x y))
  | .undef, _ | _, .undef => some .undef
  | _, _ => none

end Arith

variable {α μ : Type}

/-- The registers of a run; those without a value have not been reached. -/
abbrev Regs (α : Type) := Reg → Option (Val α)

def Constant.eval : Constant → Val α
  | int n => .int n
  | float x => .float x
  | bool b => .bool b
  | undef _ => .undef

def Value.eval (env : Environment α μ) (args : List (Val α)) (regs : Regs α) :
    Value → Option (Val α)
  | const c => some c.eval
  | reg r => regs r
  | param i => args[i]?
  | global i => some (.other (env.string i))

/-- The value of an operation that only computes or loads, where `ev` gives the values of operands
and `ty` is the type of the result. -/
def Op.value? (env : Environment α μ) (ev : Value → Option (Val α)) (world : μ) (ty : Ty) :
    Op → Option (Val α)
  | binary op l r => do op.onValues? (← ev l) (← ev r)
  | icmp pred l r => do pred.onValues? env.equal (← ev l) (← ev r)
  | fcmp pred l r => do pred.onValues? (← ev l) (← ev r)
  | load p => do env.load world ty (← ev p)
  | elementPtr base i => do env.element ty (← ev base) (← ev i)
  | _ => none

/-- What an instruction does: it gives a value or none, or it stops the program. In either case it
may have made a call. -/
inductive Effect (α μ : Type)
  | next (value : Option (Val α)) (world : μ) (calls : List (Call α))
  | stop (world : μ) (calls : List (Call α))

def Instr.exec (env : Environment α μ) (ev : Value → Option (Val α)) (world : μ) (i : Instr) :
    Option (Effect α μ) :=
  match i.op with
  | .call callee args => do
    let values ← args.mapM ev
    match ← env.call world callee values with
    | .returned v w => some (.next v w [⟨callee, values⟩])
    | .stopped w => some (.stop w [⟨callee, values⟩])
  | .alloca t => (env.alloca world t).map fun p => .next (some p.1) p.2 []
  | .store v p => do
    let w ← env.store world (← ev v) (← ev p)
    some (.next none w [])
  | op => (op.value? env ev world i.ty).map fun v => .next (some v) world []

/-- Puts the value of an instruction into its register. -/
def Instr.write (i : Instr) (regs : Regs α) (value : Option (Val α)) : Option (Regs α) :=
  match i.result, value with
  | none, _ => some regs
  | some r, some v => some fun q => if q = r then some v else regs q
  | some _, none => none

/-- The value of a phi when control comes from `source`. -/
def Op.phiValue? (ev : Value → Option (Val α)) (source : BlockId) : Op → Option (Val α)
  | phi incoming => do ev (← incoming.find? (·.2 = source)).1
  | _ => none

/-- The registers after the phis of a block have taken their values. -/
def phiRegs (ev : Value → Option (Val α)) (source : BlockId) (phis : List Instr) (regs : Regs α) :
    Regs α := fun q =>
  match phis.find? (·.result = some q) with
  | some i => i.op.phiValue? ev source
  | none => regs q

/-- Where a terminator goes. -/
def Terminator.goesTo? (ev : Value → Option (Val α)) : Terminator → Option BlockId
  | br t => some t
  | condBr c t e =>
    match ev c with
    | some (.bool true) => some t
    | some (.bool false) => some e
    | _ => none
  | ret _ => none

/-- The state of a run: the block, the instructions that are left of it, the registers, the state of
the world and the calls made so far. -/
structure Config (α μ : Type) where
  block : Block
  rest : List Instr
  regs : Regs α
  world : μ
  calls : List (Call α)

/-- How a run ends, with the calls it has made. -/
inductive Outcome (α μ : Type)
  | returned (value : Option (Val α)) (world : μ) (calls : List (Call α))
  | stopped (world : μ) (calls : List (Call α))

namespace Config

variable (env : Environment α μ) (b : Body) (args : List (Val α))

/-- The values of operands. -/
def eval (c : Config α μ) : Value → Option (Val α) := Value.eval env args c.regs

/-- Control enters the block `y`. -/
def enter (c : Config α μ) (y : Block) : Config α μ where
  block := y
  rest := y.instrs.dropWhile (·.op.isPhi)
  regs := phiRegs (c.eval env args) c.block.id y.phis c.regs
  world := c.world
  calls := c.calls

inductive Step : Config α μ → Config α μ → Prop
  | instr {c : Config α μ} {i : Instr} {rest : List Instr} {v : Option (Val α)} {w : μ}
      {calls : List (Call α)} {regs : Regs α} :
      c.rest = i :: rest → i.exec env (c.eval env args) c.world = some (.next v w calls) →
      i.write c.regs v = some regs → Step c ⟨c.block, rest, regs, w, c.calls ++ calls⟩
  | jump {c : Config α μ} {t : Terminator} {y : Block} :
      c.rest = [] → c.block.term = some t → t.goesTo? (c.eval env args) = some y.id →
      b.block? y.id = some y → Step c (c.enter env args y)

inductive Ends : Config α μ → Outcome α μ → Prop
  | ret {c : Config α μ} : c.rest = [] → c.block.term = some (.ret none) →
      Ends c (.returned none c.world c.calls)
  | retValue {c : Config α μ} {v : Value} {a : Val α} : c.rest = [] →
      c.block.term = some (.ret (some v)) → c.eval env args v = some a →
      Ends c (.returned (some a) c.world c.calls)
  | stop {c : Config α μ} {i : Instr} {rest : List Instr} {w : μ} {calls : List (Call α)} :
      c.rest = i :: rest → i.exec env (c.eval env args) c.world = some (.stop w calls) →
      Ends c (.stopped w (c.calls ++ calls))

inductive Runs : Config α μ → Outcome α μ → Prop
  | ends {c : Config α μ} {o : Outcome α μ} : c.Ends env args o → Runs c o
  | step {c c' : Config α μ} {o : Outcome α μ} : c.Step env b args c' → Runs c' o → Runs c o

end Config

/-- The start of a run in the block `x`. -/
def Block.start (x : Block) (world : μ) : Config α μ := ⟨x, x.instrs, fun _ => none, world, []⟩

/-- A run of a body, from its first block. -/
def Body.Runs (env : Environment α μ) (b : Body) (args : List (Val α)) (world : μ)
    (o : Outcome α μ) : Prop :=
  ∃ x, b.blocks.head? = some x ∧ (x.start world).Runs env b args o

/-- A run of a function with a body. -/
def Function.Runs (env : Environment α μ) (f : Function) (args : List (Val α)) (world : μ)
    (o : Outcome α μ) : Prop := ∃ b, f.body = some b ∧ b.Runs env args world o

end SsaCompiler.Ir
