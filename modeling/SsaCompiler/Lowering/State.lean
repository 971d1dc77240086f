import SsaCompiler.Error
import SsaCompiler.Lowering.Scope

/-!
Lowering a function. The state holds the module, the function being built, if there is one, and the
names in scope, and it survives an error: what was emitted before stays.
-/
namespace SsaCompiler

open Ir (Builder BuildError BlockId Module Value)

/-- Whether control goes on behind a statement. -/
inductive Flow
  | continues
  | terminated
  deriving DecidableEq, Repr

/-- What stays the same while a function is lowered. -/
structure LowerContext where
  guardDivision : Bool
  result : DataType
  deriving DecidableEq, Repr

structure Lowering where
  module : Module
  builder? : Option Builder
  scope : Scope
  deriving DecidableEq, Repr

abbrev LowerM := ExceptT CompileError (StateM Lowering)

namespace LowerM

def build {α : Type} (f : Builder → Except BuildError (α × Builder)) : LowerM α := do
  let s ← get
  match s.builder? with
  | none => throw (.build .noBuilder)
  | some b =>
    match f b with
    | .ok (a, b) =>
      set { s with builder? := some b }
      return a
    | .error e => throw (.build e)

/-- Building steps that give no value. -/
def emit (f : Builder → Except BuildError Builder) : LowerM Unit :=
  build fun b => (f b).map ((), ·)

def appendBlock (name : String) : LowerM BlockId := build fun b => .ok (b.appendBlock name)

def edit (f : Builder → Builder) : LowerM Unit := build fun b => .ok ((), f b)

def position (id : BlockId) : LowerM Unit := edit (·.position id)

/-- Goes on in a block, which becomes the last one in the layout. -/
def continueIn (id : BlockId) : LowerM Unit := edit fun b => (b.moveToEnd id).position id

def currentBlock : LowerM BlockId := build fun b => .ok (b.current, b)

def br (target : BlockId) : LowerM Unit := emit (·.terminate (.br target))

def condBr (cond : Value) (thenTo elseTo : BlockId) : LowerM Unit :=
  emit (·.terminate (.condBr cond thenTo elseTo))

def ret (value : Option Value) : LowerM Unit := emit (·.terminate (.ret value))

def internString (text : String) : LowerM Value := do
  let s ← get
  let (v, m) := s.module.internString text
  set { s with module := m }
  return v

def declareRoutine (r : Ir.Routine) : LowerM Unit :=
  modify fun s => { s with module := s.module.declareRoutine r }

def editScope (f : Scope → Scope) : LowerM Unit := modify fun s => { s with scope := f s.scope }

def bind (name : String) (v : TypedValue) : LowerM Unit := editScope (·.bind name v)

/-- Runs a step in a frame of its own. -/
def inFrame {α : Type} (step : LowerM α) : LowerM α := do
  editScope Scope.push
  let a ← step
  editScope Scope.pop
  return a

/-- The signature of a function of the module. -/
def signature? (name : String) : LowerM (Option Signature) :=
  return ((← get).module.function? name).bind Signature.of?

def mismatch {α : Type} (e : TypeError) : LowerM α := throw (.mismatch e)

end LowerM

end SsaCompiler
