import SsaCompiler.Ir.Body

/-!
Functions and modules. A module holds functions with and without a body, the strings that its code
refers to by number, and the support routines that its code may call without declaring them.
-/
namespace SsaCompiler.Ir

structure Param where
  name : String
  ty : Ty
  deriving DecidableEq, Repr

structure Function where
  name : String
  params : List Param
  ret : Ty
  body : Option Body
  deriving DecidableEq, Repr

namespace Function

def paramTypes (f : Function) : List Ty := f.params.map (·.ty)

def sameSignature (f g : Function) : Bool := f.ret = g.ret ∧ f.paramTypes = g.paramTypes

/-- The type of an operand; what does not exist is void. -/
def typeOf (f : Function) : Value → Ty
  | .const c => c.ty
  | .reg r => (f.body.bind (·.regTypes[r]?)).getD .void
  | .param i => (f.params[i]?.map (·.ty)).getD .void
  | .global _ => .string

end Function

/-- Support routines that generated code may call. -/
inductive Routine
  | puts
  | abort
  deriving DecidableEq, Repr

namespace Routine

def all : List Routine := [puts, abort]

def name : Routine → String
  | puts => "puts"
  | abort => "abort"

def params : Routine → List Ty
  | puts => [.string]
  | abort => []

def ret : Routine → Ty
  | puts => .i64
  | abort => .void

def ofName? (name : String) : Option Routine := all.find? (·.name = name)

/-- Whether a function may stand in for a routine. -/
def accepts (r : Routine) (f : Function) : Bool := f.ret = r.ret ∧ f.paramTypes = r.params

end Routine

structure Module where
  name : String
  functions : List Function
  strings : List String
  /-- The routines that are declared, in the order of `Routine.all`. -/
  routines : List Routine
  deriving DecidableEq, Repr

namespace Module

def empty (name : String) : Module := ⟨name, [], [], []⟩

def function? (m : Module) (name : String) : Option Function := m.functions.find? (·.name = name)

def addFunction (m : Module) (f : Function) : Module := { m with functions := m.functions ++ [f] }

/-- Puts a function in the place of the one with its name, or appends it. -/
def define (m : Module) (f : Function) : Module :=
  match m.functions.findIdx? (·.name = f.name) with
  | some i => { m with functions := m.functions.set i f }
  | none => m.addFunction f

def removeFunction (m : Module) (name : String) : Module :=
  { m with functions := m.functions.eraseP (·.name = name) }

/-- The string constant of a text. Equal texts share one constant. -/
def internString (m : Module) (text : String) : Value × Module :=
  match m.strings.findIdx? (· = text) with
  | some i => (.global i, m)
  | none => (.global m.strings.length, { m with strings := m.strings ++ [text] })

def declareRoutine (m : Module) (r : Routine) : Module :=
  { m with routines := Routine.all.filter fun x => x = r ∨ x ∈ m.routines }

def bodies (m : Module) : List Body := m.functions.filterMap (·.body)

/-- The numbers of the strings that some operand refers to, each once. -/
def referenced (m : Module) : List Nat :=
  ((m.bodies.flatMap Body.operands).filterMap Value.global?).eraseDups

/-- The names that some instruction calls. -/
def callees (m : Module) : List String :=
  m.bodies.flatMap fun b => b.blocks.flatMap fun x => x.instrs.filterMap (·.op.callee?)

/-- How many numbers of a list are below `i`: the new number of string `i` when only the listed
strings stay. -/
def rank (used : List Nat) (i : Nat) : Nat := (used.filter (· < i)).length

def renumber (used : List Nat) : Value → Value
  | .global i => .global (rank used i)
  | v => v

/-- Drops the routines that nothing calls and the strings that nothing refers to. -/
def discardUnused (m : Module) : Module :=
  let used := m.referenced
  let called := m.callees
  { m with
    functions := m.functions.map fun f =>
      { f with body := f.body.map (Body.mapOperands (renumber used)) }
    strings := (m.strings.zipIdx.filter fun s => s.2 ∈ used).map (·.1)
    routines := m.routines.filter (·.name ∈ called) }

/-- The parameter and result types of what can be called by a name. -/
def calleeSignature? (m : Module) (name : String) : Option (List Ty × Ty) :=
  match m.function? name with
  | some f => some (f.paramTypes, f.ret)
  | none => (m.routines.find? (·.name = name)).map fun r => (r.params, r.ret)

end Module

end SsaCompiler.Ir
