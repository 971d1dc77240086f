import SsaCompiler.Lowering.Stmt
import SsaCompiler.Optimize.Pipeline
import SsaCompiler.Program.Parser
import SsaCompiler.Settings

/-!
Compiling a program. All prototypes of a program are declared first, so a body may call functions
that are defined further down. Statements outside of functions become the body of one function of
their own, which ends up in the module when the compilation is finished.
-/
namespace SsaCompiler

open Ir (Builder Function Module Routine Value)

/-- What has been compiled so far. -/
structure Compilation where
  module : Module
  /-- The function of the statements outside of functions, once there is one. -/
  toplevel : Option Builder
  settings : Settings
  deriving DecidableEq, Repr

/-- Steps of a compilation. What was done before an error stays. -/
abbrev CompileM := ExceptT CompileError (StateM Compilation)

namespace Compilation

def start (name : String) (settings : Settings) : Compilation := ⟨.empty name, none, settings⟩

/-- The name of the function of the statements outside of functions. -/
def toplevelName : String := "__toplevel"

def editModule (f : Module → Module) : CompileM Unit :=
  modify fun c => { c with module := f c.module }

def function? (name : String) : CompileM (Option Function) := return (← get).module.function? name

def resolve (proto : Prototype) : CompileM Signature :=
  match Signature.resolve proto with
  | .ok sig => return sig
  | .error t => throw (.unsupported t)

/-- Whether a declaration takes the name of a routine without having its signature. -/
def conflictingRoutine? (f : Function) : Option Routine :=
  (Routine.ofName? f.name).filter fun r => !r.accepts f

/-- Declares a prototype. A function may be declared again with the same signature. -/
def declare (proto : Prototype) : CompileM Unit := do
  let sig ← resolve proto
  let decl := sig.declaration proto
  match conflictingRoutine? decl with
  | some r => throw (.redefinition r.name)
  | none =>
    match ← function? proto.name with
    | some f => if f.sameSignature decl then return () else throw (.redefinition proto.name)
    | none => editModule (·.addFunction decl)

/-- Lowers into the body of a builder. The module keeps what was added to it, also after an error.
-/
def lower {α : Type} (b : Builder) (scope : Scope) (result : DataType)
    (step : LowerContext → LowerM α) : CompileM (Except CompileError α × Option Builder) := do
  let c ← get
  let (a, s) := (step ⟨c.settings.guardDivision, result⟩).run.run ⟨c.module, some b, scope⟩
  editModule fun _ => s.module
  return (a, s.builder?)

/-- Puts a finished function into the module, or removes its declaration if it is flawed. -/
def finalize (f : Function) : CompileM Unit := do
  let c ← get
  match f.verify c.module with
  | .error flaw =>
    editModule (·.removeFunction f.name)
    throw (.verification f.name flaw)
  | .ok () =>
    editModule (·.define (if c.settings.optimize then f.optimize Optimize.standardPasses else f))

/-- The parameters of a function, bound to their names. -/
def paramScope (proto : Prototype) (sig : Signature) : Scope :=
  ((proto.params.zip sig.params).zipIdx).foldl
    (fun s p => s.bind p.1.1.name ⟨.param p.2, p.1.2⟩) .empty

/-- Declares and defines a function. -/
def define (f : FunctionDecl) : CompileM Unit := do
  declare f.proto
  match ← function? f.proto.name with
  | none => throw (.undefined f.proto.name)
  | some decl =>
    if decl.body.isSome then throw (.redefinition f.proto.name)
    else
      let sig ← resolve f.proto
      let (r, b) ← lower (.start decl) (paramScope f.proto sig) sig.result
        fun ctx => lowerBody ctx f.body
      match r, b with
      | .error e, _ => throw e
      | .ok (), some b => finalize b.finish
      | .ok (), none => return ()

/-- The builder of the function of the statements outside of functions. -/
def toplevelBuilder : CompileM Builder := do
  match (← get).toplevel with
  | some b => return b
  | none =>
    if (← function? toplevelName).isSome then throw (.redefinition toplevelName)
    else
      let decl : Function := ⟨toplevelName, [], .void, none⟩
      editModule (·.addFunction decl)
      return .start decl

def setToplevel (b : Option Builder) : CompileM Unit := modify fun c => { c with toplevel := b }

/-- Lowers a statement outside of functions. Behind a return it is left out. -/
def lowerToplevel (stmt : Stmt) : CompileM Unit := do
  let b ← toplevelBuilder
  if b.isTerminated then setToplevel (some b)
  else
    let (r, b) ← lower b .empty .void fun ctx => lowerStmt ctx stmt
    setToplevel b
    match r with
    | .error e => throw e
    | .ok _ => return ()

/-- Finishes the function of the statements outside of functions. -/
def finishToplevel : CompileM Unit := do
  match (← get).toplevel with
  | none => return ()
  | some b =>
    setToplevel none
    match b.terminate (.ret none) with
    | .error e => throw (.build e)
    | .ok b => finalize b.finish

/-- Finishes the module: what no function uses is discarded, and the rest is verified. -/
def finish : CompileM Module := do
  finishToplevel
  editModule Module.discardUnused
  let m := (← get).module
  match m.verify with
  | .error (name, flaw) => throw (.verification name flaw)
  | .ok () => return m

/-- Declares the prototype of an item, if it has one. -/
def declareItem (i : Item) : CompileM Unit :=
  match i.proto? with
  | some proto => declare proto
  | none => return ()

def lowerItem : Item → CompileM Unit
  | .function f => define f
  | .foreign proto => declare proto
  | .statement s => lowerToplevel s

/-- Compiles the items of a program that could be read up to an error. -/
def compileItems (items : List Item) (e : Option ParseError) : CompileM Module := do
  items.forM declareItem
  match e with
  | some e => throw (.parse e)
  | none =>
    items.forM lowerItem
    finish

end Compilation

/-- Compiles a source text into a verified module. -/
def compile (source : Source) (name : String) (settings : Settings) :
    Except CompileError Module :=
  let (items, e) := (Parser.ofLexer (.ofSource source { strict := settings.strict })).program
  ((Compilation.compileItems items e).run.run (Compilation.start name settings)).1

end SsaCompiler
