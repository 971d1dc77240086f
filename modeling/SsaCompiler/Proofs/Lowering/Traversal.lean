import SsaCompiler.Proofs.Lowering.Yields

/-!
Properties of lowering as a whole from properties of its elementary steps. The blocks that a step may
jump to are on a list, which grows with every block that is appended; divisions of floats are taken
as one step. What holds of the elementary steps and is inherited by sequences of steps holds of the
lowering of every expression, statement and body. Where this asks too much of the elementary steps,
sequences and loops may be taken as one step as well.
-/
namespace SsaCompiler

open Ir LowerM

/-- The error is not one of the verifier. -/
def CompileError.Plain : CompileError → Prop
  | .verification .. => False
  | _ => True

/-- The error is neither one of the verifier nor one of building. -/
def CompileError.Raised : CompileError → Prop
  | .verification .. | .build .. => False
  | _ => True

theorem CompileError.Raised.plain {e : CompileError} (h : e.Raised) : e.Plain := by
  cases e <;> trivial

/-- A division of floats. -/
def Ir.Op.isDivision : Op → Bool
  | .binary .fdiv _ _ => true
  | _ => false

/-- An operation that stands where it is appended: neither a phi nor a stack slot. -/
def Ir.Op.isPlain (op : Op) : Bool := !op.isPhi && !op.isAlloca

/-- A plain operation that is neither a division of floats nor the address of an element. -/
def Ir.Op.isSimple : Op → Bool
  | .elementPtr _ _ => false
  | op => op.isPlain && !op.isDivision

theorem not_isDivision_of_isSimple {op : Op} (h : op.isSimple = true) : op.isDivision = false := by
  cases op with
  | elementPtr _ _ => rfl
  | _ => simp_all [Op.isSimple, Op.isPlain, Op.isPhi, Op.isAlloca]

theorem isPlain_of_isSimple {op : Op} (h : op.isSimple = true) : op.isPlain = true := by
  cases op with
  | elementPtr _ _ => rfl
  | _ => simp_all [Op.isSimple, Op.isPlain, Op.isPhi, Op.isAlloca]

universe u

/-- A property of the steps that expressions are lowered with, or data about them, where sequences are
taken as one step as well. -/
structure Evaluated (ctx : LowerContext) (P : (α : Type) → LowerM α → Sort u) : Type (max 1 u) where
  pure {α : Type} (a : α) : P α (pure a)
  throw {α : Type} {e : CompileError} (he : e.Raised) : P α (throw e)
  bind {α β : Type} {x : LowerM α} {f : α → LowerM β} (hx : P α x) (hf : ∀ a, P β (f a)) :
    P β (x >>= f)
  orMissing {α : Type} {x : LowerM α} (name : String) (operands : List DataType) (hx : P α x) :
    P α (orMissing x name operands)
  division (l r : Value) : P TypedValue (floatDivision ctx l r)
  push (ty : Ty) (op : Op) (hop : op.isSimple = true) : P (Option Value) (build (·.push ty op))
  pushValue (ty : Ty) (op : Op) (hop : op.isSimple = true) : P Value (build (·.pushValue ty op))
  buildSequence (elem : DataType) (values : List Value) : P TypedValue (buildSequence elem values)
  internString (text : String) : P Value (internString text)
  signature? (name : String) : P (Option Signature) (signature? name)
  name (name : String) : P TypedValue (lowerExpr ctx (.variable name))

namespace Evaluated

variable {P : (α : Type) → LowerM α → Sort u} {ctx : LowerContext}

def ite {α : Type} {p : Prop} [inst : Decidable p] {Q : LowerM α → Sort u} {x y : LowerM α} (hx : Q x)
    (hy : Q y) : Q (if p then x else y) :=
  match inst with
  | isTrue _ => hx
  | isFalse _ => hy

section Operators

variable (h : Evaluated ctx P)
include h

def call {callee : String} {sig : Signature} {args : List Value} :
    P TypedValue (call callee sig args) := by
  refine h.bind (h.push sig.result.toIr (.call callee args) rfl) fun v => ?_
  cases v with
  | some v => exact h.pure _
  | none => exact h.pure _

def builtin {op : Operator} {ty : DataType} {l r : Value} :
    P TypedValue (builtin ctx op ty l r) := by
  have harith : ∀ (op : BinOp) ty, op ≠ .fdiv → P TypedValue (arith op ty l r) := by
    intro op ty hop
    refine h.bind (h.pushValue op.ty (.binary op l r) ?_) fun _ => h.pure _
    cases op <;> first | rfl | exact absurd rfl hop
  have hicmp : ∀ pred, P TypedValue (icmp pred l r) := fun pred =>
    h.bind (h.pushValue .i1 (.icmp pred l r) rfl) fun _ => h.pure _
  have hfcmp : ∀ pred, P TypedValue (fcmp pred l r) := fun pred =>
    h.bind (h.pushValue .i1 (.fcmp pred l r) rfl) fun _ => h.pure _
  unfold LowerM.builtin
  split
  case h_10 => exact h.division l r
  case h_21 | h_22 => exact h.throw trivial
  case h_1 | h_2 | h_3 | h_4 | h_7 | h_8 | h_9 => exact harith _ _ (by decide)
  case h_11 | h_12 | h_13 | h_14 => exact hfcmp _
  all_goals exact hicmp _

def binary {op : Operator} {lhs rhs : TypedValue} :
    P TypedValue (LowerM.binary ctx op lhs rhs) := by
  have hbuiltin : P TypedValue (builtinBinary ctx op lhs rhs) :=
    ite (h.throw trivial) h.builtin
  refine h.bind (h.signature? _) fun sig? => ?_
  cases sig? with
  | none => exact hbuiltin
  | some sig => exact ite h.call (h.orMissing _ _ hbuiltin)

def unary {op : Char} {operand : TypedValue} : P TypedValue (LowerM.unary op operand) := by
  refine h.bind (h.signature? _) fun sig? => ?_
  cases sig? with
  | none => exact h.throw trivial
  | some sig => exact ite h.call (h.throw trivial)

def elementType {before : Option DataType} {ty : DataType} :
    P DataType (elementType before ty) := by
  refine ite (h.throw trivial) ?_
  cases before with
  | none => exact h.pure _
  | some first => exact ite (h.throw trivial) (h.pure _)

end Operators

mutual

def lowerExpr (h : Evaluated ctx P) : ∀ e, P TypedValue (lowerExpr ctx e)
  | .string _ => by
    simp only [SsaCompiler.lowerExpr]
    exact h.bind (h.internString _) fun _ => h.pure _
  | .number (.int _) => by
    simp only [SsaCompiler.lowerExpr]
    exact h.pure _
  | .number (.float _) => by
    simp only [SsaCompiler.lowerExpr]
    exact h.pure _
  | .bool _ => by
    simp only [SsaCompiler.lowerExpr]
    exact h.pure _
  | .variable name => h.name name
  | .binary op lhs rhs => by
    simp only [SsaCompiler.lowerExpr]
    exact h.bind (lowerExpr h lhs) fun _ => h.bind (lowerExpr h rhs) fun _ => h.binary
  | .unary op operand => by
    simp only [SsaCompiler.lowerExpr]
    exact h.bind (lowerExpr h operand) fun _ => h.unary
  | .call callee args => by
    simp only [SsaCompiler.lowerExpr]
    refine h.bind (h.signature? _) fun sig? => ?_
    cases sig? with
    | none => exact h.throw trivial
    | some sig => exact ite (h.throw trivial) (h.bind (lowerArgs h args _ _) fun _ => h.call)
  | .sequence elements => by
    simp only [SsaCompiler.lowerExpr]
    refine h.bind (lowerElements h elements _) fun p => ?_
    obtain ⟨elem?, values⟩ := p
    cases elem? with
    | none => exact h.throw trivial
    | some elem => exact h.buildSequence elem values

def lowerArgs (h : Evaluated ctx P) {callee : String} : ∀ es place types,
    P (List Value) (lowerArgs ctx callee place es types)
  | [], _, _ => by
    simp only [SsaCompiler.lowerArgs]
    exact h.pure _
  | _ :: _, _, [] => by
    simp only [SsaCompiler.lowerArgs]
    exact h.pure _
  | e :: es, place, ty :: types => by
    simp only [SsaCompiler.lowerArgs]
    exact h.bind (lowerExpr h e) fun _ => ite (h.throw trivial)
      (h.bind (lowerArgs h es _ _) fun _ => h.pure _)

def lowerElements (h : Evaluated ctx P) : ∀ es before,
    P (Option DataType × List Value) (lowerElements ctx before es)
  | [], _ => by
    simp only [SsaCompiler.lowerElements]
    exact h.pure _
  | e :: es, before => by
    simp only [SsaCompiler.lowerElements]
    exact h.bind (lowerExpr h e) fun _ => h.bind h.elementType fun _ =>
      h.bind (lowerElements h es _) fun _ => h.pure _

end

def lowerCondition (h : Evaluated ctx P) (e : Expr) : P Value (lowerCondition ctx e) :=
  h.bind (h.lowerExpr e) fun _ => ite (h.throw trivial) (h.pure _)

end Evaluated

/-- A property of steps that may jump to the blocks of a list and go on in them. Steps of lowering
that are put together have it, and so have those that all lowering has in common. -/
structure Sequenced (ctx : LowerContext) (P : List BlockId → (α : Type) → LowerM α → Prop) : Prop where
  weaken {V W : List BlockId} {α : Type} {x : LowerM α} (hVW : ∀ v ∈ V, v ∈ W) (hx : P V α x) :
    P W α x
  pure {V : List BlockId} {α : Type} (a : α) : P V α (pure a)
  throw {V : List BlockId} {α : Type} {e : CompileError} (he : e.Plain) : P V α (throw e)
  bind {V : List BlockId} {α β : Type} {x : LowerM α} {f : α → LowerM β} (hx : P V α x)
    (hf : ∀ a, P V β (f a)) : P V β (x >>= f)
  orMissing {V : List BlockId} {α : Type} {x : LowerM α} (name : String)
    (operands : List DataType) (hx : P V α x) : P V α (orMissing x name operands)
  division {V : List BlockId} (l r : Value) : P V TypedValue (floatDivision ctx l r)
  terminate {V : List BlockId} (t : Terminator) (ht : ∀ v ∈ t.successors, v ∈ V) :
    P V Unit (emit (·.terminate t))
  appendBlock {V : List BlockId} {α : Type} {f : BlockId → LowerM α} (name : String)
    (hf : ∀ id, P (id :: V) α (f id)) : P V α (appendBlock name >>= f)
  position {V : List BlockId} {id : BlockId} (hid : id ∈ V) : P V Unit (position id)
  continueIn {V : List BlockId} {id : BlockId} (hid : id ∈ V) : P V Unit (continueIn id)
  internString {V : List BlockId} (text : String) : P V Value (internString text)
  signature? {V : List BlockId} (name : String) : P V (Option Signature) (signature? name)
  name {V : List BlockId} (name : String) : P V TypedValue (lowerExpr ctx (.variable name))

/-- A property of steps that sequences and loops have as a whole. -/
structure Composed (ctx : LowerContext) (P : List BlockId → (α : Type) → LowerM α → Prop) : Prop
    extends Sequenced ctx P where
  push {V : List BlockId} (ty : Ty) (op : Op) (hop : op.isSimple = true) :
    P V (Option Value) (build (·.push ty op))
  pushValue {V : List BlockId} (ty : Ty) (op : Op) (hop : op.isSimple = true) :
    P V Value (build (·.pushValue ty op))
  buildSequence {V : List BlockId} (elem : DataType) (values : List Value) :
    P V TypedValue (buildSequence elem values)
  removeBlock {V : List BlockId} {id : BlockId} (hid : id ∈ V) :
    P V Unit (edit (·.removeBlock id))
  inFrame {V : List BlockId} {α : Type} {step : LowerM α} (hstep : P V α step) :
    P V α (inFrame step)
  whileLoop {V : List BlockId} {condition : Expr} {step : LowerM Flow}
    (hcond : ∀ W, P W Value (lowerCondition ctx condition)) (hstep : ∀ W, P W Flow step) :
    P V Flow (lowerWhile ctx condition step)
  forIn {V : List BlockId} {index : Option String} {element : String} {sequence : Expr}
    {body : List Stmt} (hseq : ∀ W, P W TypedValue (lowerExpr ctx sequence))
    (hbody : ∀ W, P W Flow (LowerM.inFrame (lowerStmts ctx body))) :
    P V Flow (lowerStmt ctx (.forIn index element sequence body))

variable {P : List BlockId → (α : Type) → LowerM α → Prop} {ctx : LowerContext} {V : List BlockId}

namespace Sequenced

variable (h : Sequenced ctx P)
include h

theorem br {target : BlockId} (ht : target ∈ V) : P V Unit (br target) :=
  h.terminate (.br target) (by simpa [Terminator.successors] using ht)

theorem condBr (c : Value) {thenTo elseTo : BlockId} (ht : thenTo ∈ V) (he : elseTo ∈ V) :
    P V Unit (condBr c thenTo elseTo) :=
  h.terminate (.condBr c thenTo elseTo) (by simpa [Terminator.successors] using ⟨ht, he⟩)

end Sequenced

namespace Composed

open Evaluated (ite)

def evaluated (h : Composed ctx P) : Evaluated ctx (P V) where
  pure := h.pure
  throw he := h.throw he.plain
  bind := h.bind
  orMissing := h.orMissing
  division := h.division
  push := h.push
  pushValue := h.pushValue
  buildSequence := h.buildSequence
  internString := h.internString
  signature? := h.signature?
  name := h.name

section Statements

variable (h : Composed ctx P)
include h

theorem ret (v : Option Value) : P V Unit (ret v) :=
  h.terminate (.ret v) (by simp [Terminator.successors])

theorem lowerExpr (e : Expr) : P V TypedValue (lowerExpr ctx e) := h.evaluated.lowerExpr e

theorem lowerCondition (e : Expr) : P V Value (lowerCondition ctx e) := h.evaluated.lowerCondition e

theorem branchTo {exit : BlockId} {step : LowerM Flow} (hexit : exit ∈ V) (hstep : P V Flow step) :
    P V Bool (branchTo exit step) := by
  refine h.bind hstep fun flow => ?_
  cases flow with
  | continues => exact h.bind (h.br hexit) fun _ => h.pure _
  | terminated => exact h.pure _

theorem testBlock {α : Type} {elseTo : BlockId} {rest : ElseChain} {f : BlockId → LowerM α}
    (helse : elseTo ∈ V) (hf : ∀ id, P (id :: V) α (f id)) :
    P V α (testBlock elseTo rest >>= f) := by
  unfold LowerM.testBlock
  split
  · exact h.appendBlock _ hf
  · rw [pure_bind]
    exact h.weaken (by simpa using helse) (hf elseTo)

theorem lowerReturn (value : Option Expr) : P V Flow (lowerReturn ctx value) := by
  have hret : ∀ v, P V Flow (do LowerM.ret v; return Flow.terminated) :=
    fun _ => h.bind (h.ret _) fun _ => h.pure _
  cases value with
  | none => exact ite (h.throw trivial) (hret _)
  | some e => exact h.bind (h.lowerExpr e) fun _ => ite (h.throw trivial) (hret _)

end Statements

mutual

theorem lowerStmt (h : Composed ctx P) : ∀ (stmt : Stmt) (V : List BlockId),
    P V Flow (lowerStmt ctx stmt)
  | .expr e, _ => by
    simp only [SsaCompiler.lowerStmt]
    exact h.bind (h.lowerExpr e) fun _ => h.pure _
  | .ret value, _ => by
    simp only [SsaCompiler.lowerStmt]
    exact h.lowerReturn value
  | .branch condition thenBlock rest, _ => by
    simp only [SsaCompiler.lowerStmt]
    refine h.bind (h.lowerCondition condition) fun _ => h.appendBlock _ fun thenTo =>
      h.appendBlock _ fun elseTo => h.appendBlock _ fun exit => h.testBlock (by simp) fun test => ?_
    refine h.bind (h.condBr _ (by simp) (by simp)) fun _ => h.bind (h.position (by simp)) fun _ =>
      h.bind (h.branchTo (by simp) (h.inFrame (lowerStmts h thenBlock _))) fun _ =>
      h.bind (lowerElse h rest _ (by simp) (by simp) (by simp)) fun _ => ?_
    exact ite (h.bind (h.continueIn (by simp)) fun _ => h.pure _)
      (h.bind (h.removeBlock (by simp)) fun _ => h.pure _)
  | .whileLoop condition body, _ => by
    simp only [SsaCompiler.lowerStmt]
    exact h.whileLoop (fun _ => h.lowerCondition condition)
      fun W => h.inFrame (lowerStmts h body W)
  | .forIn index element sequence body, _ =>
    h.forIn (fun _ => h.lowerExpr sequence) fun W => h.inFrame (lowerStmts h body W)

theorem lowerStmts (h : Composed ctx P) : ∀ (stmts : List Stmt) (V : List BlockId),
    P V Flow (lowerStmts ctx stmts)
  | [], _ => by
    simp only [SsaCompiler.lowerStmts]
    exact h.pure _
  | stmt :: stmts, _ => by
    simp only [SsaCompiler.lowerStmts]
    refine h.bind (lowerStmt h stmt _) fun flow => ?_
    cases flow with
    | terminated => exact h.pure _
    | continues => exact lowerStmts h stmts _

theorem lowerElse (h : Composed ctx P) {elseTo exit test : BlockId} : ∀ (rest : ElseChain)
    (V : List BlockId), elseTo ∈ V → exit ∈ V → test ∈ V →
      P V Bool (lowerElse ctx elseTo exit test rest)
  | .none, _, helse, hexit, _ => by
    simp only [SsaCompiler.lowerElse]
    exact h.bind (h.continueIn helse) fun _ => h.bind (h.br hexit) fun _ => h.pure _
  | .otherwise block, _, helse, hexit, _ => by
    simp only [SsaCompiler.lowerElse]
    exact h.bind (h.continueIn helse) fun _ => h.branchTo hexit (h.inFrame (lowerStmts h block _))
  | .elseIf condition block rest, _, helse, hexit, htest => by
    simp only [SsaCompiler.lowerElse]
    refine h.bind (h.continueIn htest) fun _ => h.bind (h.lowerCondition condition) fun _ =>
      h.appendBlock _ fun thenTo => h.testBlock (by simp [helse]) fun next => ?_
    exact h.bind (h.condBr _ (by simp) (by simp)) fun _ => h.bind (h.position (by simp)) fun _ =>
      h.bind (h.branchTo (by simp [hexit]) (h.inFrame (lowerStmts h block _))) fun _ =>
      h.bind (lowerElse h rest _ (by simp [helse]) (by simp [hexit]) (by simp)) fun _ => h.pure _

end

theorem lowerBody (h : Composed ctx P) (body : List Stmt) : P V Unit (lowerBody ctx body) := by
  refine h.bind (h.inFrame (h.lowerStmts body V)) fun flow => ?_
  cases flow with
  | continues => exact ite (h.ret none) (h.pure _)
  | terminated => exact h.pure _

end Composed

/-- A property of steps that may jump to the blocks of a list. The elementary steps of lowering have
it, and steps put together of others inherit it. -/
structure Traversed (ctx : LowerContext) (P : List BlockId → (α : Type) → LowerM α → Prop) : Prop
    extends Sequenced ctx P where
  push {V : List BlockId} (ty : Ty) (op : Op) (hop : op.isDivision = false)
    (hplain : op.isPlain = true) : P V (Option Value) (build (·.push ty op))
  pushValue {V : List BlockId} (ty : Ty) (op : Op) (hop : op.isDivision = false)
    (hplain : op.isPlain = true) : P V Value (build (·.pushValue ty op))
  phi {V : List BlockId} (ty : Ty) (incoming : List (Value × BlockId)) :
    P V Value (build (·.phi ty incoming))
  alloca {V : List BlockId} (ty : Ty) : P V Value (build (·.alloca ty))
  store {V : List BlockId} (value ptr : Value) : P V Unit (emit (·.store value ptr))
  addIncoming {V : List BlockId} (phi value : Value) (source : BlockId) :
    P V Unit (edit (·.addIncoming phi value source))
  removeBlocks {V : List BlockId} {ids : List BlockId} (hids : ∀ id ∈ ids, id ∈ V) :
    P V Unit (edit fun b => ids.foldl Builder.removeBlock b)
  inFrame {V : List BlockId} {α : Type} {step : LowerM α} {f : Scope → Scope}
    (hf : ∀ scope, (f scope).outer = scope.outer) (hstep : P V α step) :
    P V α (inFrame do editScope f; step)
  currentBlock {V : List BlockId} : P V BlockId currentBlock

/-- A step in a frame, if the frame makes no difference. -/
theorem framed_of_editScope {P : (α : Type) → LowerM α → Prop} {α : Type} {step : LowerM α}
    {names : Scope → Scope} (hpure : ∀ {α : Type} (a : α), P α (pure a))
    (hbind : ∀ {α β : Type} {x : LowerM α} {f : α → LowerM β}, P α x → (∀ a, P β (f a)) →
      P β (x >>= f))
    (hedit : ∀ f, P Unit (editScope f)) (hstep : P α step) :
    P α (inFrame do editScope names; step) :=
  hbind (hedit _) fun _ => hbind (hbind (hedit _) fun _ => hstep) fun _ =>
    hbind (hedit _) fun _ => hpure _

namespace Traversed

section Loops

variable (h : Traversed ctx P)
include h

theorem elementPtr (elem : Ty) (base index : Value) :
    P V Value (build (·.elementPtr elem base index)) :=
  h.pushValue (.ptr elem) (.elementPtr base index) rfl rfl

theorem load (ty : Ty) (ptr : Value) : P V Value (build (·.load ty ptr)) :=
  h.pushValue ty (.load ptr) rfl rfl

theorem nextCount (counter : Value) : P V Value (build (·.binary .add counter (.int 1))) :=
  h.pushValue .i64 (.binary .add counter (.int 1)) rfl rfl

theorem storeElements {elem : Ty} {array : Value} {i : Nat} {vs : List Value} :
    P V Unit (storeElements elem array i vs) := by
  induction vs generalizing i with
  | nil => exact h.pure _
  | cons v vs ih => exact h.bind (h.elementPtr ..) fun _ => h.bind (h.store v _) fun _ => ih

theorem closeLoop {header : BlockId} {counter : Value} {flow : Flow} (hheader : header ∈ V) :
    P V Unit (closeLoop header counter flow) := by
  cases flow with
  | continues =>
    exact h.bind h.currentBlock fun _ => h.bind (h.nextCount counter) fun _ =>
      h.bind (h.addIncoming ..) fun _ => h.br hheader
  | terminated => exact h.pure _

theorem lowerWhile {step : LowerM Flow} {condition : Expr}
    (hcond : ∀ V, P V Value (lowerCondition ctx condition)) (hstep : ∀ V, P V Flow step) :
    P V Flow (lowerWhile ctx condition step) := by
  refine h.bind h.currentBlock fun _ => h.appendBlock _ fun header =>
    h.appendBlock _ fun inside => h.appendBlock _ fun exit => ?_
  refine h.bind (h.br (by simp)) fun _ => h.bind (h.position (by simp)) fun _ =>
    h.bind (h.phi ..) fun _ => h.bind (hcond _) fun _ =>
    h.bind (h.condBr _ (by simp) (by simp)) fun _ => h.bind (h.position (by simp)) fun _ => ?_
  exact h.bind (hstep _) fun _ => h.bind (h.closeLoop (by simp)) fun _ =>
    h.bind (h.continueIn (by simp)) fun _ => h.pure _

theorem lowerForIn {step : LowerM Flow} {index : Option String} {element : String}
    {sequence : Value} {elem : DataType} {len : Nat} (hstep : ∀ V, P V Flow step) :
    P V Flow (lowerForIn index element sequence elem len step) := by
  have hframe : ∀ V counter tv, P V Flow (LowerM.inFrame do
      bindIndex counter index; LowerM.bind element tv; step) := by
    intro V counter tv
    cases index with
    | none => exact h.inFrame (f := (·.bind element tv)) (fun _ => rfl) (hstep V)
    | some name =>
      exact h.inFrame (f := fun scope => (scope.bind name ⟨counter, .int⟩).bind element tv)
        (fun _ => rfl) (hstep V)
  refine h.bind (h.alloca _) fun _ => h.bind (h.elementPtr ..) fun _ => h.bind (h.load ..) fun _ =>
    h.bind (h.store ..) fun _ => h.bind h.currentBlock fun _ => ?_
  refine h.appendBlock _ fun header => h.appendBlock _ fun step => h.appendBlock _ fun exit => ?_
  refine h.bind (h.br (by simp)) fun _ => h.bind (h.position (by simp)) fun _ =>
    h.bind (h.phi ..) fun _ => h.bind (h.load ..) fun _ => ?_
  refine h.bind (hframe _ _ _) fun flow => ?_
  cases flow with
  | terminated =>
    have hids : ∀ id ∈ [step, exit], id ∈ exit :: step :: header :: V := by simp
    exact h.bind (h.removeBlocks hids) fun _ => h.pure _
  | continues =>
    refine h.bind (h.nextCount _) fun next =>
      h.bind (h.pushValue .i1 (.icmp .slt next (.int (Int64.ofNat len))) rfl rfl) fun _ =>
      h.bind (h.condBr _ (by simp) (by simp)) fun _ => h.bind (h.continueIn (by simp)) fun _ => ?_
    exact h.bind (h.elementPtr ..) fun _ => h.bind (h.load ..) fun _ => h.bind (h.store ..) fun _ =>
      h.bind (h.addIncoming ..) fun _ => h.bind (h.br (by simp)) fun _ =>
      h.bind (h.continueIn (by simp)) fun _ => h.pure _

/-- What the elementary steps have, sequences and loops have. -/
theorem composed : Composed ctx P where
  toSequenced := h.toSequenced
  push ty op hop := h.push ty op (not_isDivision_of_isSimple hop) (isPlain_of_isSimple hop)
  pushValue ty op hop :=
    h.pushValue ty op (not_isDivision_of_isSimple hop) (isPlain_of_isSimple hop)
  buildSequence _ _ := h.bind (h.alloca _) fun _ => h.bind h.storeElements fun _ => h.pure _
  removeBlock {_ id} hid := h.removeBlocks (List.forall_mem_singleton.mpr hid)
  inFrame hstep := h.inFrame (f := id) (fun _ => rfl) hstep
  whileLoop := h.lowerWhile
  forIn hseq hbody := by
    simp only [lowerStmt]
    refine h.bind (hseq _) fun v => ?_
    cases v.type with
    | sequence elem len => exact Evaluated.ite (h.pure _) (h.lowerForIn hbody)
    | _ => exact h.throw trivial

end Loops

end Traversed

end SsaCompiler
