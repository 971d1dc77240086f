import SsaCompiler.Proofs.Building.Typing
import SsaCompiler.Proofs.Lowering.Traversal

/-!
What lowering does whether it fails or not. A property of steps that all changes of the function
under construction have, and that sequences of steps inherit, is a property of lowering as a whole.
In this way: strings and routines are added to the module, its functions stay as they are, and no
error is one of the verifier.
-/
namespace SsaCompiler

section Steps

variable {ε σ α β : Type} {I : σ → Prop} {E : ε → Prop}

/-- The step keeps `I`, whether it fails or not, and fails with errors of `E` only. -/
def Keeps (I : σ → Prop) (E : ε → Prop) (x : ExceptT ε (StateM σ) α) : Prop :=
  ∀ s, I s → I (x.run.run s).2 ∧ ∀ e, (x.run.run s).1 = .error e → E e

theorem keeps_pure (a : α) : Keeps I E (pure a : ExceptT ε (StateM σ) α) :=
  fun _ h => ⟨h, fun _ he => nomatch he⟩

theorem keeps_throw {e : ε} (he : E e) : Keeps I E (throw e : ExceptT ε (StateM σ) α) := by
  intro s hs
  refine ⟨hs, fun e' heq => ?_⟩
  cases heq
  exact he

theorem keeps_get : Keeps I E (get : ExceptT ε (StateM σ) σ) :=
  fun _ h => ⟨h, fun _ he => nomatch he⟩

theorem keeps_modify {f : σ → σ} (hf : ∀ s, I s → I (f s)) :
    Keeps I E (modify f : ExceptT ε (StateM σ) Unit) :=
  fun s h => ⟨hf s h, fun _ he => nomatch he⟩

theorem Keeps.bind {x : ExceptT ε (StateM σ) α} {f : α → ExceptT ε (StateM σ) β}
    (hx : Keeps I E x) (hf : ∀ a, Keeps I E (f a)) : Keeps I E (x >>= f) := by
  intro s hs
  obtain ⟨hs1, herror⟩ := hx s hs
  obtain ⟨⟨r, s1⟩, hrun⟩ : ∃ p, x.run.run s = p := ⟨_, rfl⟩
  rw [hrun] at hs1 herror
  cases r with
  | ok a =>
    rw [run_bind_ok hrun]
    exact hf a s1 hs1
  | error e =>
    rw [run_bind_error hrun]
    exact ⟨hs1, fun e' he => herror e' (by simpa using he)⟩

theorem Keeps.tryCatch {x : ExceptT ε (StateM σ) α} {handler : ε → ExceptT ε (StateM σ) α}
    (hx : Keeps I E x) (hhandler : ∀ e, E e → Keeps I E (handler e)) :
    Keeps I E (tryCatch x handler) := by
  intro s hs
  obtain ⟨hs1, herror⟩ := hx s hs
  obtain ⟨⟨r, s1⟩, hrun⟩ : ∃ p, x.run.run s = p := ⟨_, rfl⟩
  rw [hrun] at hs1 herror
  cases r with
  | ok a =>
    rw [run_tryCatch_ok hrun]
    exact ⟨hs1, fun _ he => nomatch he⟩
  | error e =>
    rw [run_tryCatch_error hrun]
    exact hhandler e (herror e rfl) s1 hs1

theorem Keeps.ite {p : Prop} [Decidable p] {x y : ExceptT ε (StateM σ) α} (hx : Keeps I E x)
    (hy : Keeps I E y) : Keeps I E (if p then x else y) := by
  split
  · exact hx
  · exact hy

end Steps

open Ir LowerM

/-- A property of steps that does not depend on how the function under construction is changed, and
that steps put together of others inherit. -/
structure Inherited (P : (α : Type) → LowerM α → Prop) : Prop where
  pure {α : Type} (a : α) : P α (pure a)
  throw {α : Type} {e : CompileError} (he : e.Plain) : P α (throw e)
  bind {α β : Type} {x : LowerM α} {f : α → LowerM β} (hx : P α x) (hf : ∀ a, P β (f a)) :
    P β (x >>= f)
  orMissing {α : Type} {x : LowerM α} (name : String) (operands : List DataType) (hx : P α x) :
    P α (orMissing x name operands)
  build {α : Type} (f : Builder → Except BuildError (α × Builder)) : P α (build f)
  inFrame {α : Type} {step : LowerM α} {f : Scope → Scope}
    (hf : ∀ scope, (f scope).outer = scope.outer) (hstep : P α step) :
    P α (inFrame do editScope f; step)
  internString (text : String) : P Value (internString text)
  declareRoutine (r : Routine) : P Unit (declareRoutine r)
  signature? (name : String) : P (Option Signature) (signature? name)
  name (ctx : LowerContext) (name : String) : P TypedValue (lowerExpr ctx (.variable name))

namespace Inherited

variable {P : (α : Type) → LowerM α → Prop} {ctx : LowerContext}

theorem edit (h : Inherited P) (f : Builder → Builder) : P Unit (edit f) :=
  h.build fun b => .ok ((), f b)

theorem currentBlock (h : Inherited P) : P BlockId currentBlock :=
  h.build fun b => .ok (b.current, b)

theorem floatDivision (h : Inherited P) (l r : Value) : P TypedValue (floatDivision ctx l r) := by
  have hemit : ∀ f, P Unit (emit f) := fun _ => h.build _
  unfold LowerM.floatDivision
  split
  · exact h.bind (h.build _) fun _ => h.pure _
  · refine h.bind (h.internString _) fun _ => h.bind (h.declareRoutine _) fun _ =>
      h.bind (h.declareRoutine _) fun _ => h.bind (h.build _) fun _ => h.bind (h.build _) fun _ =>
      h.bind (h.build _) fun _ => h.bind (h.build _) fun _ => h.bind (hemit _) fun _ => ?_
    refine h.bind (h.edit _) fun _ => h.bind (h.build _) fun _ => h.bind (h.build _) fun _ =>
      h.bind (hemit _) fun _ => ?_
    exact h.bind (h.edit _) fun _ => h.bind (h.build _) fun _ => h.bind (hemit _) fun _ =>
      h.bind (h.edit _) fun _ => h.bind (h.build _) fun _ => h.pure _

/-- The blocks that a step may jump to make no difference. -/
theorem traversed (h : Inherited P) (ctx : LowerContext) : Traversed ctx fun _ => P where
  weaken _ hx := hx
  pure := h.pure
  throw := h.throw
  bind := h.bind
  orMissing := h.orMissing
  push _ _ _ _ := h.build _
  pushValue _ _ _ _ := h.build _
  phi _ _ := h.build _
  alloca _ := h.build _
  store _ _ := h.build _
  division := h.floatDivision
  terminate _ _ := h.build _
  appendBlock name hf := h.bind (h.build fun b => .ok (b.appendBlock name)) hf
  position _ := h.edit _
  continueIn _ := h.edit _
  addIncoming _ _ _ := h.edit _
  removeBlocks _ := h.edit _
  inFrame := h.inFrame
  internString := h.internString
  currentBlock := h.currentBlock
  signature? := h.signature?
  name := h.name ctx

theorem lowerStmt (h : Inherited P) (stmt : Stmt) : P Flow (lowerStmt ctx stmt) :=
  (h.traversed ctx).composed.lowerStmt stmt []

theorem lowerBody (h : Inherited P) (body : List Stmt) : P Unit (lowerBody ctx body) :=
  (h.traversed ctx).composed.lowerBody (V := []) body

end Inherited

/-- Where the step succeeds, `R` relates the states before and after it. -/
def Relating (R : Lowering → Lowering → Prop) {α : Type} (x : LowerM α) : Prop :=
  ∀ ⦃s a s'⦄, Yields x s a s' → R s s'

/-- What is related whatever is built, and still is when a frame is closed, lowering relates. -/
theorem inherited_relating {R : Lowering → Lowering → Prop} (hrefl : ∀ s, R s s)
    (htrans : ∀ {s s' s''}, R s s' → R s' s'' → R s s'')
    (hbuilder : ∀ s b, R s { s with builder? := some b })
    (hstring : ∀ s text, R s { s with module := (s.module.internString text).2 })
    (hroutine : ∀ s r, R s { s with module := s.module.declareRoutine r })
    (hframe : ∀ {s s' : Lowering} {names : Scope → Scope},
      (∀ scope, (names scope).outer = scope.outer) →
      R { s with scope := names s.scope.push } s' → R s { s' with scope := s'.scope.pop }) :
    Inherited fun _ x => Relating R x where
  pure a s a' s' h := (yields_pure.mp h).2 ▸ hrefl s
  throw _ s a s' h := (not_yields_throw h).elim
  bind hx hf s b s' h := by
    obtain ⟨a, s1, h1, h2⟩ := yields_bind.mp h
    exact htrans (hx h1) (hf a h2)
  orMissing name operands hx s a s' h := hx (yields_orMissing.mp h)
  build f s a s' h := by
    obtain ⟨b, -, rfl⟩ := of_yields_build h
    exact hbuilder s b
  inFrame {_ _ names} hnames hstep s a s' h := by
    obtain ⟨s1, h1, rfl⟩ := yields_inFrame.mp h
    obtain ⟨_, _, h0, h1⟩ := yields_bind.mp h1
    rw [yields_editScope.mp h0] at h1
    exact hframe hnames (hstep h1)
  internString text s a s' h := (yields_internString.mp h).2 ▸ hstring s text
  declareRoutine r s a s' h := yields_declareRoutine.mp h ▸ hroutine s r
  signature? name s a s' h := (yields_signature?.mp h).2 ▸ hrefl s
  name ctx name s a s' h := state_of_yields_variable h ▸ hrefl s

section States

variable {I : Lowering → Prop}

theorem keeps_build {α : Type} (hbuilder : ∀ s b, I s → I { s with builder? := some b })
    (f : Builder → Except BuildError (α × Builder)) : Keeps I CompileError.Plain (build f) := by
  intro s hs
  cases hsome : s.builder? with
  | none =>
    rw [run_build_none hsome]
    exact ⟨hs, fun _ he => Except.error.inj he ▸ trivial⟩
  | some b =>
    rw [run_build hsome]
    cases f b with
    | ok p => exact ⟨hbuilder s p.2 hs, fun _ he => nomatch he⟩
    | error e => exact ⟨hs, fun _ he => Except.error.inj he ▸ trivial⟩

/-- What building, names, and strings and routines that are added to the module leave true, lowering
leaves true. -/
theorem inherited_keeps (hbuilder : ∀ s b, I s → I { s with builder? := some b })
    (hscope : ∀ s names, I s → I { s with scope := names })
    (hstring : ∀ s text, I s → I { s with module := (s.module.internString text).2 })
    (hroutine : ∀ s r, I s → I { s with module := s.module.declareRoutine r }) :
    Inherited fun _ x => Keeps I CompileError.Plain x where
  pure := keeps_pure
  throw := keeps_throw
  bind := .bind
  orMissing name operands hx := by
    refine .tryCatch hx fun e he => ?_
    cases e with
    | mismatch e => exact keeps_throw trivial
    | _ => exact keeps_throw he
  build := keeps_build hbuilder
  inFrame _ := framed_of_editScope keeps_pure .bind fun f => keeps_modify fun s h => hscope s _ h
  internString text s h := ⟨hstring s text h, fun _ he => nomatch he⟩
  declareRoutine r := keeps_modify fun s h => hroutine s r h
  signature? name := .bind keeps_get fun _ => keeps_pure _
  name ctx name := by
    simp only [lowerExpr]
    refine .bind keeps_get fun s => ?_
    cases s.scope.lookup? name with
    | some v => exact keeps_pure _
    | none => exact keeps_throw trivial

end States

/-- While statements are lowered, there is always a function under construction. -/
theorem inherited_present : Inherited fun _ x =>
    Keeps (fun s : Lowering => s.builder?.isSome = true) CompileError.Plain x :=
  inherited_keeps (fun _ _ _ => rfl) (fun _ _ h => h) (fun _ _ h => h) fun _ _ h => h

theorem builder?_of_run {α : Type} {x : LowerM α} {s s' : Lowering} {r : Except CompileError α}
    (hx : ∀ {P : (α : Type) → LowerM α → Prop}, Inherited P → P α x) (hs : s.builder?.isSome = true)
    (hrun : x.run.run s = (r, s')) : s'.builder? = some s'.builder := by
  have hpresent := (hx inherited_present s hs).1
  rw [hrun] at hpresent
  exact Lowering.builder?_eq hpresent

/-- The step adds to the module `m`, whether it fails or not, and its errors are plain. -/
def Adds {α : Type} (m : Module) (x : LowerM α) : Prop :=
  Keeps (fun s => m.Grows s.module) CompileError.Plain x

theorem inherited_adds (m : Module) : Inherited fun _ x => Adds m x :=
  inherited_keeps (fun _ _ h => h) (fun _ _ h => h)
    (fun s text h => h.trans (s.module.grows_internString text))
    fun s r h => h.trans (s.module.grows_declareRoutine r)

theorem adds_lowerStmt {m : Module} {ctx : LowerContext} (stmt : Stmt) :
    Adds m (lowerStmt ctx stmt) := (inherited_adds m).lowerStmt stmt

theorem adds_lowerBody {m : Module} {ctx : LowerContext} (body : List Stmt) :
    Adds m (lowerBody ctx body) := (inherited_adds m).lowerBody body

end SsaCompiler
