import SsaCompiler.Proofs.Building.Assembly
import SsaCompiler.Proofs.Lowering.Safety

/-!
Where code is emitted while statements are lowered. Every statement reports whether control goes on
behind it, and those around it rely on the report: no code is emitted into a block that has ended.
Loops and branches append their blocks before they are filled; until then these take code.
-/
namespace SsaCompiler

open Ir LowerM

section Statements

variable {ctx : LowerContext} {α : Type} {report : α → Flow} {x : LowerM α} {body : LowerM Flow}
  {b b0 : Builder} {k : Demands} {T : List BlockId} {elseTo exit thenTo test : BlockId}

theorem Safe.ite {p : Prop} [inst : Decidable p] {x y : LowerM α} {t : Script x} {u : Script y}
    {Q : α → Builder → Prop} (ht : Safe k t b Q) (hu : Safe k u b Q) :
    Safe k (Evaluated.ite (Q := Script) t u : Script (if p then x else y)) b Q := by
  cases inst with
  | isTrue _ => exact ht
  | isFalse _ => exact hu

/-- The steps that an expression is lowered with. -/
def exprScript (ctx : LowerContext) (e : Expr) : Script (lowerExpr ctx e) :=
  (Straight.evaluated.lowerExpr e).script

theorem secure_expr (e : Expr) : Secure (fun _ => .continues) (exprScript ctx e) :=
  (Straight.evaluated.lowerExpr e).secure

def conditionScript (ctx : LowerContext) (e : Expr) : Script (lowerCondition ctx e) :=
  (Straight.evaluated.lowerCondition e).script

theorem secure_condition (e : Expr) : Secure (fun _ => .continues) (conditionScript ctx e) :=
  (Straight.evaluated.lowerCondition e).secure

theorem Secure.inFrame {t : Script x} (ht : Secure report t) : Secure report t.inFrame := by
  intro k b h
  have hedit : ∀ {g b}, Safe k (.editScope g) b fun _ b' => b' = b :=
    .still (fun _ => trivial) (fun _ => ⟨_, _, rfl, rfl⟩) fun _ => rfl
  refine hedit.bind fun _ _ hb => ?_
  subst hb
  -- The frame is left wherever the step has ended, also in a block with a terminator.
  refine (ht k _ h).bind fun a b1 h1 => hedit.bind fun _ _ hb => ?_
  exact .pure (hb ▸ h1)

def returnScript (ctx : LowerContext) : ∀ value, Script (lowerReturn ctx value)
  | none => Evaluated.ite (Q := Script) (.throw _) (.bind (.emit _) fun _ => .pure _)
  | some e => .bind (exprScript ctx e) fun _ =>
      Evaluated.ite (Q := Script) (.throw _) (.bind (.emit _) fun _ => .pure _)

theorem secure_return (value : Option Expr) : Secure id (returnScript ctx value) := by
  intro k b hb
  cases value with
  | none =>
    refine .ite (.throw hb trivial) ?_
    exact (hb.start.leave _).bind fun _ b' h' => .pure h'
  | some e =>
    refine (secure_expr e k b hb).bind fun v b1 h1 => ?_
    refine .ite (.throw h1.working trivial) ?_
    exact (h1.leave _).bind fun _ b' h' => .pure h'

def branchScript (t : Script body) (exit : BlockId) : Script (branchTo exit body) :=
  .bind t fun
    | .continues => .bind (.emit _) fun _ => .pure _
    | .terminated => .pure _

/-- However a branch ends, no code comes behind it. -/
theorem Secure.branchTo {t : Script body} (ht : Secure id t) (exit : BlockId) :
    Secure (fun _ => .terminated) (branchScript t exit) := by
  intro k b hb
  refine (ht k b hb).bind fun flow b1 h1 => ?_
  cases flow with
  | continues => exact (h1.leave _).bind fun _ b' h' => .pure h'
  | terminated => exact .pure h1

/-- The steps that lead back to the header of a loop. -/
def closeScript (header : BlockId) (counter : Value) : ∀ flow, Script (closeLoop header counter flow)
  | .continues => .bind Straight.currentBlock.script fun _ => .bind (.emits _) fun _ =>
      .bind (.edit (.addIncoming _ _ _)) fun _ => .emit _
  | .terminated => .pure ()

theorem Ir.Builder.Reaches.closeLoop {header : BlockId} {counter : Value} {flow : Flow}
    (h : b0.Reaches k T flow b) :
    Safe k (closeScript header counter flow) b fun _ b' => b0.Reaches k T .terminated b' := by
  cases flow with
  | continues =>
    refine (Straight.currentBlock.secure.after h).bind fun source b1 h1 => ?_
    refine (h1.value _ rfl).bind fun next b2 h2 => ?_
    refine (h2.addIncoming _ _ _).bind fun _ b3 h3 => ?_
    exact h3.leave _
  | terminated => exact .pure h

def whileScript (ctx : LowerContext) (condition : Expr) (t : Script body) :
    Script (lowerWhile ctx condition body) :=
  .bind Straight.currentBlock.script fun _ => .bind (.appendBlock _) fun header =>
    .bind (.appendBlock _) fun _ => .bind (.appendBlock _) fun _ => .bind (.emit _) fun _ =>
    .bind (.edit (.position _)) fun _ => .bind (.emits _) fun counter =>
    .bind (conditionScript ctx condition) fun _ => .bind (.emit _) fun _ =>
    .bind (.edit (.position _)) fun _ => .bind t fun flow =>
    .bind (closeScript header counter flow) fun _ => .bind (.edit (.continueIn _)) fun _ => .pure _

/-- A loop ends in a new block. -/
theorem Secure.lowerWhile {t : Script body} (ht : Secure id t) (condition : Expr) :
    Secure id (whileScript ctx condition t) := by
  intro k b hb
  refine (Straight.currentBlock.secure k b hb).bind fun preheader b1 h1 => ?_
  refine h1.working.threeBlocks fun b0 ho => ?_
  have hbelow := ho.below
  refine (ho.start.leave _).bind fun _ b2 h2 => ?_
  refine (ho.turn h2.toSpares 0 (by decide) (by grind)).bind fun _ b3 h3 => ?_
  refine (h3.phi _ _).bind fun counter b4 h4 => ?_
  refine ((secure_condition condition).after h4).bind fun cond b5 h5 => ?_
  refine (h5.leave _).bind fun _ b6 h6 => ?_
  refine (ho.turn h6.toSpares 1 (by decide) (by grind)).bind fun _ b7 h7 => ?_
  refine (ht.after h7).bind fun flow b8 h8 => ?_
  refine h8.closeLoop.bind fun _ b9 h9 => ?_
  refine (ho.resume h9.toSpares 2 (by decide) (by decide) (by grind)).bind fun _ b' h' => ?_
  exact .pure (h1.onward (ho.close h' (by simp)))

/-- The steps that run a body in a frame with an index and an element. -/
def boundScript (index : Option String) (element : String) (counter current : Value) (elem : DataType)
    (t : Script body) : Script (inFrame do
      bindIndex counter index
      LowerM.bind element ⟨current, elem⟩
      body) :=
  .inFrame <| .bind (match index with
    | some name => .editScope (·.bind name ⟨counter, .int⟩)
    | none => .pure ()) fun _ => .bind (.editScope _) fun _ => t

def forInScript (index : Option String) (element : String) (sequence : Value) (elem : DataType)
    (len : Nat) (t : Script body) : Script (lowerForIn index element sequence elem len body) :=
  .bind (.alloca _) fun _ => .bind (.emits _) fun _ => .bind (.emits _) fun _ =>
    .bind (.emit _) fun _ => .bind Straight.currentBlock.script fun _ =>
    .bind (.appendBlock _) fun _ => .bind (.appendBlock _) fun step =>
    .bind (.appendBlock _) fun exit => .bind (.emit _) fun _ => .bind (.edit (.position _)) fun _ =>
    .bind (.emits _) fun counter => .bind (.emits _) fun current =>
    .bind (boundScript index element counter current elem t) fun
    | .terminated => .bind (.edit (.comp (.removeBlock step) (.removeBlock exit))) fun _ => .pure _
    | .continues => .bind (.emits _) fun _ => .bind (.emits _) fun _ => .bind (.emit _) fun _ =>
      .bind (.edit (.continueIn _)) fun _ => .bind (.emits _) fun _ => .bind (.emits _) fun _ =>
      .bind (.emit _) fun _ => .bind (.edit (.addIncoming _ _ _)) fun _ => .bind (.emit _) fun _ =>
      .bind (.edit (.continueIn _)) fun _ => .pure _

theorem Secure.bound {t : Script body} (ht : Secure id t) (index : Option String) (element : String)
    (counter current : Value) (elem : DataType) :
    Secure id (boundScript index element counter current elem t) := by
  refine Secure.inFrame fun k b hb => ?_
  cases index with
  | some name =>
    refine ((Straight.editScope _).secure k b hb).bind fun _ b1 h1 => ?_
    refine ((Straight.editScope _).secure.after h1).bind fun _ b2 h2 => ?_
    exact ht.after h2
  | none =>
    refine ((Straight.pure ()).secure k b hb).bind fun _ b1 h1 => ?_
    refine ((Straight.editScope _).secure.after h1).bind fun _ b2 h2 => ?_
    exact ht.after h2

/-- A loop over a sequence ends in a new block, or in its body. The blocks that are removed then are not
current. -/
theorem Secure.lowerForIn {t : Script body} (ht : Secure id t) (index : Option String)
    (element : String) (sequence : Value) (elem : DataType) (len : Nat) :
    Secure id (forInScript index element sequence elem len t) := by
  intro k b hb
  refine (hb.start.alloca _).bind fun slot b1 h1 => ?_
  refine (h1.value _ rfl).bind fun ptr b2 h2 => ?_
  refine (h2.value _ rfl).bind fun first b3 h3 => ?_
  refine (h3.store _ _).bind fun _ b4 h4 => ?_
  refine (Straight.currentBlock.secure.after h4).bind fun preheader b5 h5 => ?_
  refine h5.working.threeBlocks fun b0 ho => ?_
  have hbelow := ho.below
  refine (ho.start.leave _).bind fun _ b6 h6 => ?_
  refine (ho.turn h6.toSpares 0 (by decide) (by grind)).bind fun _ b7 h7 => ?_
  refine (h7.phi _ _).bind fun counter b8 h8 => ?_
  refine (h8.value _ rfl).bind fun current b9 h9 => ?_
  refine ((ht.bound index element counter current elem).after h9).bind fun flow c hc => ?_
  cases flow with
  | terminated =>
    -- The body has ended in the header or in a block that is newer than those that go.
    have hcur := hc.moved
    rw [ho.next] at hcur
    have hne : c.current ≠ b5.body.nextBlock + 1 ∧ c.current ≠ b5.body.nextBlock + 2 := by grind
    have hnew := (ho.close hc (by simp)).removeBlock (by simp) (by simp) hne.1
    refine (Safe.edit (hnew.removeBlock (by simp) (by simp) hne.2)).bind fun _ b' h' => ?_
    exact .pure (h5.onward h')
  | continues =>
    refine (hc.value _ rfl).bind fun next c1 hc1 => ?_
    refine (hc1.value _ rfl).bind fun more c2 hc2 => ?_
    refine (hc2.leave _).bind fun _ c3 hc3 => ?_
    refine (ho.resume hc3.toSpares 1 (by decide) (by decide) (by grind)).bind fun _ c4 hc4 => ?_
    refine (hc4.value _ rfl).bind fun ptr c5 hc5 => ?_
    refine (hc5.value _ rfl).bind fun value c6 hc6 => ?_
    refine (hc6.store _ _).bind fun _ c7 hc7 => ?_
    refine (hc7.addIncoming _ _ _).bind fun _ c8 hc8 => ?_
    refine (hc8.leave _).bind fun _ c9 hc9 => ?_
    refine (ho.resume hc9.toSpares 2 (by decide) (by decide) (by grind)).bind fun _ b' h' => ?_
    exact .pure (h5.onward (ho.close h' (by simp)))

/-- The steps that make the block for the next condition. -/
def testScript (elseTo : BlockId) : ∀ rest, Script (testBlock elseTo rest)
  | .elseIf .. => .appendBlock _
  | .none | .otherwise _ => .pure _

mutual

/-- The steps that a statement is lowered with. -/
def stmtScript (ctx : LowerContext) : ∀ stmt, Script (lowerStmt ctx stmt)
  | .expr e => .bind (exprScript ctx e) fun _ => .pure _
  | .ret value => returnScript ctx value
  | .branch condition thenBlock rest =>
    .bind (conditionScript ctx condition) fun _ => .bind (.appendBlock _) fun _ =>
      .bind (.appendBlock _) fun elseTo => .bind (.appendBlock _) fun exit =>
      .bind (testScript elseTo rest) fun test => .bind (.emit _) fun _ =>
      .bind (.edit (.position _)) fun _ =>
      .bind (branchScript (stmtsScript ctx thenBlock).inFrame exit) fun _ =>
      .bind (elseScript ctx elseTo exit test rest) fun _ =>
      Evaluated.ite (Q := Script) (.bind (.edit (.continueIn exit)) fun _ => .pure _)
        (.bind (.edit (.removeBlock exit)) fun _ => .pure _)
  | .whileLoop condition body => whileScript ctx condition (stmtsScript ctx body).inFrame
  | .forIn index element sequence body => .bind (exprScript ctx sequence) fun
    | ⟨_, .sequence _ _⟩ => Evaluated.ite (Q := Script) (.pure _)
        (forInScript index element _ _ _ (stmtsScript ctx body).inFrame)
    | ⟨_, .int⟩ | ⟨_, .float⟩ | ⟨_, .bool⟩ | ⟨_, .string⟩ | ⟨_, .void⟩ => .throw _

def stmtsScript (ctx : LowerContext) : ∀ stmts, Script (lowerStmts ctx stmts)
  | [] => .pure _
  | stmt :: stmts => .bind (stmtScript ctx stmt) fun
    | .terminated => .pure _
    | .continues => stmtsScript ctx stmts

def elseScript (ctx : LowerContext) (elseTo exit : BlockId) : ∀ test rest,
    Script (lowerElse ctx elseTo exit test rest)
  | _, .none => .bind (.edit (.continueIn _)) fun _ => .bind (.emit _) fun _ => .pure _
  | _, .otherwise block => .bind (.edit (.continueIn _)) fun _ =>
      branchScript (stmtsScript ctx block).inFrame exit
  | _, .elseIf condition block rest =>
    .bind (.edit (.continueIn _)) fun _ => .bind (conditionScript ctx condition) fun _ =>
      .bind (.appendBlock _) fun _ => .bind (testScript elseTo rest) fun test =>
      .bind (.emit _) fun _ => .bind (.edit (.position _)) fun _ =>
      .bind (branchScript (stmtsScript ctx block).inFrame exit) fun _ =>
      .bind (elseScript ctx elseTo exit test rest) fun _ => .pure _

end

/-- The steps that the body of a function is lowered with. -/
def bodyScript (ctx : LowerContext) (body : List Stmt) : Script (lowerBody ctx body) :=
  .bind (stmtsScript ctx body).inFrame fun
    | .continues => Evaluated.ite (Q := Script) (.emit _) (.pure ())
    | .terminated => .pure ()

/-- What follows the first block of a branch begins in `test` or `elseTo`, and ends in one of them or in
a new block. No code comes behind it. -/
def SecureElse (elseTo test : BlockId) (rest : ElseChain) {x : LowerM Bool} (t : Script x) : Prop :=
  ∀ k b, b.Spares k [] b → b.Bears k elseTo .continues → b.Bears k test .continues →
    elseTo ≠ 0 → test ≠ 0 → (rest.isElseIf = true → test ≠ elseTo) →
    Safe k t b fun _ b' => b.Reaches k [elseTo, test] .terminated b'

namespace Ir.Builder

theorem Working.testBlock (h : b.Working k) (helse : b.Bears k elseTo .continues) (rest : ElseChain) :
    Safe k (testScript elseTo rest) b fun test b' =>
      (test = elseTo ∧ rest.isElseIf = false ∨ test = b.body.nextBlock) ∧ b'.current = b.current ∧
        b'.Bears k test .continues ∧ (∀ v, b.Bears k v .continues → b'.Bears k v .continues) ∧
        b.Reaches k [b.current] .continues b' := by
  cases rest with
  | elseIf _ _ _ => exact (h.start.appendBlock _).imp fun _ _ h => ⟨.inr h.1, h.2.2⟩
  | none | otherwise _ => exact .pure ⟨.inl ⟨rfl, rfl⟩, rfl, helse, fun _ hv => hv, h.start⟩

/-- The first block of a branch and what follows it, from where the condition is tested. -/
theorem Working.arms (h : b.Working k) (hthen : b.Bears k thenTo .continues)
    (helse : b.Bears k elseTo .continues) (hne : thenTo ≠ elseTo)
    (hcur : b.current ≠ thenTo ∧ b.current ≠ elseTo) (hpos : elseTo ≠ 0) {rest : ElseChain}
    {cond : Value} {arm : LowerM Bool} {t : Script arm} (ht : Secure (fun _ => .terminated) t)
    {other : BlockId → LowerM Bool} {u : ∀ test, Script (other test)}
    (hu : ∀ test, SecureElse elseTo test rest (u test)) {f : Bool → Bool → LowerM α}
    {v : ∀ r r', Script (f r r')} {Q : α → Builder → Prop} (hv : ∀ r r' b',
      b.Reaches k [b.current, thenTo, elseTo] .terminated b' → Safe k (v r r') b' Q) :
    Safe k (.bind (testScript elseTo rest) fun test =>
      .bind (.emit (·.terminate (.condBr cond thenTo test))) fun _ =>
      .bind (.edit (.position thenTo)) fun _ => .bind t fun r => .bind (u test) fun r' => v r r')
      b Q := by
  refine (h.testBlock helse rest).bind fun test b1 ⟨htest, hcur1, hbears, hkept, h1⟩ => ?_
  have hthen1 := hkept _ hthen
  have helse1 := hkept _ helse
  have hlt := h.fresh _ hthen.1
  have hlt' := h.fresh _ helse.1
  have hbelow := h.fresh _ h.bears.1
  refine (h1.working.start.leave _).bind fun _ b2 h2 => ?_
  rw [hcur1] at h2
  refine (h2.toSpares.turn hthen1 (h1.fresh _ hthen1.1) (by grind)).bind fun _ b3 h3 => ?_
  refine (ht.after h3).bind fun r b4 h4 => ?_
  have helse4 := h4.spared elseTo (h1.fresh _ helse1.1) (by grind) helse1
  have htest4 := h4.spared test (h1.fresh _ hbears.1) (by grind) hbears
  refine (hu test k b4 h4.here helse4 htest4 hpos (by grind) (by grind)).bind
    fun r' b5 h5 => hv r r' b5 ?_
  -- Seen from `b`, the block for the next condition is new unless it is the last alternative's.
  have h15 : b1.Reaches k [thenTo, b.current, elseTo, test] .terminated b5 :=
    h4.toSpares.trans h5 (by grind) (by grind)
  exact h1.toSpares.trans h15 (by grind) (by grind)

end Ir.Builder

mutual

/-- A statement reports whether control goes on where its lowering ends. -/
theorem secure_stmt : ∀ stmt, Secure id (stmtScript ctx stmt)
  | .expr e => by
    intro k b hb
    exact (secure_expr e k b hb).bind fun v b' h' => .pure h'
  | .ret value => secure_return value
  | .branch condition thenBlock rest => by
    intro k b hb
    refine (secure_condition condition k b hb).bind fun cond b1 h1 => ?_
    refine h1.working.threeBlocks fun b0 ho => ?_
    have hbelow := ho.below
    have hthen := (secure_stmts thenBlock).inFrame.branchTo (b1.body.nextBlock + 2)
    refine ho.reaches.working.arms (ho.waits 0 (by decide)) (ho.waits 1 (by decide)) (by simp)
      (by grind [ho.current]) (by simp) hthen (fun test => secure_else rest) ?_
    intro thenReaches restReaches b2 h2
    refine .ite ?_ ?_
    · refine (ho.resume h2.toSpares 2 (by decide) (by decide) (by grind [ho.current])).bind ?_
      intro _ b' h'
      exact .pure (h1.onward (ho.close h' (by simp [ho.current])))
    · have hcur := h2.moved
      rw [ho.next, ho.current] at hcur
      have hclosed := (ho.close h2 (by simp [ho.current])).removeBlock (v := b1.body.nextBlock + 2)
        (by simp) (by simp) (by grind)
      refine (Safe.edit hclosed).bind fun _ b' h' => ?_
      exact .pure (h1.onward h')
  | .whileLoop condition body => (secure_stmts body).inFrame.lowerWhile condition
  | .forIn index element sequence body => by
    intro k b hb
    refine (secure_expr sequence k b hb).bind fun ⟨value, type⟩ b1 h1 => ?_
    cases type with
    | sequence elem len =>
      refine .ite (.pure h1) ?_
      exact ((secure_stmts body).inFrame.lowerForIn index element value elem len).after h1
    | _ => exact .throw h1.working trivial

theorem secure_stmts : ∀ stmts, Secure id (stmtsScript ctx stmts)
  | [] => fun _ _ hb => .pure hb.start
  | stmt :: stmts => by
    intro k b hb
    refine (secure_stmt stmt k b hb).bind fun flow b1 h1 => ?_
    cases flow with
    | terminated => exact .pure h1
    | continues => exact (secure_stmts stmts).after h1

theorem secure_else : ∀ (rest : ElseChain) {elseTo exit test : BlockId},
    SecureElse elseTo test rest (elseScript ctx elseTo exit test rest)
  | .none, elseTo, exit, test => by
    intro k b hb helse _ hpos _ _
    refine (hb.resume helse (hb.fresh _ helse.1) (by simp) hpos).bind fun _ b1 h1 => ?_
    refine (h1.leave _).bind fun _ b' h' => ?_
    exact .pure (hb.trans h' (by simp) (by simp))
  | .otherwise block, elseTo, exit, test => by
    intro k b hb helse _ hpos _ _
    refine (hb.resume helse (hb.fresh _ helse.1) (by simp) hpos).bind fun _ b1 h1 => ?_
    refine (((secure_stmts block).inFrame.branchTo exit).after h1).imp fun reaches b' h' => ?_
    exact hb.trans h' (by simp) (by simp)
  | .elseIf condition block rest, elseTo, exit, test => by
    intro k b hb helse htest hpos hpos' hne
    have hlt := hb.fresh _ helse.1
    have hne := hne rfl
    refine (hb.resume htest (hb.fresh _ htest.1) (by simp) hpos').bind fun _ b1 h1 => ?_
    refine ((secure_condition condition).after h1).bind fun cond b2 h2 => ?_
    -- The last alternative waits until the other conditions have been tested.
    have helse2 := h2.spared elseTo hlt (by simpa using hne.symm) helse
    refine (h2.appendBlock _).bind ?_
    rintro _ b3 ⟨rfl, hnext, hcur, hthen, hkept, h3⟩
    have hbelow := h2.fresh _ h2.bears.1
    have hmoved := h2.moved
    have hle := h2.next
    refine h3.working.arms hthen (hkept _ helse2) (by grind) (by grind) hpos
      ((secure_stmts block).inFrame.branchTo exit) (fun test => secure_else rest) ?_
    intro thenReaches restReaches b' h'
    exact .pure (h3.toSpares.trans h' (by simp) (by grind))

end

theorem Ir.Builder.Working.lowerBody (h : b.Working k) (ctx : LowerContext) (body : List Stmt) :
    Safe k (bodyScript ctx body) b fun _ b' => ∃ flow, b.Reaches k [b.current] flow b' := by
  refine ((secure_stmts body).inFrame k b h).bind fun flow b1 h1 => ?_
  cases flow with
  | continues =>
    refine .ite ?_ (.pure ⟨_, h1⟩)
    exact (h1.leave _).imp fun _ b' h' => ⟨_, h'⟩
  | terminated => exact .pure ⟨_, h1⟩

/-- Whatever the outcome, there is a builder, and one can go on with what is left. -/
theorem Safe.standing {t : Script x} {s : Lowering} (hs : s.builder? = some b)
    (ht : Safe ⟨True, False⟩ t b fun _ b' => ∃ flow, b.Reaches ⟨True, False⟩ [b.current] flow b') :
    ∃ b', (x.run.run s).2.builder? = some b' ∧ b'.Standing := by
  obtain ⟨_, b', hb', hends⟩ := ht s hs
  refine ⟨b', hb', ?_⟩
  cases hr : (x.run.run s).1 with
  | ok a =>
    rw [hr] at hends
    obtain ⟨flow, h⟩ := hends
    exact h.standing
  | error e =>
    rw [hr] at hends
    exact hends.1.standing

end Statements

/-- Wherever a statement is lowered, in a function that was built in whatever way, if the current block
has no terminator: whether or not lowering succeeds, no instruction and no terminator is emitted into a
block that has one already, apart from stack slots, which go to the top of the entry. If it succeeds,
it reports that control does not go on exactly if the current block has a terminator then. -/
theorem lowerStmt_reports_flow (f : Function) (ctx : LowerContext) (stmt : Stmt) (s : Lowering)
    (hbuilt : (Builder.start f).Assembles s.builder) (x : Block)
    (hx : s.builder.body.block? s.builder.current = some x) (hopen : x.term = none) :
    (stmtScript ctx stmt).Tidy s ∧
      ∀ flow s', Yields (lowerStmt ctx stmt) s flow s' →
        ∃ y, s'.builder.body.block? s'.builder.current = some y ∧
          (flow = .terminated ↔ y.term.isSome = true) := by
  have horderly := (Builder.orderly_start f).assembles hbuilt
  have hworking : s.builder.Working ⟨False, True⟩ := by
    refine ⟨⟨Body.block?_isSome.mp (Option.isSome_of_eq_some hx), fun _ y hy hid => iff_of_true ?_ rfl⟩,
      horderly.bounded, fun _ => horderly.ids, False.elim⟩
    obtain ⟨hmem, hcur⟩ := (Body.block?_eq_some horderly.ids).mp hx
    rw [Body.eq_of_id_eq horderly.ids hy hmem (hid.trans hcur.symm), hopen]
  have hs := Lowering.builder?_eq (Lowering.isSome_of_mem (List.mem_of_find?_eq_some hx))
  obtain ⟨htidy, b', hb', hends⟩ := secure_stmt stmt _ _ hworking s hs
  refine ⟨htidy, fun flow s' hy => ?_⟩
  rw [hy] at hb' hends
  obtain ⟨y, hblock, hterm⟩ := hends.bears.block?
  rw [Lowering.builder_of_some hb']
  refine ⟨y, hblock, ?_⟩
  rw [Option.isSome_iff_ne_none, ne_eq, hterm trivial]
  cases flow with
  | continues => simp
  | terminated => simp

/-- A loop that does not come to a second iteration, since both ways of a branch return. -/
def returning : Stmt :=
  .forIn none "x" (.sequence [.number (.int 7)])
    [.branch (.bool true) [.ret none] (.otherwise [.ret none])]

theorem returning_reports_flow :
    let s : Lowering := ⟨.empty "m", some (.start ⟨"f", [], .void, none⟩), .empty⟩
    (stmtScript ⟨true, .void⟩ returning).Tidy s ∧
      ∃ s' y, Yields (lowerStmt ⟨true, .void⟩ returning) s .terminated s' ∧
        s'.builder.body.block? s'.builder.current = some y ∧ y.term.isSome = true := by
  intro s
  obtain ⟨htidy, hflow⟩ :=
    lowerStmt_reports_flow ⟨"f", [], .void, none⟩ ⟨true, .void⟩ returning s .refl _ rfl rfl
  have hrun : ((lowerStmt ⟨true, .void⟩ returning).run.run s).1 = .ok .terminated := by
    decide +kernel
  obtain ⟨y, hblock, hterm⟩ := hflow _ _ (yields_of_eq_ok hrun)
  exact ⟨htidy, _, y, yields_of_eq_ok hrun, hblock, hterm.mp rfl⟩

end SsaCompiler
