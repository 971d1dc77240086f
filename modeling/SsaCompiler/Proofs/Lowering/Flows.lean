import SsaCompiler.Proofs.Lowering.Emission
import SsaCompiler.Proofs.Lowering.Verdicts

/-!
Control goes on behind a lowered statement exactly if the rules of the language say so. The rules
speak of conditions, of the blocks of statements and of what loops bind; the steps between them emit
code. Where there is a current block, none of these fails.
-/
namespace SsaCompiler.Lowering

open Ir LowerM

variable {s : Lowering} {ctx : LowerContext} {step : LowerM Flow}
  {verdict : Names → Except CompileError Flow}

/-- What is bound in a frame is forgotten behind it. -/
theorem Heeds.pop (scope : Scope) {expected : Except CompileError Flow} (hpop : scope.pop = s.scope)
    (h : Heeds { s with scope := scope } Eq expected (step.run.run { s with scope := scope })) :
    s.Heeds Eq expected ((do
      let flow ← step
      editScope Scope.pop
      return flow).run.run { s with scope := scope }) := by
  obtain ⟨⟨r, s1⟩, hrun⟩ : ∃ p, step.run.run { s with scope := scope } = p := ⟨_, rfl⟩
  rw [hrun] at h
  cases r with
  | error e =>
    rw [run_bind_error hrun]
    exact h
  | ok flow =>
    rw [run_bind_ok hrun]
    exact ⟨⟨h.1.functions, (congrArg Scope.pop h.1.scope).trans hpop⟩, h.2⟩

theorem Judged.inFrame (hstep : Judged step Eq verdict) : Judged (inFrame step) Eq verdict :=
  fun s => .pop s.scope.push rfl (hstep { s with scope := s.scope.push })

/-- The names that stand for the index and the element while a loop runs. -/
theorem Judged.bound (hstep : Judged step Eq verdict) (index : Option String) (element : String)
    (counter current : Value) (elem : DataType) :
    Judged (LowerM.inFrame do
      bindIndex counter index
      LowerM.bind element ⟨current, elem⟩
      step) Eq fun names => verdict (names.inLoop index element elem) := by
  intro s
  cases index with
  | none =>
    let inside := s.scope.push.bind element ⟨current, elem⟩
    have hbody := hstep { s with scope := inside }
    rw [names_bind { s with scope := s.scope.push }] at hbody
    exact .pop inside rfl hbody
  | some name =>
    let indexed := s.scope.push.bind name ⟨counter, .int⟩
    let inside := indexed.bind element ⟨current, elem⟩
    have hbody := hstep { s with scope := inside }
    rw [names_bind { s with scope := indexed }, names_bind { s with scope := s.scope.push }] at hbody
    exact .pop inside rfl hbody

theorem Skips.closeLoop (header : BlockId) (counter : Value) (flow : Flow) :
    Skips (closeLoop header counter flow) := by
  cases flow with
  | terminated => exact .pure trivial
  | continues =>
    exact .after .currentBlock fun _ => .after (.build _) fun _ => .after (.edit _) fun _ =>
      Skips.emit _

/-- A loop with a condition goes on behind it, whatever its body does. -/
theorem Judged.lowerWhile (hstep : Judged step Eq verdict) (condition : Expr) :
    Judged (lowerWhile ctx condition step) Eq fun names => do
      names.checkCondition condition
      let _ ← verdict names
      return .continues :=
  .after .currentBlock fun _ => .after (.build _) fun header => .after (.build _) fun _ =>
    .after (.build _) fun _ => .after (.emit _) fun _ => .after (.edit _) fun _ =>
    .after (.build _) fun counter => (judged_condition condition).bind fun _ _ _ =>
    .after (.emit _) fun _ => .after (.edit _) fun _ => hstep.bind fun flow _ _ =>
    .after (.closeLoop header counter flow) fun _ => .after (.edit _) fun _ => .pure rfl

/-- Control goes on behind a loop over a sequence if it goes on behind the body. -/
theorem Judged.lowerForIn (hstep : Judged step Eq verdict) (index : Option String) (element : String)
    (sequence : Value) (elem : DataType) (len : Nat) :
    Judged (lowerForIn index element sequence elem len step) Eq
      fun names => verdict (names.inLoop index element elem) := by
  refine .after (.build _) fun _ => .after (.build _) fun _ => .after (.build _) fun _ =>
    .after (.emit _) fun _ => .after .currentBlock fun _ => .after (.build _) fun _ =>
    .after (.build _) fun _ => .after (.build _) fun _ => .after (.emit _) fun _ =>
    .after (.edit _) fun _ => .after (.build _) fun counter => .after (.build _) fun current => ?_
  refine (hstep.bound index element counter current elem).andThen fun flow _ hflow => ?_
  subst hflow
  cases flow with
  | terminated => exact .after (.edit _) fun _ => .pure rfl
  | continues =>
    exact .after (.build _) fun _ => .after (.build _) fun _ => .after (.emit _) fun _ =>
      .after (.edit _) fun _ => .after (.build _) fun _ => .after (.build _) fun _ =>
      .after (.emit _) fun _ => .after (.edit _) fun _ => .after (.emit _) fun _ =>
      .after (.edit _) fun _ => .pure rfl

/-- A branch reports whether control goes on behind it. -/
theorem Judged.branchTo (hstep : Judged step Eq verdict) (exit : BlockId) :
    Judged (branchTo exit step) (fun reaches flow => reaches = flow.goesOn) verdict := by
  refine hstep.andThen fun flow _ hflow => ?_
  subst hflow
  cases flow with
  | terminated => exact .pure rfl
  | continues => exact .after (.emit _) fun _ => .pure rfl

theorem Skips.testBlock (elseTo : BlockId) (rest : ElseChain) : Skips (testBlock elseTo rest) := by
  unfold LowerM.testBlock
  split
  · exact .build _
  · exact .pure trivial

section Syntax

variable (ctx)

mutual

/-- Lowering a statement does what the rules say of it. -/
theorem judged_stmt : ∀ stmt, Judged (lowerStmt ctx stmt) Eq (·.stmtFlow ctx.result stmt)
  | .expr e => by
    simp only [lowerStmt, Names.stmtFlow]
    exact (judged_expr e).bind fun _ _ _ => .pure rfl
  | .ret value => by
    simp only [lowerStmt, Names.stmtFlow]
    exact judged_return value
  | .branch condition thenBlock rest => by
    simp only [lowerStmt, Names.stmtFlow]
    refine (judged_condition condition).bind fun _ _ _ => .after (.build _) fun _ =>
      .after (.build _) fun elseTo => .after (.build _) fun exit => .after (.testBlock elseTo rest)
      fun test => .after (.emit _) fun _ => .after (.edit _) fun _ => ?_
    refine ((judged_stmts thenBlock).inFrame.branchTo exit).bind fun first flow hflow =>
      (judged_else rest elseTo exit test).bind fun other _ hother => ?_
    subst hflow hother
    split
    · exact .after (.edit _) fun _ => .pure rfl
    · exact .after (.edit _) fun _ => .pure rfl
  | .whileLoop condition body => by
    simp only [lowerStmt, Names.stmtFlow]
    exact (judged_stmts body).inFrame.lowerWhile condition
  | .forIn index element sequence body => by
    simp only [lowerStmt, Names.stmtFlow]
    refine (judged_expr sequence).bind fun v ty hty => ?_
    obtain rfl : v.type = ty := hty
    cases v.type with
    | sequence elem len =>
      dsimp only
      split
      · exact .pure rfl
      · exact (judged_stmts body).inFrame.lowerForIn index element v.value elem len
    | _ => exact .throw

theorem judged_stmts : ∀ stmts, Judged (lowerStmts ctx stmts) Eq (·.stmtsFlow ctx.result stmts)
  | [] => by
    simp only [lowerStmts, Names.stmtsFlow]
    exact .pure rfl
  | stmt :: stmts => by
    simp only [lowerStmts, Names.stmtsFlow]
    refine (judged_stmt stmt).bind fun flow _ hflow => ?_
    subst hflow
    cases flow with
    | terminated => exact .pure rfl
    | continues => exact judged_stmts stmts

theorem judged_else : ∀ (rest : ElseChain) (elseTo exit test : BlockId),
    Judged (lowerElse ctx elseTo exit test rest) Eq (·.elseGoesOn ctx.result rest)
  | .none, _, _, _ => by
    simp only [lowerElse, Names.elseGoesOn]
    exact .after (.edit _) fun _ => .after (.emit _) fun _ => .pure rfl
  | .otherwise block, _, exit, _ => by
    simp only [lowerElse, Names.elseGoesOn]
    rw [← bind_pure (LowerM.branchTo exit _)]
    exact .after (.edit _) fun _ => ((judged_stmts block).inFrame.branchTo exit).bind
      fun _ _ hreaches => .pure hreaches
  | .elseIf condition block rest, elseTo, exit, test => by
    simp only [lowerElse, Names.elseGoesOn]
    refine .after (.edit _) fun _ => (judged_condition condition).bind fun _ _ _ =>
      .after (.build _) fun _ => .after (.testBlock elseTo rest) fun next => .after (.emit _) fun _ =>
      .after (.edit _) fun _ => ((judged_stmts block).inFrame.branchTo exit).bind fun first _ hfirst =>
      (judged_else rest elseTo exit next).bind fun other _ hother => .pure ?_
    rw [hfirst, hother]

end

theorem Ready.follows_stmt (h : s.Ready) (stmt : Stmt) :
    Follows (lowerStmt ctx stmt) s (fun flow expected _ => flow = expected)
      (s.names.stmtFlow ctx.result stmt) :=
  (judged_stmt ctx stmt).follows ((secure_stmt stmt).unbroken h)

end Syntax

theorem Ready.follows_expr (h : s.Ready) (e : Expr) :
    Follows (lowerExpr ctx e) s (fun tv ty _ => tv.type = ty) (s.names.exprType e) :=
  (judged_expr e).follows ((secure_expr e).unbroken h)

end SsaCompiler.Lowering
