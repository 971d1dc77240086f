import SsaCompiler.Proofs.Compiling.Outcomes

/-!
The steps of a compilation as functions of its state, one equation for each.
-/
namespace SsaCompiler.Compilation

open Ir LowerM

variable {c c1 : Compilation} {f : FunctionDecl} {proto : Prototype} {sig : Signature}

/-- The function of the statements outside of functions, before it has a body. -/
def toplevelDecl : Function := ⟨toplevelName, [], .void, none⟩

theorem run_get : (get : CompileM Compilation).run.run c = (.ok c, c) := rfl

/-- A prototype with a signature that can be declared. -/
theorem run_declare (hsig : Signature.resolve proto = .ok sig)
    (hroutine : conflictingRoutine? (sig.declaration proto) = none) :
    (declare proto).run.run c = match c.module.function? proto.name with
      | some f => if f.sameSignature (sig.declaration proto) then (.ok (), c)
          else (.error (.redefinition proto.name), c)
      | none => (.ok (), { c with module := c.module.addFunction (sig.declaration proto) }) := by
  unfold declare
  rw [run_bind_ok (run_resolve hsig)]
  dsimp only
  rw [hroutine]
  dsimp only
  rw [run_bind_ok (run_function? proto.name)]
  cases c.module.function? proto.name with
  | none => rfl
  | some f =>
    dsimp only
    split <;> rfl

/-- Other prototypes are refused wherever they are declared. -/
theorem run_declare_refused (h : ¬ ∃ sig, Signature.resolve proto = .ok sig ∧
    conflictingRoutine? (sig.declaration proto) = none) :
    ∃ e, ∀ c, (declare proto).run.run c = (.error e, c) := by
  unfold declare resolve
  cases hsig : Signature.resolve proto with
  | error t => exact ⟨.unsupported t, fun c => rfl⟩
  | ok sig =>
    cases hroutine : conflictingRoutine? (sig.declaration proto) with
    | none => exact absurd ⟨sig, hsig, hroutine⟩ h
    | some r =>
      refine ⟨.redefinition r.name, fun c => ?_⟩
      rw [run_bind_ok (show (pure sig : CompileM Signature).run.run c = _ from rfl)]
      dsimp only
      rw [hroutine]
      rfl

/-- A definition is refused with its declaration, or because there is one before it, or it gets past
its declaration. -/
theorem define_cases (c : Compilation) (f : FunctionDecl) :
    (∃ e c1, (declare f.proto).run.run c = (.error e, c1) ∧
      (define f).run.run c = (.error e, c1)) ∨
    ∃ c1 decl, Yields (declare f.proto) c () c1 ∧
      c1.module.function? f.proto.name = some decl ∧
      (decl.body.isSome = true ∧
          (define f).run.run c = (.error (.redefinition f.proto.name), c1) ∨
        ∃ sig, Past c f c1 decl sig) := by
  obtain ⟨⟨r, c1⟩, hdeclare⟩ : ∃ p, (declare f.proto).run.run c = p := ⟨_, rfl⟩
  cases r with
  | error e =>
    refine .inl ⟨e, c1, hdeclare, ?_⟩
    unfold define
    rw [run_bind_error hdeclare]
  | ok u =>
    obtain ⟨sig, hsig, _, decl, hfound, _⟩ := yields_declare hdeclare
    refine .inr ⟨c1, decl, hdeclare, hfound, ?_⟩
    by_cases hbody : decl.body.isSome = true
    · refine .inl ⟨hbody, ?_⟩
      unfold define
      rw [run_bind_ok hdeclare, run_bind_ok (run_function? f.proto.name), hfound]
      dsimp only
      rw [if_pos hbody]
      rfl
    · exact .inr ⟨sig, hdeclare, hfound, by simpa using hbody, hsig⟩

theorem run_toplevelBuilder : toplevelBuilder.run.run c = match c.toplevel with
    | some b => (.ok b, c)
    | none =>
      if (c.module.function? toplevelName).isSome then (.error (.redefinition toplevelName), c)
      else (.ok (.start toplevelDecl), { c with module := c.module.addFunction toplevelDecl }) := by
  obtain ⟨m, toplevel, settings⟩ := c
  unfold toplevelBuilder
  rw [run_bind_ok run_get]
  cases toplevel with
  | some b => rfl
  | none =>
    dsimp only
    rw [run_bind_ok (run_function? toplevelName)]
    split <;> rfl

/-- A statement outside of functions, lowered into the builder of its function. -/
theorem run_lowerToplevel {b : Builder} (stmt : Stmt)
    (hb : toplevelBuilder.run.run c = (.ok b, c1)) :
    (lowerToplevel stmt).run.run c = if b.isTerminated then (.ok (), { c1 with toplevel := some b })
      else
        let p := (lowerStmt ⟨c1.settings.guardDivision, .void⟩ stmt).run.run ⟨c1.module, some b, .empty⟩
        (p.1.map fun _ => (), { c1 with module := p.2.module, toplevel := some p.2.builder }) := by
  obtain ⟨⟨r, s⟩, hrun⟩ : ∃ p, (lowerStmt ⟨c1.settings.guardDivision, .void⟩ stmt).run.run
    ⟨c1.module, some b, .empty⟩ = p := ⟨_, rfl⟩
  have hlower : (lower b .empty .void fun ctx => lowerStmt ctx stmt).run.run c1 =
      (.ok (r, some s.builder), { c1 with module := s.module }) :=
    builder?_of_run (fun hP => hP.lowerStmt stmt) rfl hrun ▸ run_lower hrun
  unfold lowerToplevel
  rw [run_bind_ok hb, hrun]
  split
  · rfl
  · rw [run_bind_ok hlower]
    cases r with
    | error e => rfl
    | ok flow => rfl

theorem run_lowerToplevel_refused {e : CompileError} (stmt : Stmt)
    (hb : toplevelBuilder.run.run c = (.error e, c1)) :
    (lowerToplevel stmt).run.run c = (.error e, c1) := by
  unfold lowerToplevel
  rw [run_bind_error hb]

theorem run_finishToplevel : finishToplevel.run.run c = match c.toplevel with
    | none => (.ok (), c)
    | some b => match b.terminate (.ret none) with
      | .error e => (.error (.build e), { c with toplevel := none })
      | .ok b => (finalize b.finish).run.run { c with toplevel := none } := by
  unfold finishToplevel
  rw [run_bind_ok run_get]
  cases c.toplevel with
  | none => rfl
  | some b =>
    have hset : (setToplevel none).run.run c = (.ok (), { c with toplevel := none }) := rfl
    dsimp only
    rw [run_bind_ok hset]
    cases b.terminate (.ret none) with
    | error e => rfl
    | ok b => rfl

theorem run_finish (h : Yields finishToplevel c () c1) :
    finish.run.run c = match c1.module.discardUnused.verify with
      | .error (name, flaw) => (.error (.verification name flaw),
          { c1 with module := c1.module.discardUnused })
      | .ok () => (.ok c1.module.discardUnused,
          { c1 with module := c1.module.discardUnused }) := by
  have hedit : (editModule Module.discardUnused).run.run c1 =
      (.ok (), { c1 with module := c1.module.discardUnused }) := rfl
  unfold finish
  rw [run_bind_ok h, run_bind_ok hedit, run_bind_ok run_get]
  dsimp only
  cases c1.module.discardUnused.verify with
  | error p => rfl
  | ok u => rfl

end SsaCompiler.Compilation
