import SsaCompiler.Proofs.Compiling.Bodies
import SsaCompiler.Proofs.Lowering.Module

/-!
What a step of a compilation can do. A definition is given up before its body is lowered, while it is
lowered, or by the verifier; or it ends up in the module.
-/
namespace SsaCompiler.Compilation

open Ir LowerM

variable {c c1 : Compilation} {f : FunctionDecl} {proto : Prototype} {decl : Function}
  {sig : Signature}

theorem run_function? (name : String) :
    (function? name).run.run c = (.ok (c.module.function? name), c) := rfl

theorem run_resolve (h : Signature.resolve proto = .ok sig) :
    (resolve proto).run.run c = (.ok sig, c) := by
  unfold resolve
  rw [h]
  rfl

theorem run_lower {α : Type} {b : Builder} {scope : Scope} {result : DataType}
    {step : LowerContext → LowerM α} {r : Except CompileError α} {s : Lowering}
    (h : (step ⟨c.settings.guardDivision, result⟩).run.run ⟨c.module, some b, scope⟩ = (r, s)) :
    (lower b scope result step).run.run c = (.ok (r, s.builder?), { c with module := s.module }) := by
  have hget : (get : CompileM Compilation).run.run c = (.ok c, c) := rfl
  unfold lower
  rw [run_bind_ok hget, h]
  rfl

/-- A prototype that is declared has a signature, and the module has a function of its name with
that signature. -/
theorem yields_declare (h : Yields (declare proto) c () c1) :
    ∃ sig, Signature.resolve proto = .ok sig ∧
      conflictingRoutine? (sig.declaration proto) = none ∧
      ∃ decl, c1.module.function? proto.name = some decl ∧
        decl.sameSignature (sig.declaration proto) = true ∧
        (c1 = c ∨ decl = sig.declaration proto ∧
          c1 = { c with module := c.module.addFunction decl }) := by
  obtain ⟨sig, c', hsig, hrest⟩ := yields_bind.mp h
  unfold resolve at hsig
  cases hresolve : Signature.resolve proto with
  | error t =>
    rw [hresolve] at hsig
    exact absurd hsig not_yields_throw
  | ok sig' =>
    rw [hresolve] at hsig
    obtain ⟨rfl, rfl⟩ := yields_pure.mp hsig
    refine ⟨sig, rfl, ?_⟩
    dsimp only at hrest
    cases hconflict : conflictingRoutine? (sig.declaration proto) with
    | some r =>
      rw [hconflict] at hrest
      exact absurd hrest not_yields_throw
    | none =>
      refine ⟨rfl, ?_⟩
      rw [hconflict] at hrest
      obtain ⟨found, c'', hfunction, hrest⟩ := yields_bind.mp hrest
      cases hfunction
      cases hfound : c'.module.function? proto.name with
      | some g =>
        rw [hfound] at hrest
        dsimp only at hrest
        by_cases hsame : g.sameSignature (sig.declaration proto) = true
        · rw [if_pos hsame] at hrest
          obtain ⟨_, rfl⟩ := yields_pure.mp hrest
          exact ⟨g, hfound, hsame, .inl rfl⟩
        · rw [if_neg hsame] at hrest
          exact absurd hrest not_yields_throw
      | none =>
        rw [hfound] at hrest
        obtain rfl := yields_modify.mp hrest
        refine ⟨sig.declaration proto, ?_, by simp [Function.sameSignature], .inr ⟨rfl, rfl⟩⟩
        change (c'.module.functions ++ [sig.declaration proto]).find? _ = _
        rw [List.find?_append, show c'.module.functions.find? _ = none from hfound]
        simp [Signature.declaration]

/-- The definition of a function gets past its declaration. -/
structure Past (c : Compilation) (f : FunctionDecl) (c1 : Compilation) (decl : Function)
    (sig : Signature) : Prop where
  declared : Yields (declare f.proto) c () c1
  found : c1.module.function? f.proto.name = some decl
  bodiless : decl.body = none
  resolved : Signature.resolve f.proto = .ok sig

/-- What stays the same while the body of a function is lowered. -/
def context (c : Compilation) (sig : Signature) : LowerContext :=
  ⟨c.settings.guardDivision, sig.result⟩

/-- Where lowering the body of a function starts. -/
def bodyStart (c : Compilation) (f : FunctionDecl) (decl : Function) (sig : Signature) : Lowering :=
  .ofFunction c.module decl (paramScope f.proto sig)

/-- A finished function as it is put into the module. -/
def stored (c : Compilation) (g : Function) : Function :=
  if c.settings.optimize then g.optimize Optimize.standardPasses else g

/-- What a definition can lead to. -/
inductive Outcome (c : Compilation) (f : FunctionDecl) : Except CompileError Unit × Compilation → Prop
  | undeclared {e : CompileError} {c1 : Compilation}
      (h : (declare f.proto).run.run c = (.error e, c1)) : Outcome c f (.error e, c1)
  | repeated {c1 : Compilation} (h : Yields (declare f.proto) c () c1) :
      Outcome c f (.error (.redefinition f.proto.name), c1)
  | failed {c1 : Compilation} {decl : Function} {sig : Signature} {e : CompileError} {s : Lowering}
      (h : Past c f c1 decl sig)
      (hrun : (lowerBody (c1.context sig) f.body).run.run (c1.bodyStart f decl sig) = (.error e, s)) :
      Outcome c f (.error e, { c1 with module := s.module })
  | flawed {c1 : Compilation} {decl : Function} {sig : Signature} {s : Lowering} {flaw : Flaw}
      (h : Past c f c1 decl sig)
      (hrun : Yields (lowerBody (c1.context sig) f.body) (c1.bodyStart f decl sig) () s)
      (hverify : s.builder.finish.verify s.module = .error flaw) :
      Outcome c f (.error (.verification s.builder.name flaw),
        { c1 with module := s.module.removeFunction s.builder.name })
  | defined {c1 : Compilation} {decl : Function} {sig : Signature} {s : Lowering}
      (h : Past c f c1 decl sig)
      (hrun : Yields (lowerBody (c1.context sig) f.body) (c1.bodyStart f decl sig) () s)
      (hverify : s.builder.finish.verify s.module = .ok ()) :
      Outcome c f (.ok (), { c1 with module := s.module.define (c1.stored s.builder.finish) })

/-- Putting a finished function into the module. -/
theorem run_finalize (g : Function) :
    (finalize g).run.run c = match g.verify c.module with
      | .error flaw => (.error (.verification g.name flaw),
          { c with module := c.module.removeFunction g.name })
      | .ok () => (.ok (), { c with module := c.module.define (c.stored g) }) := by
  have hget : (get : CompileM Compilation).run.run c = (.ok c, c) := rfl
  unfold finalize
  rw [run_bind_ok hget]
  cases g.verify c.module with
  | error flaw => rfl
  | ok u => rfl

/-- Past the declaration, the body decides. -/
theorem run_define {s : Lowering} {r : Except CompileError Unit} (h : Past c f c1 decl sig)
    (hrun : (lowerBody (c1.context sig) f.body).run.run (c1.bodyStart f decl sig) = (r, s)) :
    (define f).run.run c = match r with
      | .error e => (.error e, { c1 with module := s.module })
      | .ok () => (finalize s.builder.finish).run.run { c1 with module := s.module } := by
  have hbody : ¬ decl.body.isSome = true := by simp [h.bodiless]
  have hlower : (lower (.start decl) (paramScope f.proto sig) sig.result fun ctx =>
      lowerBody ctx f.body).run.run c1 = (.ok (r, some s.builder), { c1 with module := s.module }) :=
    builder?_of_run (fun hP => hP.lowerBody f.body) rfl hrun ▸ run_lower hrun
  unfold define
  rw [run_bind_ok h.declared, run_bind_ok (run_function? f.proto.name), h.found]
  dsimp only
  rw [if_neg hbody, run_bind_ok (run_resolve h.resolved), run_bind_ok hlower]
  cases r with
  | error e => rfl
  | ok u => rfl

theorem define_outcome (c : Compilation) (f : FunctionDecl) :
    Outcome c f ((define f).run.run c) := by
  obtain ⟨⟨r, c1⟩, hdeclare⟩ : ∃ p, (declare f.proto).run.run c = p := ⟨_, rfl⟩
  cases r with
  | error e =>
    unfold define
    rw [run_bind_error hdeclare]
    exact .undeclared hdeclare
  | ok u =>
    obtain ⟨sig, hsig, _, decl, hfound, _⟩ := yields_declare hdeclare
    by_cases hbody : decl.body.isSome = true
    · unfold define
      rw [run_bind_ok hdeclare, run_bind_ok (run_function? f.proto.name), hfound]
      dsimp only
      rw [if_pos hbody]
      exact .repeated hdeclare
    · have past : Past c f c1 decl sig := ⟨hdeclare, hfound, by simpa using hbody, hsig⟩
      obtain ⟨⟨r, s⟩, hrun⟩ : ∃ p, (lowerBody (c1.context sig) f.body).run.run
        (c1.bodyStart f decl sig) = p := ⟨_, rfl⟩
      rw [run_define past hrun]
      cases r with
      | error e => exact .failed past hrun
      | ok u =>
        dsimp only
        rw [run_finalize]
        cases hverify : s.builder.finish.verify s.module with
        | error flaw =>
          have houtcome := Outcome.flawed past hrun hverify
          exact houtcome
        | ok u =>
          have houtcome := Outcome.defined past hrun hverify
          exact houtcome

end SsaCompiler.Compilation
