import SsaCompiler.Proofs.Compiling.Outcomes
import SsaCompiler.Proofs.Validity.Modules

/-!
Definitions in the course of a compilation. In every compilation that can come about, functions with
the name of a routine have its signature. Main statement: a body that lowers without an error is
well formed, unless control can get to the end of a function with a result; then the verifier finds
the missing terminator there, and nothing else.
-/
namespace SsaCompiler

open Ir LowerM

theorem Ir.Function.Fits.optimize {f : Function} (h : f.Fits) (passes : List Optimize.Pass) :
    (f.optimize passes).Fits := fun r hr => h r hr

namespace Ir.Module

variable {m : Module} {f : Function}

theorem Honest.addFunction (h : m.Honest) (hf : f.Fits) : (m.addFunction f).Honest := by
  intro g hg
  rcases List.mem_append.mp hg with hg | hg
  · exact h g hg
  · rw [List.mem_singleton.mp hg]
    exact hf

theorem Honest.define (h : m.Honest) (hf : f.Fits) : (m.define f).Honest := by
  unfold Module.define
  split
  · intro g hg
    rcases List.mem_or_eq_of_mem_set hg with hg | rfl
    · exact h g hg
    · exact hf
  · exact h.addFunction hf

theorem Honest.removeFunction (h : m.Honest) (name : String) : (m.removeFunction name).Honest :=
  fun g hg => h g (List.mem_of_mem_eraseP hg)

end Ir.Module

namespace Compilation

variable {c c1 : Compilation} {f : FunctionDecl} {proto : Prototype} {decl : Function}
  {sig : Signature}

theorem fits_of_conflictingRoutine? (h : conflictingRoutine? decl = none) : decl.Fits := by
  intro r hname
  have hofName : Routine.ofName? decl.name = some r := by
    rw [hname]
    cases r <;> rfl
  simp only [conflictingRoutine?, hofName, Option.filter_eq_none_iff, Option.some.injEq] at h
  have haccepts : r.accepts decl = true := by simpa using h r rfl
  simpa [Routine.accepts, and_comm] using haccepts

theorem keeps_declare (proto : Prototype) :
    Keeps (fun c => c.module.Honest) CompileError.Plain (declare proto) := by
  refine .bind ?_ fun sig => ?_
  · unfold resolve
    split
    · exact keeps_pure _
    · exact keeps_throw trivial
  · dsimp only
    split
    · exact keeps_throw trivial
    · rename_i hconflict
      refine .bind (.bind keeps_get fun _ => keeps_pure _) fun found => ?_
      cases found with
      | some f => exact .ite (keeps_pure _) (keeps_throw trivial)
      | none =>
        exact keeps_modify fun c hc => hc.addFunction (fits_of_conflictingRoutine? hconflict)

theorem keeps_lower {α : Type} {b : Builder} {scope : Scope} {result : DataType}
    {step : LowerContext → LowerM α} {E : CompileError → Prop} (h : ∀ m ctx, Adds m (step ctx)) :
    Keeps (fun c => c.module.Honest) E (lower b scope result step) := by
  intro c hc
  obtain ⟨⟨r, s⟩, hrun⟩ : ∃ p, (step ⟨c.settings.guardDivision, result⟩).run.run
    ⟨c.module, some b, scope⟩ = p := ⟨_, rfl⟩
  rw [run_lower hrun]
  have hgrows : c.module.Grows s.module := by
    have := (h c.module ⟨c.settings.guardDivision, result⟩ ⟨c.module, some b, scope⟩ (.refl _)).1
    rwa [hrun] at this
  exact ⟨hc.grows hgrows, fun _ he => nomatch he⟩

theorem keeps_lowerToplevel (stmt : Stmt) :
    Keeps (fun c => c.module.Honest) (fun _ => True) (lowerToplevel stmt) := by
  have hset : ∀ b, Keeps (fun c => c.module.Honest) (fun _ => True) (setToplevel b) :=
    fun _ => keeps_modify fun _ hc => hc
  refine .bind (.bind keeps_get fun c => ?_) fun b => ?_
  · cases c.toplevel with
    | some b => exact keeps_pure _
    | none =>
      refine .bind (.bind keeps_get fun _ => keeps_pure _) fun _ => .ite (keeps_throw trivial) ?_
      refine .bind (keeps_modify fun c hc => hc.addFunction fun r hr => ?_) fun _ => keeps_pure _
      cases r <;> simp [toplevelName, Routine.name] at hr
  · refine .ite (hset _) (.bind (keeps_lower fun _ _ => adds_lowerStmt stmt) fun p => ?_)
    obtain ⟨r, b⟩ := p
    refine .bind (hset _) fun _ => ?_
    cases r with
    | error e => exact keeps_throw trivial
    | ok _ => exact keeps_pure _

/-- Lowering a body starts where code may be emitted. -/
theorem Past.live (h : Past c f c1 decl sig) (hc : c.module.Honest) :
    (c1.bodyStart f decl sig).Live (fun _ d => d = 0) [] ∧ decl.name = f.proto.name ∧
      decl.ret = sig.result.toIr ∧ decl.Fits := by
  have hc1 : c1.module.Honest := by
    have hkeeps := (keeps_declare f.proto c hc).1
    rwa [show (declare f.proto).run.run c = _ from h.declared] at hkeeps
  obtain ⟨sig', hsig', _, decl', hfound, hsame, _⟩ := yields_declare h.declared
  obtain rfl : sig' = sig := Except.ok.inj (hsig'.symm.trans h.resolved)
  obtain rfl : decl' = decl := Option.some.inj (hfound.symm.trans h.found)
  obtain ⟨hret, hparams⟩ : decl'.ret = (sig'.declaration f.proto).ret ∧
      decl'.paramTypes = (sig'.declaration f.proto).paramTypes := by
    simpa [Function.sameSignature] using hsame
  exact ⟨.ofFunction hc1 h.resolved hparams, by simpa using List.find?_some hfound, hret,
    hc1 decl' (List.mem_of_find?_eq_some hfound)⟩

/-- Compilations that come about by declarations, definitions and statements outside of functions,
each of them carried out or given up with an error. -/
inductive Reachable : Compilation → Prop
  | start (name : String) (settings : Settings) : Reachable (.start name settings)
  | declare {c : Compilation} (h : Reachable c) (proto : Prototype) :
      Reachable ((Compilation.declare proto).run.run c).2
  | define {c : Compilation} (h : Reachable c) (f : FunctionDecl) :
      Reachable ((Compilation.define f).run.run c).2
  | lowerToplevel {c : Compilation} (h : Reachable c) (stmt : Stmt) :
      Reachable ((Compilation.lowerToplevel stmt).run.run c).2

/-- A body that lowers without an error is finished, unless control gets to its end and the function
has a result. -/
theorem Past.finishes {flow : Flow} {s : Lowering} (h : Past c f c1 decl sig)
    (hc : c.module.Honest)
    (hy : Yields (inFrame (lowerStmts (c1.context sig) f.body)) (c1.bodyStart f decl sig) flow s) :
    ∃ K s', Yields (lowerBody (c1.context sig) f.body) (c1.bodyStart f decl sig) () s' ∧
      (sig.result = .void ∨ flow = .terminated → s'.builder.Sound K [] s'.module) ∧
      (¬ (sig.result = .void ∨ flow = .terminated) → s' = s ∧ s.Live K [] ∧
        s.builder.ret = sig.result.toIr) ∧
      (c1.bodyStart f decl sig).Since (fun _ d => d = 0) K s' := by
  obtain ⟨hlive, _, hret, _⟩ := h.live hc
  have hresult : (c1.bodyStart f decl sig).builder.ret = (c1.context sig).result.toIr := hret
  obtain ⟨K, s', hrun, hsince, hsound, hlive⟩ := hlive.lowerBody hresult hy
  refine ⟨K, s', hrun, hsound, fun hflow => ?_, hsince⟩
  obtain ⟨rfl, hlive⟩ := hlive hflow
  exact ⟨rfl, hlive, hsince.grows.ret.trans hret⟩

/-- What is built of a body belongs to the declaration. -/
theorem Past.since {s : Lowering} (h : Past c f c1 decl sig) (hc : c.module.Honest)
    (hrun : Yields (lowerBody (c1.context sig) f.body) (c1.bodyStart f decl sig) () s) :
    s.builder.name = f.proto.name ∧ s.builder.finish.Fits ∧ s.module.Honest := by
  obtain ⟨hlive, hname, _, hfits⟩ := h.live hc
  obtain ⟨flow, s1, hstmts, _⟩ := yields_bind.mp hrun
  obtain ⟨K', s', hrun', _, _, hsince⟩ := h.finishes hc hstmts
  obtain rfl : s = s' := congrArg Prod.snd (hrun.symm.trans hrun')
  have hname' : s.builder.name = decl.name := hsince.grows.name
  refine ⟨hname'.trans hname, fun r hr => ?_, hlive.sound.honest.grows hsince.grows.module⟩
  obtain ⟨hparams, hret⟩ := hfits r (hname'.symm.trans hr)
  exact ⟨(congrArg (List.map Ir.Param.ty) hsince.grows.params).trans hparams,
    hsince.grows.ret.trans hret⟩

theorem honest_define (hc : c.module.Honest) (f : FunctionDecl) :
    ((define f).run.run c).2.module.Honest := by
  have hdeclare := (keeps_declare f.proto c hc).1
  have houtcome := define_outcome c f
  generalize (define f).run.run c = p at houtcome
  cases houtcome with
  | undeclared h => rwa [h] at hdeclare
  | repeated h => rwa [show (declare f.proto).run.run c = _ from h] at hdeclare
  | @failed c1 decl sig e s h hrun =>
    have hadds : Adds c1.module (lowerBody (c1.context sig) f.body) := adds_lowerBody f.body
    have hgrows := (hadds (c1.bodyStart f decl sig) (.refl _)).1
    rw [hrun] at hgrows
    exact (h.live hc).1.sound.honest.grows hgrows
  | flawed h hrun _ => exact (h.since hc hrun).2.2.removeFunction _
  | @defined c1 decl sig s h hrun _ =>
    obtain ⟨_, hfits, hhonest⟩ := h.since hc hrun
    refine hhonest.define ?_
    unfold stored
    split
    · exact hfits.optimize _
    · exact hfits

theorem Reachable.honest (h : c.Reachable) : c.module.Honest := by
  induction h with
  | start name settings => simp [Compilation.start, Module.empty, Module.Honest]
  | declare _ proto ih => exact (keeps_declare proto _ ih).1
  | define _ f ih => exact honest_define ih f
  | lowerToplevel _ stmt ih => exact (keeps_lowerToplevel stmt _ ih).1

/-- Past the declaration of a function, if its body lowers without an error: the verifier accepts
what was built exactly if the function has no result or control does not get to its end. Otherwise
the terminator of the block where control is at the end is missing, and nothing else is wrong. No
definition is given up by the verifier for another reason. -/
theorem define_verifies (hc : c.Reachable) (f : FunctionDecl) :
    (∀ c₁ decl sig flow s, Past c f c₁ decl sig →
      Yields (inFrame (lowerStmts (c₁.context sig) f.body)) (c₁.bodyStart f decl sig) flow s →
      ∃ s', Yields (lowerBody (c₁.context sig) f.body) (c₁.bodyStart f decl sig) () s' ∧
        (s'.builder.finish.verify s'.module = .ok () ↔
          sig.result = .void ∨ flow = .terminated) ∧
        (¬ (sig.result = .void ∨ flow = .terminated) → s' = s ∧
          ∃ x ∈ s.builder.body.blocks, x.id = s.builder.current ∧ x.term = none ∧
            s.builder.finish.verify s.module = .error (.unterminated x.label) ∧
            ∀ b, s.builder.terminate (.ret (some (.const (.undef sig.result.toIr)))) = .ok b →
              b.finish.verify s.module = .ok ())) ∧
    ∀ name flaw c', (define f).run.run c = (.error (.verification name flaw), c') →
      name = f.proto.name ∧ ∃ label, flaw = .unterminated label := by
  have hhonest := hc.honest
  constructor
  · intro c₁ decl sig flow s past hstmts
    obtain ⟨K, s', hrun, hsound, hlive, _⟩ := past.finishes hhonest hstmts
    refine ⟨s', hrun, ⟨fun hverify => ?_, fun hflow => (hsound hflow).verify⟩, fun hflow => ?_⟩
    · by_contra hflow
      obtain ⟨rfl, hlive, _⟩ := hlive hflow
      obtain ⟨x, _, _, _, herror⟩ := hlive.verify_current
      rw [hverify] at herror
      cases herror
    · obtain ⟨rfl, hlive, hret⟩ := hlive hflow
      obtain ⟨x, hx, hcur, hterm, herror⟩ := hlive.verify_current
      refine ⟨rfl, x, hx, hcur, hterm, herror, fun b hb => ?_⟩
      have hresult : s'.builder.ret ≠ .void :=
        hret ▸ DataType.toIr_ne_void fun hvoid => hflow (.inl hvoid)
      exact hlive.verify_ended hresult (hret ▸ Lowering.Usable.const K s' _ _) hb
  · intro name flaw c' hdefine
    have houtcome := define_outcome c f
    rw [hdefine] at houtcome
    cases houtcome with
    | undeclared h =>
      have hplain := (keeps_declare f.proto c hhonest).2 (.verification name flaw) (by rw [h])
      exact hplain.elim
    | @failed c₁ decl sig _ s h hrun =>
      have hadds : Adds c₁.module (lowerBody (c₁.context sig) f.body) := adds_lowerBody f.body
      have hplain := (hadds (c₁.bodyStart f decl sig) (.refl _)).2 (.verification name flaw)
        (by rw [hrun])
      exact hplain.elim
    | @flawed c₁ decl sig s _ past hrun hverify =>
      refine ⟨(past.since hhonest hrun).1, ?_⟩
      obtain ⟨flow, s₁, hstmts, _⟩ := yields_bind.mp hrun
      obtain ⟨K, s', hrun', hsound, hlive, _⟩ := past.finishes hhonest hstmts
      obtain rfl := congrArg Prod.snd (hrun.symm.trans hrun')
      by_cases hflow : sig.result = .void ∨ flow = .terminated
      · rw [(hsound hflow).verify] at hverify
        cases hverify
      · obtain ⟨rfl, hlive, _⟩ := hlive hflow
        obtain ⟨x, _, _, _, herror⟩ := hlive.verify_current
        rw [herror] at hverify
        exact ⟨x.label, (Except.error.inj hverify).symm⟩

/-- A function that returns its argument if that is positive, and does not say what it returns
otherwise. -/
def positive : FunctionDecl where
  proto := ⟨"positive", [⟨"n", ⟨"int", none⟩⟩], ⟨"int", none⟩⟩
  body := [.branch (.binary .greater (.variable "n") (.number (.int 0)))
    [.ret (some (.variable "n"))] .none]

/-- The compilation in which it is declared. -/
def positiveDeclared : Compilation :=
  ⟨⟨"m", [⟨"positive", [⟨"n", .i64⟩], .i64, none⟩], [], []⟩, none, {}⟩

theorem define_positive_verifies :
    ∃ decl sig s, Past (.start "m" {}) positive positiveDeclared decl sig ∧
      Yields (inFrame (lowerStmts (positiveDeclared.context sig) positive.body))
        (positiveDeclared.bodyStart positive decl sig) .continues s ∧
      ∃ x ∈ s.builder.body.blocks, x.id = s.builder.current ∧
        s.builder.finish.verify s.module = .error (.unterminated x.label) := by
  have hpast : Past (.start "m" {}) positive positiveDeclared
      ⟨"positive", [⟨"n", .i64⟩], .i64, none⟩ ⟨[.int], .int⟩ := ⟨rfl, rfl, rfl, rfl⟩
  have hflow : ((inFrame (lowerStmts (positiveDeclared.context ⟨[.int], .int⟩)
      positive.body)).run.run (positiveDeclared.bodyStart positive
      ⟨"positive", [⟨"n", .i64⟩], .i64, none⟩ ⟨[.int], .int⟩)).1 = .ok .continues := by
    decide +kernel
  obtain ⟨_, _, _, hopen⟩ := (define_verifies (.start "m" {}) positive).1 _ _ _ _ _ hpast
    (yields_of_eq_ok hflow)
  obtain ⟨_, x, hx, hcur, _, herror, _⟩ := hopen (by simp)
  exact ⟨_, _, _, hpast, yields_of_eq_ok hflow, x, hx, hcur, herror⟩

end Compilation

end SsaCompiler
