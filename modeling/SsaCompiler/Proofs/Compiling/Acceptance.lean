import SsaCompiler.Proofs.Compiling.Sanity
import SsaCompiler.Proofs.Lowering.Outlines

/-!
Which programs are compiled depends on neither the optimizer nor the division guard. Two compilations
of a program are followed side by side: as long as they differ only in what no step looks at, they
fail together. Main statement: with and without the optimizer the errors are the same, with and
without the guard they are the same up to the label of an unfinished block, and nothing is found to
be wrong when a compilation is finished.
-/
namespace SsaCompiler

open Ir LowerM

/-- The same error, except that a block without a terminator may have another label. -/
inductive CompileError.Alike : CompileError → CompileError → Prop
  | refl (e : CompileError) : Alike e e
  | unterminated (function label label' : String) :
      Alike (.verification function (.unterminated label))
        (.verification function (.unterminated label'))

theorem Lowering.Outlined.same {α : Type} {x : LowerM α} {s s' : Lowering}
    (hx : Lowering.Outlined x) (h : s.outline = s'.outline) :
    (x.run.run s).1 = (x.run.run s').1 ∧ (x.run.run s).2.outline = (x.run.run s').2.outline := by
  have hrun := (hx s).symm.trans ((congrArg x.run.run h).trans (hx s'))
  exact Prod.mk.inj hrun

theorem Lowering.eq_of_outline_eq {s s' : Lowering} (h : s.outline = s'.outline) :
    s.module.outline = s'.module.outline ∧ s.builder = s'.builder := by
  have hmodule := congrArg Lowering.module h
  have hbuilder := congrArg Lowering.builder h
  exact ⟨hmodule, hbuilder⟩

namespace Compilation

variable {E : CompileError → CompileError → Prop} {R : Compilation → Compilation → Prop} {α β : Type}
  {c c' c1 c1' : Compilation} {f : FunctionDecl} {decl decl' : Function} {sig : Signature}

/-- Two steps fail together, or yield the same value. -/
inductive Same (E : CompileError → CompileError → Prop) (R : Compilation → Compilation → Prop) :
    Except CompileError α × Compilation → Except CompileError α × Compilation → Prop
  | ok {a : α} {c c' : Compilation} (h : R c c') : Same E R (.ok a, c) (.ok a, c')
  | error {e e' : CompileError} {c c' : Compilation} (h : E e e') :
      Same E R (.error e, c) (.error e', c')

/-- Compilations that are related stay so, or fail together. -/
def InStep (E : CompileError → CompileError → Prop) (R : Compilation → Compilation → Prop)
    (x : CompileM α) : Prop :=
  ∀ c c', R c c' → Same E R (x.run.run c) (x.run.run c')

theorem InStep.bind {x : CompileM α} {f : α → CompileM β} (hx : InStep E R x)
    (hf : ∀ a, InStep E R (f a)) : InStep E R (x >>= f) := by
  intro c c' hR
  have hsame := hx c c' hR
  generalize hrun : x.run.run c = p at hsame
  generalize hrun' : x.run.run c' = p' at hsame
  cases hsame with
  | ok h =>
    rw [run_bind_ok hrun, run_bind_ok hrun']
    exact hf _ _ _ h
  | error h =>
    rw [run_bind_error hrun, run_bind_error hrun']
    exact .error h

theorem InStep.forM {step : α → CompileM Unit} (hstep : ∀ a, InStep E R (step a)) :
    ∀ as : List α, InStep E R (as.forM step)
  | [] => fun _ _ hR => .ok hR
  | a :: as => (hstep a).bind fun _ => InStep.forM hstep as

/-- The functions of the module without their bodies. -/
def headers (c : Compilation) : List Function := c.module.functions.map Function.header

theorem function?_headers (h : c.headers = c'.headers) (name : String) :
    (c.module.function? name).map Function.header =
      (c'.module.function? name).map Function.header := by
  have hfind : ∀ c : Compilation, c.headers.find? (·.name = name) =
      (c.module.function? name).map Function.header := by
    intro c
    unfold headers Module.function?
    rw [List.find?_map]
    rfl
  rw [← hfind, ← hfind, h]

theorem sameSignature_header {f g : Function} (h : f.header = g.header) (decl : Function) :
    f.sameSignature decl = g.sameSignature decl := by
  have hf : ∀ f : Function, f.sameSignature decl = f.header.sameSignature decl := fun _ => rfl
  rw [hf f, hf g, h]

theorem isSome_body_of_header {f g : Function} (h : f.header = g.header) :
    f.body.isSome = g.body.isSome := by
  rw [← f.isSome_body_header, h, g.isSome_body_header]

/-- A relation that declarations cannot tell apart. -/
structure Overlooked (E : CompileError → CompileError → Prop)
    (R : Compilation → Compilation → Prop) : Prop where
  refl : ∀ e, E e e
  headers : ∀ {c c'}, R c c' → c.headers = c'.headers
  addFunction : ∀ {c c'} {f : Function}, R c c' → f.Fits → f.body = none →
    R { c with module := c.module.addFunction f } { c' with module := c'.module.addFunction f }

theorem Overlooked.declare (h : Overlooked E R) (proto : Prototype) : InStep E R (declare proto) := by
  intro c c' hR
  by_cases hok : ∃ sig, Signature.resolve proto = .ok sig ∧
      conflictingRoutine? (sig.declaration proto) = none
  · obtain ⟨sig, hsig, hroutine⟩ := hok
    have hfun := function?_headers (h.headers hR) proto.name
    rw [run_declare hsig hroutine, run_declare hsig hroutine]
    cases hfound : c.module.function? proto.name with
    | none =>
      rw [hfound, Option.map_none] at hfun
      rw [Option.map_eq_none_iff.mp hfun.symm]
      exact .ok (h.addFunction hR (fits_of_conflictingRoutine? hroutine) rfl)
    | some g =>
      rw [hfound, Option.map_some] at hfun
      obtain ⟨g', hfound', hheader⟩ := Option.map_eq_some_iff.mp hfun.symm
      rw [hfound']
      dsimp only
      rw [sameSignature_header hheader]
      split
      · exact .ok hR
      · exact .error (h.refl _)
  · obtain ⟨e, hrefused⟩ := run_declare_refused hok
    rw [hrefused, hrefused]
    exact .error (h.refl e)

/-- Definitions are in step if they are so past their declarations. -/
theorem Overlooked.define (h : Overlooked E R) (f : FunctionDecl)
    (hpast : ∀ {c c' c1 c1' decl decl' sig}, R c c' → R c1 c1' → Past c f c1 decl sig →
      Past c' f c1' decl' sig → decl.header = decl'.header →
      Same E R ((define f).run.run c) ((define f).run.run c')) : InStep E R (define f) := by
  intro c c' hR
  have hdeclare := h.declare f.proto c c' hR
  rcases define_cases c f with ⟨e, c1, herror, hrun⟩ | ⟨c1, decl, hyields, hfound, hcases⟩
  · rcases define_cases c' f with ⟨e', c1', herror', hrun'⟩ | ⟨c1', decl', hyields', _⟩
    · rw [herror, herror'] at hdeclare
      rw [hrun, hrun']
      cases hdeclare with
      | error he => exact .error he
    · rw [herror, show (Compilation.declare f.proto).run.run c' = _ from hyields'] at hdeclare
      cases hdeclare
  · rcases define_cases c' f with ⟨e', c1', herror', _⟩ | ⟨c1', decl', hyields', hfound', hcases'⟩
    · rw [herror', show (Compilation.declare f.proto).run.run c = _ from hyields] at hdeclare
      cases hdeclare
    · rw [show (Compilation.declare f.proto).run.run c = _ from hyields,
        show (Compilation.declare f.proto).run.run c' = _ from hyields'] at hdeclare
      cases hdeclare with
      | ok hR1 =>
        have hfun := function?_headers (h.headers hR1) f.proto.name
        rw [hfound, hfound', Option.map_some, Option.map_some] at hfun
        have hheader := Option.some.inj hfun
        have hbody := isSome_body_of_header hheader
        rcases hcases with ⟨hsome, hrun⟩ | ⟨sig, past⟩
        · rcases hcases' with ⟨_, hrun'⟩ | ⟨sig', past'⟩
          · rw [hrun, hrun']
            exact .error (h.refl _)
          · rw [hsome, past'.bodiless] at hbody
            cases hbody
        · rcases hcases' with ⟨hsome', _⟩ | ⟨sig', past'⟩
          · rw [hsome', past.bodiless] at hbody
            cases hbody
          · obtain rfl : sig = sig' := Except.ok.inj (past.resolved.symm.trans past'.resolved)
            exact hpast hR hR1 past past' hheader

section Optimizer

/-- The same but for what is in the bodies of the module, and for whether functions are optimized. -/
structure SameOutline (c c' : Compilation) : Prop where
  module : c.module.outline = c'.module.outline
  toplevel : c.toplevel = c'.toplevel
  guard : c.settings.guardDivision = c'.settings.guardDivision

theorem overlooked_sameOutline : Overlooked Eq SameOutline where
  refl _ := rfl
  headers h := congrArg Module.functions h.module
  addFunction h _ _ := by
    refine ⟨?_, h.toplevel, h.guard⟩
    change (Module.addFunction _ _).outline = (Module.addFunction _ _).outline
    rw [Module.addFunction_outline, Module.addFunction_outline, h.module]

theorem header_stored (c : Compilation) (g : Function) : (c.stored g).header = g.header := by
  unfold stored
  split
  · cases hbody : g.body <;> simp [Function.header, Function.optimize, hbody]
  · rfl

theorem SameOutline.finalize (h : SameOutline c c') (g : Function) :
    Same Eq SameOutline ((finalize g).run.run c) ((finalize g).run.run c') := by
  have hverify : g.verify c.module = g.verify c'.module := by
    rw [← Module.verify_outline, h.module, Module.verify_outline]
  rw [run_finalize, run_finalize, hverify]
  cases g.verify c'.module with
  | error flaw => exact .error rfl
  | ok u =>
    refine .ok ⟨?_, h.toplevel, h.guard⟩
    change (c.module.define (c.stored g)).outline = (c'.module.define (c'.stored g)).outline
    rw [Module.define_outline, Module.define_outline, header_stored, header_stored, h.module]

theorem inStep_define_sameOutline (f : FunctionDecl) : InStep Eq SameOutline (define f) := by
  refine overlooked_sameOutline.define f
    fun {_ _ c1 c1' decl decl' sig} _ h1 past past' hheader => ?_
  have hctx : c1.context sig = c1'.context sig := by
    unfold context
    rw [h1.guard]
  have hstart : (c1.bodyStart f decl sig).outline = (c1'.bodyStart f decl' sig).outline := by
    have hbuilder : Builder.start decl = Builder.start decl' := by
      have hf : ∀ f : Function, Builder.start f = Builder.start f.header := fun _ => rfl
      rw [hf decl, hf decl', hheader]
    unfold bodyStart Lowering.ofFunction Lowering.outline
    rw [hbuilder, h1.module]
  have houtlined : Lowering.Outlined (lowerBody (c1'.context sig) f.body) :=
    Lowering.inherited_outlined.lowerBody f.body
  have hsame := houtlined.same hstart
  obtain ⟨⟨r, s⟩, hrun⟩ : ∃ p, (lowerBody (c1.context sig) f.body).run.run
    (c1.bodyStart f decl sig) = p := ⟨_, rfl⟩
  obtain ⟨⟨r', s'⟩, hrun'⟩ : ∃ p, (lowerBody (c1'.context sig) f.body).run.run
    (c1'.bodyStart f decl' sig) = p := ⟨_, rfl⟩
  rw [run_define past hrun, run_define past' hrun']
  rw [hctx] at hrun
  rw [hrun, hrun'] at hsame
  obtain ⟨rfl, hstate⟩ := hsame
  cases r with
  | error e => exact .error rfl
  | ok u =>
    obtain ⟨hmodule, hbuilder⟩ := Lowering.eq_of_outline_eq hstate
    dsimp only
    rw [hbuilder]
    have h2 : SameOutline { c1 with module := s.module } { c1' with module := s'.module } :=
      ⟨hmodule, h1.toplevel, h1.guard⟩
    exact h2.finalize _

theorem inStep_toplevelBuilder_sameOutline : InStep Eq SameOutline toplevelBuilder := by
  intro c c' h
  have hfun := function?_headers (overlooked_sameOutline.headers h) toplevelName
  have hsome : (c.module.function? toplevelName).isSome =
      (c'.module.function? toplevelName).isSome := by
    simpa using congrArg Option.isSome hfun
  rw [run_toplevelBuilder, run_toplevelBuilder, h.toplevel, hsome]
  cases htop : c'.toplevel with
  | some b => exact .ok h
  | none =>
    dsimp only
    split
    · exact .error rfl
    · exact .ok (htop ▸ h.toplevel ▸ overlooked_sameOutline.addFunction h fits_toplevelDecl rfl)

theorem inStep_lowerToplevel_sameOutline (stmt : Stmt) :
    InStep Eq SameOutline (lowerToplevel stmt) := by
  intro c c' h
  have hsame := inStep_toplevelBuilder_sameOutline c c' h
  generalize hb : toplevelBuilder.run.run c = p at hsame
  generalize hb' : toplevelBuilder.run.run c' = p' at hsame
  cases hsame with
  | error he =>
    rw [run_lowerToplevel_refused stmt hb, run_lowerToplevel_refused stmt hb']
    exact .error he
  | @ok b c1 c1' h1 =>
    rw [run_lowerToplevel stmt hb, run_lowerToplevel stmt hb']
    split
    · exact .ok ⟨h1.module, rfl, h1.guard⟩
    · have hstart : Lowering.outline ⟨c1.module, some b, .empty⟩ =
          Lowering.outline ⟨c1'.module, some b, .empty⟩ := by
        unfold Lowering.outline
        rw [h1.module]
      have houtlined : Lowering.Outlined (lowerStmt ⟨c1'.settings.guardDivision, .void⟩ stmt) :=
        Lowering.inherited_outlined.lowerStmt stmt
      have hstmt := houtlined.same hstart
      rw [h1.guard]
      generalize (lowerStmt ⟨c1'.settings.guardDivision, .void⟩ stmt).run.run
        ⟨c1.module, some b, .empty⟩ = p at hstmt
      generalize (lowerStmt ⟨c1'.settings.guardDivision, .void⟩ stmt).run.run
        ⟨c1'.module, some b, .empty⟩ = p' at hstmt
      obtain ⟨r, s⟩ := p
      obtain ⟨r', s'⟩ := p'
      obtain ⟨rfl, hstate⟩ := hstmt
      cases r with
      | error e => exact .error rfl
      | ok flow =>
        obtain ⟨hmodule, hbuilder⟩ := Lowering.eq_of_outline_eq hstate
        exact .ok ⟨hmodule, congrArg some hbuilder, h1.guard⟩

theorem inStep_lowerItem_sameOutline (item : Item) : InStep Eq SameOutline (lowerItem item) := by
  cases item with
  | function f => exact inStep_define_sameOutline f
  | foreign proto => exact overlooked_sameOutline.declare proto
  | statement stmt => exact inStep_lowerToplevel_sameOutline stmt

end Optimizer

section Guard

/-- The same up to the code that was generated. -/
structure Comparable (c c' : Compilation) : Prop where
  headers : c.headers = c'.headers
  toplevel : c.toplevel.map Builder.isTerminated = c'.toplevel.map Builder.isTerminated
  sane : c.Sane fun _ => True
  sane' : c'.Sane fun _ => True

theorem overlooked_comparable : Overlooked CompileError.Alike Comparable where
  refl := .refl
  headers h := h.headers
  addFunction h hf hbody := by
    refine ⟨?_, h.toplevel, h.sane.addFunction hf hbody, h.sane'.addFunction hf hbody⟩
    have hheaders := h.headers
    unfold Compilation.headers at hheaders ⊢
    change (_ ++ _ : List Function).map _ = (_ ++ _ : List Function).map _
    rw [List.map_append, List.map_append, hheaders]

/-- Names stand for the same where the headers are the same. -/
theorem names_of_headers (h : c.headers = c'.headers) (b b' : Builder) (scope : Scope) :
    Lowering.names ⟨c.module, some b, scope⟩ = Lowering.names ⟨c'.module, some b', scope⟩ := by
  have hbind : ∀ (c : Compilation) n, (c.module.function? n).bind Signature.of? =
      ((c.module.function? n).map Function.header).bind Signature.of? := by
    intro c n
    rw [Option.bind_map]
    rfl
  unfold Lowering.names
  congr 1
  funext n
  dsimp only
  rw [hbind c, hbind c', function?_headers h]

/-- What becomes of a definition that gets past its declaration, by what the rules say of its body. -/
inductive Judgement (c1 : Compilation) (f : FunctionDecl) (decl : Function) (sig : Signature) :
    Except CompileError Flow → Except CompileError Unit × Compilation → Prop
  | error {e : CompileError} {c' : Compilation} : Judgement c1 f decl sig (.error e) (.error e, c')
  | unfinished {flow : Flow} {label : String} {c' : Compilation}
      (h : ¬ (sig.result = .void ∨ flow = .terminated)) : Judgement c1 f decl sig (.ok flow)
        (.error (.verification f.proto.name (.unterminated label)), c')
  | defined {flow : Flow} {s : Lowering} (h : sig.result = .void ∨ flow = .terminated)
      (hgrows : c1.module.Grows s.module)
      (hheader : s.builder.finish.header = { decl with body := some .empty }) :
      Judgement c1 f decl sig (.ok flow)
        (.ok (), { c1 with module := s.module.define (c1.stored s.builder.finish) })

/-- The rules decide about a definition that gets past its declaration. -/
theorem Past.judged (h : Past c f c1 decl sig) (hc : c.module.Honest) :
    Judgement c1 f decl sig ((c1.bodyStart f decl sig).names.stmtsFlow sig.result f.body)
      ((define f).run.run c) := by
  have hready := (h.live hc).1.ready
  have hfollows := (Lowering.judged_stmts (c1.context sig) f.body).inFrame.follows
    ((secure_stmts f.body).inFrame.unbroken hready)
  change Lowering.Follows _ _ _ ((c1.bodyStart f decl sig).names.stmtsFlow sig.result f.body)
    at hfollows
  generalize (c1.bodyStart f decl sig).names.stmtsFlow sig.result f.body = verdict at hfollows
  cases verdict with
  | error e =>
    obtain ⟨s, hrun⟩ := hfollows
    have hbody : (lowerBody (c1.context sig) f.body).run.run (c1.bodyStart f decl sig) =
        (.error e, s) := run_bind_error hrun
    rw [run_define h hbody]
    exact .error
  | ok flow =>
    obtain ⟨flow', s, hy, rfl⟩ := hfollows
    obtain ⟨K, s', hbody, hsound, hlive, hsince⟩ := h.finishes hc hy
    rw [run_define h hbody]
    dsimp only
    rw [run_finalize]
    dsimp only
    by_cases hflow : sig.result = .void ∨ flow' = .terminated
    · rw [(hsound hflow).verify]
      refine .defined hflow hsince.grows.module ?_
      have hname : s'.builder.name = decl.name := hsince.grows.name
      have hparams : s'.builder.params = decl.params := hsince.grows.params
      have hret : s'.builder.ret = decl.ret := hsince.grows.ret
      simp [Builder.finish, Function.header, hname, hparams, hret]
    · obtain ⟨rfl, hlive, _⟩ := hlive hflow
      obtain ⟨x, _, _, _, hverify⟩ := hlive.verify_current
      have hname : s'.builder.finish.name = f.proto.name := (h.since hc hbody).1
      rw [hverify, hname]
      exact .unfinished hflow

theorem headers_define {m m' : Module} {g g' : Function}
    (hm : m.functions.map Function.header = m'.functions.map Function.header)
    (hg : g.header = g'.header) :
    (m.define g).functions.map Function.header = (m'.define g').functions.map Function.header := by
  have hfunctions : ∀ {a b : Module} (g : Function), a.functions = b.functions →
      (a.define g).functions = (b.define g).functions := by
    intro a b g hab
    unfold Module.define Module.addFunction
    rw [hab]
    split <;> rfl
  have hout := congrArg Module.functions (Module.define_outline (m := m) (f := g))
  have hout' := congrArg Module.functions (Module.define_outline (m := m') (f := g'))
  change (m.define g).functions.map _ = _ at hout
  change (m'.define g').functions.map _ = _ at hout'
  rw [hout, hout', hg]
  exact hfunctions _ hm

theorem inStep_define_comparable (f : FunctionDecl) :
    InStep CompileError.Alike Comparable (define f) := by
  refine overlooked_comparable.define f
    fun {c c' c1 c1' decl decl' sig} h h1 past past' hheader => ?_
  have hjudged := past.judged h.sane.honest
  have hjudged' := past'.judged h.sane'.honest
  have hnames : (c1.bodyStart f decl sig).names = (c1'.bodyStart f decl' sig).names :=
    names_of_headers h1.headers _ _ _
  rw [hnames] at hjudged
  have hsane : ∀ {c2}, Yields (define f) c () c2 → c2.Sane fun _ => True := fun hy =>
    (h.sane.of_define (upheld_true _) hy).1
  have hsane' : ∀ {c2}, Yields (define f) c' () c2 → c2.Sane fun _ => True := fun hy =>
    (h.sane'.of_define (upheld_true _) hy).1
  unfold Yields at hsane hsane'
  generalize (c1'.bodyStart f decl' sig).names.stmtsFlow sig.result f.body = verdict
    at hjudged hjudged'
  generalize (define f).run.run c = p at hjudged hsane
  generalize (define f).run.run c' = p' at hjudged' hsane'
  cases hjudged with
  | error =>
    cases hjudged' with
    | error => exact .error (.refl _)
  | unfinished hflow =>
    cases hjudged' with
    | unfinished _ => exact .error (.unterminated ..)
    | defined hflow' => exact absurd hflow' hflow
  | @defined flow s hflow hgrows hnew =>
    cases hjudged' with
    | unfinished hflow' => exact absurd hflow hflow'
    | @defined _ s' _ hgrows' hnew' =>
      refine .ok ⟨?_, h1.toplevel, hsane rfl, hsane' rfl⟩
      refine headers_define ?_ ?_
      · rw [hgrows.functions, hgrows'.functions]
        exact h1.headers
      · have hdecl : ({ decl with body := some .empty } : Function) =
            { decl' with body := some .empty } := by
          have hname := congrArg Function.name hheader
          have hparams := congrArg Function.params hheader
          have hret := congrArg Function.ret hheader
          simp only [Function.header] at hname hparams hret
          rw [hname, hparams, hret]
        rw [header_stored, header_stored, hnew, hnew', hdecl]

/-- The function of the statements outside of functions is begun, or refused, on both sides. -/
theorem Comparable.toplevelBuilder (h : Comparable c c') :
    (∃ e, toplevelBuilder.run.run c = (.error e, c) ∧ toplevelBuilder.run.run c' = (.error e, c')) ∨
    ∃ b b' c1 c1', toplevelBuilder.run.run c = (.ok b, c1) ∧
      toplevelBuilder.run.run c' = (.ok b', c1') ∧ Comparable c1 c1' ∧
      b.isTerminated = b'.isTerminated := by
  have hfun := function?_headers h.headers toplevelName
  have hsome : (c.module.function? toplevelName).isSome =
      (c'.module.function? toplevelName).isSome := by
    simpa using congrArg Option.isSome hfun
  have htop := h.toplevel
  rw [run_toplevelBuilder, run_toplevelBuilder, hsome]
  cases hb : c.toplevel with
  | some b =>
    rw [hb, Option.map_some] at htop
    obtain ⟨b', hb', hterm⟩ := Option.map_eq_some_iff.mp htop.symm
    rw [hb']
    exact .inr ⟨b, b', c, c', rfl, rfl, h, hterm.symm⟩
  | none =>
    rw [hb, Option.map_none] at htop
    have hb' := Option.map_eq_none_iff.mp htop.symm
    rw [hb']
    dsimp only
    split
    · exact .inl ⟨_, rfl, rfl⟩
    · refine .inr ⟨_, _, _, _, rfl, rfl, ?_, rfl⟩
      have hadd := overlooked_comparable.addFunction h fits_toplevelDecl rfl
      rwa [hb, hb'] at hadd

theorem inStep_lowerToplevel_comparable (stmt : Stmt) :
    InStep CompileError.Alike Comparable (lowerToplevel stmt) := by
  intro c c' h
  rcases h.toplevelBuilder with ⟨e, hb, hb'⟩ | ⟨b, b', c1, c1', hb, hb', h1, hterm⟩
  · rw [run_lowerToplevel_refused stmt hb, run_lowerToplevel_refused stmt hb']
    exact .error (.refl e)
  · have hout := (h.sane.of_toplevelBuilder trivial hb).2.1
    have hout' := (h.sane'.of_toplevelBuilder trivial hb').2.1
    have hsane : ∀ {c2}, (lowerToplevel stmt).run.run c = (.ok (), c2) → c2.Sane fun _ => True :=
      fun hy => (h.sane.of_lowerToplevel (upheld_true _) hy).1
    have hsane' : ∀ {c2}, (lowerToplevel stmt).run.run c' = (.ok (), c2) → c2.Sane fun _ => True :=
      fun hy => (h.sane'.of_lowerToplevel (upheld_true _) hy).1
    rw [run_lowerToplevel stmt hb] at hsane ⊢
    rw [run_lowerToplevel stmt hb'] at hsane' ⊢
    rcases hout.underway.cases with ⟨⟨K, hlive⟩, hopen⟩ | ⟨_, hended⟩
    · rcases hout'.underway.cases with ⟨⟨K', hlive'⟩, hopen'⟩ | ⟨_, hended'⟩
      · rw [hopen] at hsane ⊢
        rw [hopen'] at hsane' ⊢
        have hfollows := hlive.ready.follows_stmt ⟨c1.settings.guardDivision, .void⟩ stmt
        have hfollows' := hlive'.ready.follows_stmt ⟨c1'.settings.guardDivision, .void⟩ stmt
        rw [names_of_headers h1.headers b b' .empty] at hfollows
        dsimp only at hfollows hfollows' hsane hsane'
        generalize Names.stmtFlow _ _ _ = verdict at hfollows hfollows'
        cases verdict with
        | error e =>
          obtain ⟨s, hrun⟩ := hfollows
          obtain ⟨s', hrun'⟩ := hfollows'
          rw [hrun, hrun']
          exact .error (.refl e)
        | ok expected =>
          obtain ⟨flow, s, hy, rfl⟩ := hfollows
          obtain ⟨flow', s', hy', rfl⟩ := hfollows'
          obtain ⟨_, hgrows, hend⟩ := hout.of_lowerStmt (upheld_true _) hlive hy
          obtain ⟨_, hgrows', hend'⟩ := hout'.of_lowerStmt (upheld_true _) hlive' hy'
          rw [show StateT.run _ _ = _ from hy] at hsane ⊢
          rw [show StateT.run _ _ = _ from hy'] at hsane' ⊢
          refine .ok ⟨?_, ?_, hsane rfl, hsane' rfl⟩
          · unfold headers
            dsimp only
            rw [hgrows.functions, hgrows'.functions]
            exact h1.headers
          · exact congrArg some (hend.trans hend'.symm)
      · rw [hopen, hended'] at hterm
        cases hterm
    · rw [hended] at hterm hsane ⊢
      rw [← hterm] at hsane' ⊢
      exact .ok ⟨h1.headers, congrArg some (hended.trans hterm), hsane rfl, hsane' rfl⟩

theorem inStep_lowerItem_comparable (item : Item) :
    InStep CompileError.Alike Comparable (lowerItem item) := by
  cases item with
  | function f => exact inStep_define_comparable f
  | foreign proto => exact overlooked_comparable.declare proto
  | statement stmt => exact inStep_lowerToplevel_comparable stmt

end Guard

/-- What was accepted step by step is accepted as a whole. -/
theorem Sane.finish (h : c.Sane fun _ => True) : ∃ c' m, Yields finish c m c' := by
  obtain ⟨c1, hy, h1, _⟩ := h.of_finishToplevel (upheld_true _)
  have hrun := run_finish hy
  rw [h1.checked.discardUnused.verify] at hrun
  exact ⟨_, _, hrun⟩

theorem Overlooked.declareItem (h : Overlooked E R) (item : Item) : InStep E R (declareItem item) := by
  unfold Compilation.declareItem
  split
  · exact h.declare _
  · exact fun _ _ hR => .ok hR

/-- Compilations whose steps fail together fail together. -/
theorem Overlooked.compileItems (h : Overlooked E R) (hlower : ∀ item, InStep E R (lowerItem item))
    {name : String} {settings settings' : Settings}
    (hstart : R (.start name settings) (.start name settings')) (items : List Item)
    (e : Option ParseError) :
    (∃ m m' c c', Yields (compileItems items e) (.start name settings) m c ∧
      Yields (compileItems items e) (.start name settings') m' c') ∨
    ∃ e1 e2 c c', (compileItems items e).run.run (.start name settings) = (.error e1, c) ∧
      (compileItems items e).run.run (.start name settings') = (.error e2, c') ∧ E e1 e2 := by
  have hdeclare := InStep.forM h.declareItem items _ _ hstart
  unfold Compilation.compileItems
  generalize hrun : (items.forM Compilation.declareItem).run.run (.start name settings) = p
    at hdeclare
  generalize hrun' : (items.forM Compilation.declareItem).run.run (.start name settings') = p'
    at hdeclare
  cases hdeclare with
  | error he => exact .inr ⟨_, _, _, _, run_bind_error hrun, run_bind_error hrun', he⟩
  | @ok u c1 c1' hR =>
    rw [run_bind_ok hrun, run_bind_ok hrun']
    cases e with
    | some e => exact .inr ⟨_, _, _, _, rfl, rfl, h.refl _⟩
    | none =>
      have hlowered := InStep.forM hlower items _ _ hR
      generalize hpass : (items.forM lowerItem).run.run c1 = p at hlowered
      generalize hpass' : (items.forM lowerItem).run.run c1' = p' at hlowered
      dsimp only
      cases hlowered with
      | error he => exact .inr ⟨_, _, _, _, run_bind_error hpass, run_bind_error hpass', he⟩
      | @ok u c2 c2' hR2 =>
        obtain ⟨c3, m, hfinish⟩ := (sane_passes (upheld_true _) hrun hpass).1.finish
        obtain ⟨c3', m', hfinish'⟩ := (sane_passes (upheld_true _) hrun' hpass').1.finish
        refine .inl ⟨m, m', c3, c3', ?_, ?_⟩
        · exact yields_bind.mpr ⟨(), c1, hrun, yields_bind.mpr ⟨(), c2, hpass, hfinish⟩⟩
        · exact yields_bind.mpr ⟨(), c1', hrun', yields_bind.mpr ⟨(), c2', hpass', hfinish'⟩⟩

end Compilation

/-- A compilation works on what the parser reads. -/
theorem compile_eq (source : Source) (name : String) (settings : Settings) :
    compile source name settings =
      let p := (Parser.ofLexer (.ofSource source { strict := settings.strict })).program
      ((Compilation.compileItems p.1 p.2).run.run (.start name settings)).1 := rfl

/-- Whether a text is compiled depends on neither the optimizer nor the division guard. With and
without the optimizer a text is refused with the same error; with and without the guard it is refused
with the same error up to the label of a block without a terminator. Once all items are declared and
lowered, the module is accepted as a whole. -/
theorem compile_agrees (source : Source) (name : String) (settings : Settings) :
    ((∃ m m', compile source name { settings with optimize := true } = .ok m ∧
        compile source name { settings with optimize := false } = .ok m') ∨
      ∃ e, compile source name { settings with optimize := true } = .error e ∧
        compile source name { settings with optimize := false } = .error e) ∧
    ((∃ m m', compile source name { settings with guardDivision := true } = .ok m ∧
        compile source name { settings with guardDivision := false } = .ok m') ∨
      ∃ e e', compile source name { settings with guardDivision := true } = .error e ∧
        compile source name { settings with guardDivision := false } = .error e' ∧ e.Alike e') ∧
    ∀ (items : List Item) c c',
      Yields (items.forM Compilation.declareItem) (.start name settings) () c →
      Yields (items.forM Compilation.lowerItem) c () c' →
      ∃ c'', Yields Compilation.finishToplevel c' () c'' ∧
        c''.module.discardUnused.verify = .ok () := by
  refine ⟨?_, ?_, fun items c c' hdeclare hlower => ?_⟩
  · rw [compile_eq, compile_eq]
    have hstart : Compilation.SameOutline (.start name { settings with optimize := true })
        (.start name { settings with optimize := false }) := ⟨rfl, rfl, rfl⟩
    rcases Compilation.overlooked_sameOutline.compileItems
      Compilation.inStep_lowerItem_sameOutline hstart _ _ with
      ⟨m, m', c, c', hy, hy'⟩ | ⟨e, e', c, c', hrun, hrun', rfl⟩
    · exact .inl ⟨m, m', congrArg Prod.fst hy, congrArg Prod.fst hy'⟩
    · exact .inr ⟨e, congrArg Prod.fst hrun, congrArg Prod.fst hrun'⟩
  · rw [compile_eq, compile_eq]
    have hstart : Compilation.Comparable (.start name { settings with guardDivision := true })
        (.start name { settings with guardDivision := false }) :=
      ⟨rfl, rfl, Compilation.sane_start .., Compilation.sane_start ..⟩
    rcases Compilation.overlooked_comparable.compileItems
      Compilation.inStep_lowerItem_comparable hstart _ _ with
      ⟨m, m', c, c', hy, hy'⟩ | ⟨e, e', c, c', hrun, hrun', halike⟩
    · exact .inl ⟨m, m', congrArg Prod.fst hy, congrArg Prod.fst hy'⟩
    · exact .inr ⟨e, e', congrArg Prod.fst hrun, congrArg Prod.fst hrun', halike⟩
  · have hsane := (Compilation.sane_passes (Compilation.upheld_true _) hdeclare hlower).1
    obtain ⟨c'', hy, h'', _⟩ := hsane.of_finishToplevel (Compilation.upheld_true _)
    exact ⟨c'', hy, h''.checked.discardUnused.verify⟩

end SsaCompiler
