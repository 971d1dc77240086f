import SsaCompiler.Proofs.Compiling.Histories
import SsaCompiler.Proofs.Compiling.Order
import SsaCompiler.Proofs.Lowering.Emission

/-!
Calls never break the rules of building, in whatever order they come and whatever failed before. A
statement outside of functions that fails leaves a function that one can go on with. Renumbering
strings looks up nothing but the numbers that it has collected.
-/
namespace SsaCompiler

open Ir LowerM

namespace Compilation

variable {c c1 : Compilation}

/-- The function of the statements outside of functions can be lowered into. -/
def Stands (c : Compilation) : Prop := ∀ b, c.toplevel = some b → b.Standing

theorem Stands.withModule (h : c.Stands) (m : Module) : Stands { c with module := m } := h

/-- A call has not broken the rules of building, and one can go on behind it. -/
structure Steady {α : Type} (p : Except CompileError α × Compilation) : Prop where
  sound : ∀ e, p.1 = .error e → ∀ broken, e ≠ .build broken
  stands : p.2.Stands

theorem Steady.ok {α : Type} (h : c.Stands) (a : α) : Steady (.ok a, c) :=
  ⟨fun _ heq => by simp at heq, h⟩

theorem Steady.error {α : Type} {e : CompileError} (h : c.Stands) (he : ∀ broken, e ≠ .build broken) :
    Steady ((.error e : Except CompileError α), c) := by
  refine ⟨fun e' heq => ?_, h⟩
  rw [← Except.error.inj heq]
  exact he

theorem Stands.declare (h : c.Stands) (proto : Prototype) : Steady ((declare proto).run.run c) := by
  cases hsig : Signature.resolve proto with
  | error t =>
    have hrun : (Compilation.declare proto).run.run c = (.error (.unsupported t), c) := by
      unfold Compilation.declare resolve
      rw [hsig]
      rfl
    rw [hrun]
    exact .error h (by simp)
  | ok sig =>
    cases hroutine : conflictingRoutine? (sig.declaration proto) with
    | some r =>
      have hrun : (Compilation.declare proto).run.run c = (.error (.redefinition r.name), c) := by
        unfold Compilation.declare
        rw [run_bind_ok (run_resolve hsig)]
        dsimp only
        rw [hroutine]
        rfl
      rw [hrun]
      exact .error h (by simp)
    | none =>
      rw [run_declare hsig hroutine]
      split
      · split
        · exact .ok h ()
        · exact .error h (by simp)
      · exact .ok (h.withModule _) ()

theorem Stands.finalize (h : c.Stands) (f : Function) : Steady ((finalize f).run.run c) := by
  rw [run_finalize]
  split
  · exact .error (h.withModule _) (by simp)
  · exact .ok (h.withModule _) ()

theorem Stands.define (h : c.Stands) (f : FunctionDecl) : Steady ((define f).run.run c) := by
  have hdeclare := h.declare f.proto
  obtain ⟨e, c1, hrun, hdefine⟩ | ⟨c1, decl, hy, _, ⟨_, hdefine⟩ | ⟨sig, past⟩⟩ := define_cases c f
  · rw [hdefine, ← hrun]
    exact hdeclare
  · rw [hy] at hdeclare
    rw [hdefine]
    exact .error hdeclare.stands (by simp)
  · rw [past.declared] at hdeclare
    obtain ⟨⟨r, s⟩, hrun⟩ : ∃ p, (lowerBody (c1.context sig) f.body).run.run
      (c1.bodyStart f decl sig) = p := ⟨_, rfl⟩
    have hstart : (Builder.start decl).Working ⟨True, False⟩ := Builder.working_start decl
    obtain ⟨_, b', _, hends⟩ := hstart.lowerBody (c1.context sig) f.body (c1.bodyStart f decl sig) rfl
    rw [hrun] at hends
    rw [run_define past hrun]
    cases r with
    | error e => exact .error (hdeclare.stands.withModule _) hends.2
    | ok u => exact (hdeclare.stands.withModule _).finalize _

theorem Stands.toplevelBuilder (h : c.Stands) : Steady (toplevelBuilder.run.run c) ∧
    ∀ b c1, toplevelBuilder.run.run c = (.ok b, c1) → b.Standing := by
  rw [run_toplevelBuilder]
  cases htop : c.toplevel with
  | some b =>
    refine ⟨.ok h b, ?_⟩
    rintro _ _ ⟨⟩
    exact h b htop
  | none =>
    dsimp only
    split
    · refine ⟨.error h (by simp), ?_⟩
      rintro _ _ ⟨⟩
    · refine ⟨htop ▸ .ok (h.withModule _) _, ?_⟩
      rintro _ _ ⟨⟩
      exact (Builder.working_start _).standing

/-- A statement that fails leaves what was made of it, and one can go on from there. -/
theorem Stands.lowerToplevel (h : c.Stands) (stmt : Stmt) :
    Steady ((lowerToplevel stmt).run.run c) := by
  obtain ⟨hsteady, hstanding⟩ := h.toplevelBuilder
  obtain ⟨⟨r, c1⟩, hrun⟩ : ∃ p, Compilation.toplevelBuilder.run.run c = p := ⟨_, rfl⟩
  rw [hrun] at hsteady
  cases r with
  | error e =>
    rw [run_lowerToplevel_refused stmt hrun]
    exact .error hsteady.stands (hsteady.sound e rfl)
  | ok b =>
    have hb := hstanding b c1 hrun
    have htop : ∀ {m : Module} {b : Builder}, b.Standing →
        Stands { c1 with module := m, toplevel := some b } := by
      rintro m b hb _ ⟨⟩
      exact hb
    rw [run_lowerToplevel stmt hrun]
    split
    · exact .ok (htop hb) ()
    · have hsecure : Secure id (stmtScript ⟨c1.settings.guardDivision, .void⟩ stmt) := secure_stmt stmt
      obtain ⟨_, b', hb', hends⟩ := hsecure _ _ hb.working ⟨c1.module, some b, .empty⟩ rfl
      obtain ⟨⟨r, s⟩, hstmt⟩ : ∃ p, (lowerStmt ⟨c1.settings.guardDivision, .void⟩ stmt).run.run
        ⟨c1.module, some b, .empty⟩ = p := ⟨_, rfl⟩
      rw [hstmt] at hb' hends ⊢
      dsimp only at hb' ⊢
      rw [Lowering.builder_of_some hb']
      cases r with
      | error e => exact .error (htop hends.1.standing) hends.2
      | ok flow => exact .ok (htop hends.standing) ()

theorem Stands.lowerItem (h : c.Stands) (item : Item) : Steady ((lowerItem item).run.run c) := by
  cases item with
  | function f => exact h.define f
  | foreign proto => exact h.declare proto
  | statement stmt => exact h.lowerToplevel stmt

theorem stands_after (h : c.Stands) (items : List Item) : (c.after items).Stands := by
  induction items using List.reverseRecOn with
  | nil => exact h
  | append_singleton items item ih =>
    rw [after_concat]
    exact (ih.lowerItem item).stands

theorem Stands.finishToplevel (h : c.Stands) : Steady (finishToplevel.run.run c) := by
  rw [run_finishToplevel]
  cases htop : c.toplevel with
  | none => exact .ok h ()
  | some b =>
    obtain ⟨b', hterm, _⟩ := Builder.exists_terminate (h b htop).current (.ret none)
    have hnone : Stands { c with toplevel := none } := fun _ heq => by cases heq
    dsimp only
    rw [hterm]
    exact hnone.finalize _

theorem Stands.finish (h : c.Stands) : Steady (finish.run.run c) := by
  have hsteady := h.finishToplevel
  obtain ⟨⟨r, c1⟩, hrun⟩ : ∃ p, Compilation.finishToplevel.run.run c = p := ⟨_, rfl⟩
  rw [hrun] at hsteady
  cases r with
  | error e =>
    have hfinish : Compilation.finish.run.run c = (.error e, c1) := by
      unfold Compilation.finish
      rw [run_bind_error hrun]
    rw [hfinish]
    exact .error hsteady.stands (hsteady.sound e rfl)
  | ok u =>
    rw [run_finish hrun]
    split
    · exact .error (hsteady.stands.withModule _) (by simp)
    · exact .ok (hsteady.stands.withModule _) _

end Compilation

/-- Strings are renumbered by a table of the numbers that operands refer to. It does not matter what the
table says of other numbers. -/
theorem Ir.Module.functions_discardUnused (m : Module) (table : Value → Value)
    (htable : ∀ v, (∀ i, v = .global i → i ∈ m.referenced) → table v = renumber m.referenced v) :
    m.discardUnused.functions =
      m.functions.map fun f => { f with body := f.body.map (Body.mapOperands table) } := by
  refine List.map_congr_left fun f hf => ?_
  cases hbody : f.body with
  | none => rfl
  | some b =>
    have hb : b.mapOperands (renumber m.referenced) = b.mapOperands table := by
      refine Body.mapOperands_congr fun v hv => (htable v fun i hi => ?_).symm
      exact mem_referenced.mpr ⟨f, hf, b, hbody, hi ▸ hv⟩
    simp only [Option.map_some, hb]

namespace Compilation

/-- Whatever calls come before, successful or not: no call breaks the rules of building, and neither
does finishing the module. While a statement is lowered behind them outside of functions, or the body
of any function, every step finds a builder, code is emitted while the current block is there, and
slots go to the top of the entry, which is the first block. A builder is left whatever the outcome,
and in the function of the statements outside of functions, as it was left, and in any other
function that is lowered, there is a current block, the entry is the first block, and the stack slots
are in it. Every string that an operand refers to has an entry in the table for renumbering, and no
other entry is looked up. -/
theorem after_builds (name : String) (settings : Settings) (items : List Item) :
    let c := (start name settings).after items
    (∀ item broken, ((lowerItem item).run.run c).1 ≠ .error (.build broken)) ∧
    (∀ broken, (finish.run.run c).1 ≠ .error (.build broken)) ∧
    (∀ b, c.toplevel = some b → b.Standing ∧ ∀ ctx stmt scope,
      (stmtScript ctx stmt).Meets ⟨True, False⟩ ⟨c.module, some b, scope⟩) ∧
    (∀ decl scope ctx stmts, let s : Lowering := ⟨c.module, some (.start decl), scope⟩
      (bodyScript ctx stmts).Meets ⟨True, False⟩ s ∧
      ∃ b, ((lowerBody ctx stmts).run.run s).2.builder? = some b ∧ b.Standing) ∧
    let m := (finishToplevel.run.run c).2.module
    (∀ body ∈ m.bodies, ∀ i, .global i ∈ body.operands → i ∈ m.referenced) ∧
    ∀ table : Value → Value,
      (∀ v, (∀ i, v = .global i → i ∈ m.referenced) → table v = Module.renumber m.referenced v) →
      m.discardUnused.functions =
        m.functions.map fun f => { f with body := f.body.map (Body.mapOperands table) } := by
  have hc : Stands ((start name settings).after items) :=
    stands_after (fun _ heq => by cases heq) items
  refine ⟨fun item broken heq => ?_, fun broken heq => ?_, fun b hb => ⟨hc b hb, fun ctx stmt scope => ?_⟩,
    fun decl scope ctx stmts => ?_, ?_, ?_⟩
  · exact (hc.lowerItem item).sound _ heq broken rfl
  · exact hc.finish.sound _ heq broken rfl
  · exact (secure_stmt stmt _ _ (hc b hb).working _ rfl).1
  · have hsafe := (Builder.working_start (k := ⟨True, False⟩) decl).lowerBody ctx stmts
    exact ⟨(hsafe _ rfl).1, hsafe.standing rfl⟩
  · intro body hbody i hi
    obtain ⟨f, hf, hb⟩ := List.mem_filterMap.mp hbody
    exact Module.mem_referenced.mpr ⟨f, hf, body, hb, hi⟩
  · exact Module.functions_discardUnused _

/-- A branch that fails inside, behind a sequence on the stack. -/
def interrupted : Stmt :=
  .branch (.bool true) [.expr (.sequence [.number (.int 7)]), .expr (.variable "x")] .none

/-- The next statement would go on inside of the branch. -/
theorem interrupted_builds :
    let c := (start "m" {}).after [.statement interrupted]
    ((lowerToplevel interrupted).run.run (start "m" {})).1 = .error (.undefined "x") ∧
    ∃ b, c.toplevel = some b ∧ b.current = 1 ∧ b.Standing ∧
      (stmtScript ⟨true, .void⟩ interrupted).Meets ⟨True, False⟩ ⟨c.module, some b, .empty⟩ ∧
      ∀ item broken, ((lowerItem item).run.run c).1 ≠ .error (.build broken) := by
  have hcalls := after_builds "m" {} [.statement interrupted]
  have hleft : ((start "m" {}).after [.statement interrupted]).toplevel.map (·.current) = some 1 := by
    decide +kernel
  obtain ⟨b, hb, hcur⟩ := Option.map_eq_some_iff.mp hleft
  obtain ⟨hstanding, hmeets⟩ := hcalls.2.2.1 b hb
  exact ⟨by decide +kernel, b, hb, hcur, hstanding, hmeets _ _ _, hcalls.1⟩

end Compilation

end SsaCompiler
