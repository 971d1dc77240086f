import SsaCompiler.Proofs.Lowering.Module

/-!
Scopes unwind. Steps that close only frames they have opened leave the frames around them alone, so
closing the frame that they ran in gives back the scope before it. Lowering binds names only in
frames that it closes again.
-/
namespace SsaCompiler

open LowerM

/-- What can be done to a scope. -/
inductive ScopeStep
  | push
  | bind (name : String) (v : TypedValue)
  | pop

namespace ScopeStep

def run (s : Scope) : ScopeStep → Scope
  | push => s.push
  | bind name v => s.bind name v
  | pop => s.pop

/-- How many frames are open behind the steps, if `n` are before them. There is no number if a step
closes a frame that was open before. -/
def openFrames? : Nat → List ScopeStep → Option Nat
  | n, [] => some n
  | n, push :: steps => openFrames? (n + 1) steps
  | n, bind _ _ :: steps => openFrames? n steps
  | 0, pop :: _ => none
  | n + 1, pop :: steps => openFrames? n steps

/-- The frames around those that the steps have opened stay. -/
theorem outer_run {n m : Nat} {steps : List ScopeStep} {s : Scope} {opened around : List Frame}
    (h : openFrames? n steps = some m) (hs : s.outer = opened ++ around) (hn : opened.length = n) :
    ∃ opened', (steps.foldl run s).outer = opened' ++ around ∧ opened'.length = m := by
  fun_induction openFrames? n steps generalizing s opened with
  | case1 n => exact ⟨opened, hs, hn.trans (Option.some.inj h)⟩
  | case2 n steps ih =>
    have hpush : s.push.outer = s.inner :: opened ++ around := by
      rw [Scope.push, hs, List.cons_append]
    exact ih h hpush (by rw [List.length_cons, hn])
  | case3 n name v steps ih => exact ih (s := s.bind name v) h hs hn
  | case4 => cases h
  | case5 n steps ih =>
    obtain ⟨f, opened, rfl⟩ := List.exists_cons_of_length_eq_add_one hn
    have hpop : s.pop.outer = opened ++ around := by rw [Scope.pop, hs, List.cons_append]
    exact ih h hpop (Nat.succ.inj hn)

theorem pop_run_push {steps : List ScopeStep} (h : openFrames? 0 steps = some 0) (s : Scope) :
    (steps.foldl run s.push).pop = s := by
  have hpush : s.push.outer = [] ++ s.inner :: s.outer := rfl
  obtain ⟨opened, houter, hnone⟩ := outer_run h hpush rfl
  rw [List.length_eq_zero_iff.mp hnone, List.nil_append] at houter
  rw [Scope.pop, houter]

end ScopeStep

/-- Lowering leaves the scope as it was: a frame is closed when what it was opened for is lowered. -/
theorem inherited_scope : Inherited fun _ x => Relating (fun s s' => s'.scope = s.scope) x := by
  refine inherited_relating (fun _ => rfl) (fun h h' => h'.trans h) (fun _ _ => rfl)
    (fun _ _ => rfl) (fun _ _ => rfl) fun {s s' names} hnames h => ?_
  have houter : s'.scope.outer = s.scope.inner :: s.scope.outer := by rw [h]; exact hnames _
  simp only [Scope.pop, houter]

/-- A frame that is closed by the matching step leaves the scope as it was, whatever was bound and
opened in it, and so do statements and blocks that are lowered. -/
theorem scopes_unwind (s : Scope) (ctx : LowerContext) :
    (∀ steps, ScopeStep.openFrames? 0 steps = some 0 →
      (steps.foldl ScopeStep.run s.push).pop = s ∧
        ∀ name, (steps.foldl ScopeStep.run s.push).pop.lookup? name = s.lookup? name) ∧
    (∀ stmt st flow st', Yields (lowerStmt ctx stmt) st flow st' → st'.scope = st.scope) ∧
    ∀ block st flow st', Yields (inFrame (lowerStmts ctx block)) st flow st' →
      st'.scope = st.scope := by
  have hcomposed := (inherited_scope.traversed ctx).composed
  refine ⟨fun steps h => ?_, fun stmt st flow st' h => hcomposed.lowerStmt stmt [] h,
    fun block st flow st' h => hcomposed.inFrame (V := []) (hcomposed.lowerStmts block []) h⟩
  have hpop := ScopeStep.pop_run_push h s
  exact ⟨hpop, fun name => by rw [hpop]⟩

/-- Two nested loops that bind the same name. -/
def shadowing : Stmt :=
  .forIn none "x" (.sequence [.number (.int 1)])
    [.forIn none "x" (.sequence [.variable "x"]) [.expr (.variable "x")]]

/-- The name of a parameter, bound again by the loops. -/
theorem shadowed_unwinds :
    let s := Scope.empty.bind "x" ⟨.param 0, .float⟩
    let steps : List ScopeStep := [.bind "x" ⟨.reg 0, .int⟩, .push, .bind "x" ⟨.reg 1, .int⟩, .pop]
    let st : Lowering := ⟨.empty "m", some (.start ⟨"f", [⟨"x", .double⟩], .void, none⟩), s⟩
    (ScopeStep.openFrames? 0 steps = some 0 ∧
      (steps.foldl ScopeStep.run s.push).pop.lookup? "x" = some ⟨.param 0, .float⟩) ∧
    (∃ st', Yields (lowerStmt ⟨true, .void⟩ shadowing) st .continues st' ∧ st'.scope = s) ∧
    ∃ st', Yields (inFrame (lowerStmts ⟨true, .void⟩ [shadowing, .ret none])) st .terminated st' ∧
      st'.scope = s := by
  intro s steps st
  obtain ⟨hsteps, hstmt, hblock⟩ := scopes_unwind s ⟨true, .void⟩
  have hopen : ScopeStep.openFrames? 0 steps = some 0 := rfl
  have hloops : ((lowerStmt ⟨true, .void⟩ shadowing).run.run st).1 = .ok .continues := by
    decide +kernel
  have hreturns : ((inFrame (lowerStmts ⟨true, .void⟩ [shadowing, .ret none])).run.run st).1 =
      .ok .terminated := by
    decide +kernel
  refine ⟨⟨hopen, (hsteps steps hopen).2 "x"⟩, ⟨_, yields_of_eq_ok hloops, ?_⟩,
    ⟨_, yields_of_eq_ok hreturns, ?_⟩⟩
  · exact hstmt _ _ _ _ (yields_of_eq_ok hloops)
  · exact hblock _ _ _ _ (yields_of_eq_ok hreturns)

end SsaCompiler
