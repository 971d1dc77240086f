import SsaCompiler.Lowering.Stmt
import SsaCompiler.Proofs.Yields

/-!
What the steps of lowering yield, and the states that they end in.
-/
namespace SsaCompiler

/-- The function under construction, or one without blocks if there is none. -/
def Lowering.builder (s : Lowering) : Ir.Builder := s.builder?.getD ⟨"", [], .void, .empty, 0⟩

@[simp] theorem Lowering.builder_mk (m : Ir.Module) (b : Ir.Builder) (scope : Scope) :
    Lowering.builder ⟨m, some b, scope⟩ = b := rfl

@[simp] theorem Lowering.builder_with (s : Lowering) (m : Ir.Module) (scope : Scope) :
    Lowering.builder ⟨m, s.builder?, scope⟩ = s.builder := rfl

theorem Lowering.builder_of_some {s : Lowering} {b : Ir.Builder} (h : s.builder? = some b) :
    s.builder = b := by
  rw [builder, h]
  rfl

theorem Lowering.builder?_eq {s : Lowering} (h : s.builder?.isSome) : s.builder? = some s.builder := by
  obtain ⟨b, hb⟩ := Option.isSome_iff_exists.mp h
  rw [builder_of_some hb, hb]

theorem Lowering.isSome_of_mem {s : Lowering} {x : Ir.Block} (h : x ∈ s.builder.body.blocks) :
    s.builder?.isSome := by
  cases hs : s.builder? with
  | none =>
    rw [builder, hs] at h
    cases h
  | some b => rfl

namespace LowerM

open Ir (Builder BlockId BuildError Routine Terminator Value)

variable {α : Type} {s s' : Lowering} {a : α} {b : Builder} {u : Unit} {v : Value} {id : BlockId}

/-- How a building step runs where there is a builder. -/
theorem run_build {f : Builder → Except BuildError (α × Builder)} (h : s.builder? = some b) :
    (build f).run.run s = match f b with
      | .ok (a, b) => (.ok a, { s with builder? := some b })
      | .error e => (.error (.build e), s) := by
  have hget : (get : LowerM Lowering).run.run s = (.ok s, s) := rfl
  unfold build
  rw [run_bind_ok hget, h]
  dsimp only
  cases f b with
  | error e => rfl
  | ok p => rfl

/-- Without a builder, nothing is built. -/
theorem run_build_none {f : Builder → Except BuildError (α × Builder)} (h : s.builder? = none) :
    (build f).run.run s = (.error (.build .noBuilder), s) := by
  have hget : (get : LowerM Lowering).run.run s = (.ok s, s) := rfl
  unfold build
  rw [run_bind_ok hget, h]
  rfl

theorem yields_build {f : Builder → Except BuildError (α × Builder)} (hs : s.builder?.isSome)
    (h : f s.builder = .ok (a, b)) : Yields (build f) s a { s with builder? := some b } := by
  rw [Yields, run_build (Lowering.builder?_eq hs), h]

theorem of_yields_build {f : Builder → Except BuildError (α × Builder)}
    (h : Yields (build f) s a s') :
    ∃ b, f s.builder = .ok (a, b) ∧ s' = { s with builder? := some b } := by
  cases hs : s.builder? with
  | none =>
    rw [Yields, run_build_none hs] at h
    cases h
  | some b =>
    rw [Yields, run_build hs] at h
    rw [Lowering.builder_of_some hs]
    cases hf : f b with
    | error e =>
      rw [hf] at h
      cases h
    | ok p =>
      rw [hf] at h
      cases h
      exact ⟨_, rfl, rfl⟩

theorem isSome_of_yields_build {f : Builder → Except BuildError (α × Builder)}
    (h : Yields (build f) s a s') : s.builder?.isSome := by
  cases hs : s.builder? with
  | none =>
    rw [Yields, run_build_none hs] at h
    cases h
  | some b => rfl

theorem yields_emit {f : Builder → Except BuildError Builder} (hs : s.builder?.isSome)
    (h : f s.builder = .ok b) : Yields (emit f) s u { s with builder? := some b } :=
  yields_build hs (by rw [h]; rfl)

theorem of_yields_emit {f : Builder → Except BuildError Builder} (h : Yields (emit f) s u s') :
    ∃ b, f s.builder = .ok b ∧ s' = { s with builder? := some b } := by
  obtain ⟨b, hb, rfl⟩ := of_yields_build h
  cases hf : f s.builder with
  | error e =>
    rw [hf] at hb
    cases hb
  | ok c =>
    rw [hf] at hb
    cases hb
    exact ⟨_, rfl, rfl⟩

theorem of_yields_appendBlock {name : String} (h : Yields (appendBlock name) s id s') :
    id = s.builder.body.nextBlock ∧
      s' = { s with builder? := some (s.builder.appendBlock name).2 } := by
  obtain ⟨b, hb, rfl⟩ := of_yields_build h
  cases hb
  exact ⟨rfl, rfl⟩

theorem of_yields_edit {f : Builder → Builder} (h : Yields (edit f) s u s') :
    s' = { s with builder? := some (f s.builder) } := by
  obtain ⟨b, hb, rfl⟩ := of_yields_build h
  cases hb
  rfl

theorem yields_currentBlock :
    Yields currentBlock s id s' ↔ id = s.builder.current ∧ s' = s ∧ s.builder?.isSome := by
  constructor
  · intro h
    have hs := isSome_of_yields_build h
    obtain ⟨b, hb, rfl⟩ := of_yields_build h
    cases hb
    exact ⟨rfl, by rw [← Lowering.builder?_eq hs], hs⟩
  · rintro ⟨rfl, rfl, hs⟩
    have hy := yields_build (f := fun b => .ok (b.current, b)) hs rfl
    rwa [← Lowering.builder?_eq hs] at hy

theorem yields_internString {text : String} :
    Yields (internString text) s v s' ↔
      v = (s.module.internString text).1 ∧
        s' = { s with module := (s.module.internString text).2 } := by
  constructor
  · intro h
    cases h
    exact ⟨rfl, rfl⟩
  · rintro ⟨rfl, rfl⟩
    rfl

theorem yields_declareRoutine {r : Routine} :
    Yields (declareRoutine r) s u s' ↔ s' = { s with module := s.module.declareRoutine r } :=
  yields_modify

theorem yields_editScope {f : Scope → Scope} :
    Yields (editScope f) s u s' ↔ s' = { s with scope := f s.scope } := yields_modify

theorem yields_inFrame {step : LowerM α} :
    Yields (inFrame step) s a s' ↔ ∃ s1,
      Yields step { s with scope := s.scope.push } a s1 ∧
        s' = { s1 with scope := s1.scope.pop } := by
  unfold inFrame
  simp only [yields_bind, yields_editScope, yields_pure]
  constructor
  · rintro ⟨_, _, rfl, a', s1, hstep, _, _, rfl, rfl, rfl⟩
    exact ⟨s1, hstep, rfl⟩
  · rintro ⟨s1, hstep, rfl⟩
    exact ⟨(), _, rfl, a, s1, hstep, (), _, rfl, rfl, rfl⟩

theorem yields_signature? {name : String} {sig : Option Signature} :
    Yields (signature? name) s sig s' ↔
      sig = (s.module.function? name).bind Signature.of? ∧ s' = s := by
  unfold signature?
  simp only [yields_bind, yields_get, yields_pure]
  constructor
  · rintro ⟨_, _, ⟨rfl, rfl⟩, rfl, rfl⟩
    exact ⟨rfl, rfl⟩
  · rintro ⟨rfl, rfl⟩
    exact ⟨_, _, ⟨rfl, rfl⟩, rfl, rfl⟩

theorem yields_orMissing {step : LowerM α} {name : String} {operands : List DataType} :
    Yields (orMissing step name operands) s a s' ↔ Yields step s a s' := by
  refine yields_tryCatch fun e s a s' h => ?_
  cases e <;> exact not_yields_throw h

/-- The steps of a guarded division of `l` by `r`, in order, and the states between them. -/
inductive DivisionSteps (l r : Value) (s : Lowering) (result : Value) (s' : Lowering) : Prop
  | intro {message isZero quotient : Value} {zeroBlock okBlock mergeBlock : BlockId}
      {w1 w2 : Option Value} {s1 s2 s3 s4 s5 s6 s7 s8 s9 s10 s11 s12 s13 s14 s15 s16 : Lowering}
      (intern : Yields (internString divisionMessage) s message s1)
      (puts : Yields (declareRoutine .puts) s1 () s2) (abort : Yields (declareRoutine .abort) s2 () s3)
      (test : Yields (build (·.fcmp .oeq r (.float .zero))) s3 isZero s4)
      (block1 : Yields (appendBlock "div.zero") s4 zeroBlock s5)
      (block2 : Yields (appendBlock "div.ok") s5 okBlock s6)
      (block3 : Yields (appendBlock "div.merge") s6 mergeBlock s7)
      (branch : Yields (condBr isZero zeroBlock okBlock) s7 () s8)
      (position1 : Yields (position zeroBlock) s8 () s9)
      (call1 : Yields (build (·.call Routine.puts.name [message] Routine.puts.ret)) s9 w1 s10)
      (call2 : Yields (build (·.call Routine.abort.name [] Routine.abort.ret)) s10 w2 s11)
      (leave1 : Yields (br mergeBlock) s11 () s12) (position2 : Yields (position okBlock) s12 () s13)
      (divide : Yields (build (·.binary .fdiv l r)) s13 quotient s14)
      (leave2 : Yields (br mergeBlock) s14 () s15)
      (position3 : Yields (position mergeBlock) s15 () s16)
      (phi : Yields (build (·.phi .double
        [(.const (.undef .double), zeroBlock), (quotient, okBlock)])) s16 result s') :
      DivisionSteps l r s result s'

/-- A division is one instruction, or goes through the steps of a guarded one. -/
theorem of_yields_floatDivision {ctx : LowerContext} {l r : Value} {tv : TypedValue}
    (h : Yields (floatDivision ctx l r) s tv s') :
    ctx.guardDivision = false ∧ Yields (arith .fdiv .float l r) s tv s' ∨
      ctx.guardDivision = true ∧ ∃ result, tv = ⟨result, .float⟩ ∧ DivisionSteps l r s result s' := by
  unfold floatDivision at h
  cases hguard : ctx.guardDivision with
  | false =>
    rw [hguard] at h
    exact .inl ⟨rfl, h⟩
  | true =>
    simp only [hguard, Bool.not_true, Bool.false_eq_true, if_false, yields_bind, yields_pure] at h
    obtain ⟨_, _, h1, _, _, h2, _, _, h3, _, _, h4, _, _, h5, _, _, h6, _, _, h7, _, _, h8, _, _, h9, _, _,
      h10, _, _, h11, _, _, h12, _, _, h13, _, _, h14, _, _, h15, _, _, h16, result, _, h17, rfl, rfl⟩ := h
    exact .inr ⟨rfl, result, rfl, h1, h2, h3, h4, h5, h6, h7, h8, h9, h10, h11, h12, h13, h14, h15, h16, h17⟩

theorem state_of_yields_variable {ctx : LowerContext} {name : String} {tv : TypedValue}
    (h : Yields (lowerExpr ctx (.variable name)) s tv s') : s' = s := by
  simp only [lowerExpr, yields_bind, yields_get] at h
  obtain ⟨_, _, ⟨rfl, rfl⟩, h⟩ := h
  split at h
  · exact (yields_pure.mp h).2
  · exact absurd h not_yields_throw

end LowerM

end SsaCompiler
