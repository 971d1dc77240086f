import SsaCompiler.Proofs.Lowering.Module

/-!
What is in the bodies of functions plays no part in lowering another one, nor in verifying it. Where
the contents of all bodies in a module are left out, a step gives the same result, and leads to the
same module with the contents left out.
-/
namespace SsaCompiler

open Ir LowerM

namespace Ir

/-- A function whose body, if there is one, is empty. -/
def Function.header (f : Function) : Function := { f with body := f.body.map fun _ => .empty }

theorem Function.isSome_body_header (f : Function) : f.header.body.isSome = f.body.isSome := by
  simp [header]

namespace Module

/-- A module in which all bodies are empty. -/
def outline (m : Module) : Module := { m with functions := m.functions.map Function.header }

variable {m : Module} {name : String} {f : Function}

theorem function?_outline : m.outline.function? name = (m.function? name).map Function.header := by
  unfold function? outline
  rw [List.find?_map]
  rfl

theorem calleeSignature?_outline : m.outline.calleeSignature? name = m.calleeSignature? name := by
  unfold calleeSignature?
  rw [function?_outline]
  cases m.function? name with
  | none => rfl
  | some f => rfl

theorem internString_outline (text : String) :
    m.outline.internString text = ((m.internString text).1, (m.internString text).2.outline) := by
  unfold internString
  rw [show m.outline.strings = m.strings from rfl]
  cases m.strings.findIdx? (· = text) with
  | none => rfl
  | some i => rfl

theorem addFunction_outline : (m.addFunction f).outline = m.outline.addFunction f.header := by
  simp [outline, addFunction]

theorem define_outline : (m.define f).outline = m.outline.define f.header := by
  have hfind : m.outline.functions.findIdx? (·.name = f.header.name) =
      m.functions.findIdx? (·.name = f.name) := by
    unfold outline
    rw [List.findIdx?_map]
    rfl
  unfold define
  rw [hfind]
  cases m.functions.findIdx? (·.name = f.name) with
  | none => exact addFunction_outline
  | some i => simp [outline, List.map_set]

/-- Of the other functions of its module, a function is verified against their signatures. -/
theorem verify_outline (f : Function) (m : Module) : f.verify m.outline = f.verify m := by
  have hexists : f.checkExists m.outline = f.checkExists m := by
    funext v
    cases v <;> rfl
  have htypes : f.operandTypes m.outline = f.operandTypes m := by
    funext vs
    induction vs with
    | nil => rfl
    | cons v vs ih => simp only [Function.operandTypes, Function.operandType, hexists, ih]
  have hop : f.checkOp m.outline = f.checkOp m := by
    funext ty op
    unfold Function.checkOp
    rw [htypes]
    cases op with
    | call callee args => simp only [calleeSignature?_outline]
    | _ => rfl
  have hinstrs : f.checkInstrs m.outline = f.checkInstrs m := by
    funext label preds past is
    induction is generalizing past with
    | nil => rfl
    | cons i is ih => simp only [Function.checkInstrs, hop, ih]
  have hblock : f.checkBlock m.outline = f.checkBlock m := by
    funext body g x
    unfold Function.checkBlock
    rw [hinstrs]
  unfold Function.verify
  rw [hblock]

end Module

end Ir

namespace Lowering

def outline (s : Lowering) : Lowering := { s with module := s.module.outline }

/-- The step does not look at what is in the bodies of the module. -/
def Outlined {α : Type} (x : LowerM α) : Prop :=
  ∀ s, x.run.run s.outline = ((x.run.run s).1, (x.run.run s).2.outline)

theorem Outlined.bind {α β : Type} {x : LowerM α} {f : α → LowerM β} (hx : Outlined x)
    (hf : ∀ a, Outlined (f a)) : Outlined (x >>= f) := by
  intro s
  obtain ⟨⟨r, s1⟩, hrun⟩ : ∃ p, x.run.run s = p := ⟨_, rfl⟩
  have hrun' : x.run.run s.outline = (r, s1.outline) := by rw [hx s, hrun]
  cases r with
  | ok a =>
    rw [run_bind_ok hrun, run_bind_ok hrun']
    exact hf a s1
  | error e => rw [run_bind_error hrun, run_bind_error hrun']

theorem Outlined.tryCatch {α : Type} {x : LowerM α} {handler : CompileError → LowerM α}
    (hx : Outlined x) (hhandler : ∀ e, Outlined (handler e)) : Outlined (tryCatch x handler) := by
  intro s
  obtain ⟨⟨r, s1⟩, hrun⟩ : ∃ p, x.run.run s = p := ⟨_, rfl⟩
  have hrun' : x.run.run s.outline = (r, s1.outline) := by rw [hx s, hrun]
  cases r with
  | ok a => rw [run_tryCatch_ok hrun, run_tryCatch_ok hrun']
  | error e =>
    rw [run_tryCatch_error hrun, run_tryCatch_error hrun']
    exact hhandler e s1

theorem outlined_build {α : Type} (f : Builder → Except BuildError (α × Builder)) :
    Outlined (build f) := by
  intro s
  cases hbuilder : s.builder? with
  | none => rw [run_build_none hbuilder, run_build_none (s := s.outline) hbuilder]
  | some b =>
    rw [run_build hbuilder, run_build (s := s.outline) hbuilder]
    cases f b with
    | ok p => rfl
    | error e => rfl

theorem outlined_signature? (name : String) : Outlined (signature? name) := by
  intro s
  change (Except.ok ((s.module.outline.function? name).bind Signature.of?), s.outline) = _
  rw [Module.function?_outline, Option.bind_map]
  rfl

theorem outlined_internString (text : String) : Outlined (internString text) := by
  intro s
  have hintern := s.module.internString_outline text
  change (Except.ok (s.module.outline.internString text).1,
    { s.outline with module := (s.module.outline.internString text).2 }) = _
  rw [hintern]
  rfl

theorem outlined_name (ctx : LowerContext) (name : String) :
    Outlined (lowerExpr ctx (.variable name)) := by
  intro s
  have hget : ∀ s, (get : LowerM Lowering).run.run s = (.ok s, s) := fun _ => rfl
  have hscope : s.outline.scope = s.scope := rfl
  simp only [lowerExpr]
  rw [run_bind_ok (hget s.outline), run_bind_ok (hget s), hscope]
  cases s.scope.lookup? name with
  | some v => rfl
  | none => rfl

theorem inherited_outlined : Inherited fun _ x => Outlined x where
  pure _ _ := rfl
  throw _ _ := rfl
  bind := .bind
  orMissing name operands hx := by
    refine .tryCatch hx fun e => ?_
    cases e <;> exact fun _ => rfl
  build := outlined_build
  inFrame _ := framed_of_editScope (fun _ _ => rfl) .bind fun _ _ => rfl
  internString := outlined_internString
  declareRoutine _ _ := rfl
  signature? := outlined_signature?
  name := outlined_name

end Lowering

end SsaCompiler
