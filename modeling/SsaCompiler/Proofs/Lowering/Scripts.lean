import SsaCompiler.Proofs.Lowering.Traversal

/-!
Lowering step by step. A script lists the steps that a computation is put together of, so that one can
tell where in a run code is emitted. A computation that emits into a block that has ended may come to
the same result as one that does not, since the first terminator of a block stays; their scripts
differ.
-/
namespace SsaCompiler

open Ir LowerM

/-- What is done to a function without adding code: a block becomes current, is moved or removed, or a
phi gets an edge. -/
inductive Rearranges : (Builder → Builder) → Prop
  | position (id : BlockId) : Rearranges (·.position id)
  | moveToEnd (id : BlockId) : Rearranges (·.moveToEnd id)
  | removeBlock (id : BlockId) : Rearranges (·.removeBlock id)
  | addIncoming (phi value : Value) (source : BlockId) : Rearranges (·.addIncoming phi value source)
  | comp {f g : Builder → Builder} (hf : Rearranges f) (hg : Rearranges g) : Rearranges fun b => g (f b)

theorem Rearranges.continueIn (id : BlockId) : Rearranges fun b => (b.moveToEnd id).position id :=
  .comp (.moveToEnd id) (.position id)

/-- What is asked of a function while it is built, beyond that there is a current block. -/
structure Demands where
  /-- The first block is the entry, and all stack slots are in it. -/
  rooted : Prop
  /-- Code is only emitted into blocks without a terminator. -/
  tidy : Prop

/-- The steps that a computation is put together of. -/
inductive Script : {α : Type} → LowerM α → Type 1
  | pure {α : Type} (a : α) : Script (pure a)
  | throw {α : Type} (e : CompileError) : Script (throw e : LowerM α)
  | bind {α β : Type} {x : LowerM α} {f : α → LowerM β} (first : Script x) (rest : ∀ a, Script (f a)) :
      Script (x >>= f)
  | orMissing {α : Type} {x : LowerM α} (name : String) (operands : List DataType) (step : Script x) :
      Script (orMissing x name operands)
  | get : Script get
  | internString (text : String) : Script (internString text)
  | declareRoutine (r : Routine) : Script (declareRoutine r)
  | editScope (f : Scope → Scope) : Script (editScope f)
  | currentBlock : Script currentBlock
  /-- An instruction or a terminator goes to the current block. -/
  | emits {α : Type} (f : Builder → Except BuildError (α × Builder)) : Script (build f)
  /-- A stack slot goes to the top of the entry block. -/
  | alloca (ty : Ty) : Script (build (·.alloca ty))
  | appendBlock (name : String) : Script (appendBlock name)
  | edit {f : Builder → Builder} (h : Rearranges f) : Script (edit f)

namespace Script

variable {α : Type}

/-- In the run from `s`, whatever its outcome, every step that builds finds a builder, code is emitted
while the current block is there, and the demands are met. -/
def Meets (k : Demands) : {α : Type} → {x : LowerM α} → Script x → Lowering → Prop
  | _, _, .bind (x := x) first rest, s =>
    first.Meets k s ∧ ∀ a s', Yields x s a s' → (rest a).Meets k s'
  | _, _, .orMissing _ _ step, s => step.Meets k s
  | _, _, .emits _, s => ∃ b y, s.builder? = some b ∧ b.body.block? b.current = some y ∧
      (k.tidy → y.term = none)
  | _, _, .alloca _, s => ∃ b, s.builder? = some b ∧ (k.rooted → b.body.entryId? = some 0)
  | _, _, .currentBlock, s | _, _, .appendBlock _, s | _, _, .edit _, s => s.builder?.isSome
  | _, _, .pure _, _ | _, _, .throw _, _ | _, _, .get, _ | _, _, .internString _, _ => True
  | _, _, .declareRoutine _, _ | _, _, .editScope _, _ => True

/-- In the run from `s`, whatever its outcome, code is only emitted while the current block is there and
has no terminator. -/
def Tidy {x : LowerM α} (t : Script x) (s : Lowering) : Prop := t.Meets ⟨False, True⟩ s

def emit (f : Builder → Except BuildError Builder) : Script (LowerM.emit f) := .emits _

def inFrame {x : LowerM α} (t : Script x) : Script (LowerM.inFrame x) :=
  .bind (.editScope _) fun _ => .bind t fun _ => .bind (.editScope _) fun _ => .pure _

end Script

end SsaCompiler
