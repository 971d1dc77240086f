import SsaCompiler.Proofs.Building.Steps
import SsaCompiler.Proofs.Lowering.Traversal
import SsaCompiler.Proofs.Optimizer.Passes

/-!
Names of blocks. A block keeps its name as long as it is there, while a function is lowered and while
it is optimized, and the numbers of new blocks are new.
-/
namespace SsaCompiler

open Ir LowerM

section Steps

open Ir.Builder

variable {α β : Type} {ctx : LowerContext}

/-- The step keeps the names of blocks. -/
def Naming (x : LowerM α) : Prop :=
  ∀ s a s', Yields x s a s' → KeepsBlocks s.builder s'.builder

theorem naming_of_builder_eq {x : LowerM α}
    (hx : ∀ s a s', Yields x s a s' → s'.builder = s.builder) : Naming x := by
  intro s a s' hy
  rw [hx s a s' hy]
  exact .refl _

theorem Naming.bind {x : LowerM α} {f : α → LowerM β} (hx : Naming x) (hf : ∀ a, Naming (f a)) :
    Naming (x >>= f) := by
  intro s b s' hy
  obtain ⟨a, s1, h1, h2⟩ := yields_bind.mp hy
  exact (hx s a s1 h1).trans (hf a s1 b s' h2)

theorem naming_pure (a : α) : Naming (pure a) :=
  naming_of_builder_eq fun s a s' hy => by rw [(yields_pure.mp hy).2]

theorem naming_build {f : Builder → Except BuildError (α × Builder)}
    (hf : ∀ b a b', f b = .ok (a, b') → KeepsBlocks b b') : Naming (build f) := by
  intro s a s' hy
  obtain ⟨b, hb, rfl⟩ := of_yields_build hy
  exact hf _ _ _ hb

theorem naming_emit {f : Builder → Except BuildError Builder}
    (hf : ∀ b b', f b = .ok b' → KeepsBlocks b b') : Naming (emit f) := by
  intro s a s' hy
  obtain ⟨b, hb, rfl⟩ := of_yields_emit hy
  exact hf _ _ hb

theorem naming_edit {f : Builder → Builder} (hf : ∀ b, KeepsBlocks b (f b)) : Naming (edit f) := by
  intro s a s' hy
  rw [of_yields_edit hy]
  exact hf _

theorem naming_appendBlock (name : String) : Naming (LowerM.appendBlock name) := by
  intro s a s' hy
  obtain ⟨-, rfl⟩ := of_yields_appendBlock hy
  exact (moves_appendBlock _ name).keepsBlocks

theorem naming_position (id : BlockId) : Naming (LowerM.position id) :=
  naming_edit fun b => (moves_position b id).keepsBlocks

theorem naming_internString (text : String) : Naming (LowerM.internString text) :=
  naming_of_builder_eq fun s a s' hy => by rw [(yields_internString.mp hy).2, Lowering.builder_with]

theorem naming_declareRoutine (r : Routine) : Naming (LowerM.declareRoutine r) :=
  naming_of_builder_eq fun s a s' hy => by rw [yields_declareRoutine.mp hy, Lowering.builder_with]

theorem naming_pushValue (ty : Ty) (op : Op) : Naming (build (·.pushValue ty op)) :=
  naming_build fun _ _ _ hb => (moves_pushValue hb).keepsBlocks

theorem naming_push (ty : Ty) (op : Op) : Naming (build (·.push ty op)) :=
  naming_build fun _ _ _ hb => (moves_push hb).keepsBlocks

theorem naming_phi (ty : Ty) (incoming : List (Value × BlockId)) :
    Naming (build (·.phi ty incoming)) :=
  naming_build fun _ _ _ hb => (moves_phi hb).keepsBlocks

theorem naming_terminate (t : Terminator) : Naming (emit (·.terminate t)) :=
  naming_emit fun _ _ hb => (moves_terminate hb).keepsBlocks

theorem naming_removeBlocks (ids : List BlockId) :
    Naming (edit fun b => ids.foldl removeBlock b) := by
  refine naming_edit fun b => ?_
  induction ids generalizing b with
  | nil => exact .refl b
  | cons id ids ih => exact (moves_removeBlock b id).keepsBlocks.trans (ih _)

theorem naming_floatDivision (l r : Value) : Naming (floatDivision ctx l r) := by
  unfold floatDivision
  split
  · exact (naming_pushValue _ _).bind fun _ => naming_pure _
  · refine (naming_internString _).bind fun _ => (naming_declareRoutine _).bind fun _ =>
      (naming_declareRoutine _).bind fun _ => (naming_pushValue _ _).bind fun _ =>
      (naming_appendBlock _).bind fun _ => (naming_appendBlock _).bind fun _ =>
      (naming_appendBlock _).bind fun _ => (naming_terminate _).bind fun _ => ?_
    refine (naming_position _).bind fun _ => (naming_push _ _).bind fun _ =>
      (naming_push _ _).bind fun _ => (naming_terminate _).bind fun _ => ?_
    exact (naming_position _).bind fun _ => (naming_pushValue _ _).bind fun _ =>
      (naming_terminate _).bind fun _ => (naming_position _).bind fun _ =>
      (naming_phi _ _).bind fun _ => naming_pure _

/-- Lowering keeps the names of blocks. -/
theorem traversed_naming : Traversed ctx fun _ _ x => Naming x where
  weaken _ hx := hx
  pure := naming_pure
  throw _ := fun _ _ _ hy => absurd hy not_yields_throw
  bind := Naming.bind
  orMissing _ _ hx s a s' hy := hx s a s' (yields_orMissing.mp hy)
  push ty op _ _ := naming_push ty op
  pushValue ty op _ _ := naming_pushValue ty op
  phi := naming_phi
  alloca _ := naming_build fun _ _ _ hb => (moves_alloca hb).keepsBlocks
  store _ _ := naming_emit fun _ _ hb => (moves_store hb).keepsBlocks
  division := naming_floatDivision
  terminate t _ := naming_terminate t
  appendBlock name hf := (naming_appendBlock name).bind hf
  position {_ id} _ := naming_position id
  continueIn {_ id} _ := naming_edit fun b =>
    (moves_moveToEnd b id).keepsBlocks.trans (moves_position _ id).keepsBlocks
  addIncoming phi value source := naming_edit fun b => by
    cases phi with
    | reg r => exact (moves_addIncoming b r value source).keepsBlocks
    | _ => exact .refl b
  removeBlocks _ := naming_removeBlocks _
  inFrame _ hstep := framed_of_editScope naming_pure Naming.bind
    (fun f => naming_of_builder_eq fun s a s' hy => by
      rw [yields_editScope.mp hy, Lowering.builder_with]) hstep
  internString := naming_internString
  currentBlock := naming_of_builder_eq fun s a s' hy => by rw [(yields_currentBlock.mp hy).2.1]
  signature? name := naming_of_builder_eq fun s a s' hy => by rw [(yields_signature?.mp hy).2]
  name name := naming_of_builder_eq fun s a s' hy => by rw [state_of_yields_variable hy]

end Steps

namespace Optimize

variable {b c : Body} {f : Function} {m : Module}

/-- Every rewrite keeps the names of the blocks that stay. -/
theorem Rewrite.names (h : Rewrite b c) :
    ∀ y ∈ c.blocks, ∃ x ∈ b.blocks, x.id = y.id ∧ x.name = y.name := by
  intro y hy
  cases h with
  | substitute _ _ =>
    obtain ⟨y', hy', rfl⟩ := List.mem_map.mp hy
    obtain ⟨x, hx, rfl⟩ := List.mem_map.mp hy'
    exact ⟨x, hx, rfl, rfl⟩
  | drop _ _ =>
    obtain ⟨x, hx, rfl⟩ := List.mem_map.mp hy
    exact ⟨x, hx, rfl, rfl⟩
  | prune =>
    have hsub := (sublist_removeUnreachable (g := fun x => (x.id, x.name)) (fun _ _ => rfl)
      (foldBranches b).1).1
    rw [(map_foldBranches (fun _ _ => rfl) b).1] at hsub
    obtain ⟨x, hx, heq⟩ := List.mem_map.mp (hsub.subset (List.mem_map_of_mem hy))
    obtain ⟨hid, hname⟩ := Prod.mk.inj heq
    exact ⟨x, hx, hid, hname⟩
  | join _ =>
    obtain ⟨x, hx, _, rfl⟩ := Body.mem_blocks_joined.mp hy
    refine ⟨x, hx, Block.id_joined.symm, ?_⟩
    unfold Block.joined
    split <;> rfl

/-- Every rewrite keeps the block where control enters. -/
theorem Rewrite.entry (h : Rewrite b c) (hb : b.Regular f m) : c.entry = b.entry := by
  cases h with
  | substitute _ _ =>
    exact (Body.sameFlow_filterInstrs _ _).entry.trans (Body.sameFlow_mapOperands _ b).entry
  | drop _ _ => exact (Body.sameFlow_filterInstrs _ b).entry
  | prune =>
    exact prune_induction (Q := fun c => c.entry = b.entry) hb rfl
      fun _ _ hne hprunes heq => (hprunes.entry_eq hne).trans heq
  | join hfollow => exact hfollow.entry_eq

theorem Rewrites.names (h : Rewrites b c) :
    ∀ y ∈ c.blocks, ∃ x ∈ b.blocks, x.id = y.id ∧ x.name = y.name := by
  induction h with
  | refl => exact fun y hy => ⟨y, hy, rfl, rfl⟩
  | tail _ hstep ih =>
    intro z hz
    obtain ⟨y, hy, hid, hname⟩ := hstep.names z hz
    rw [← hid, ← hname]
    exact ih y hy

theorem Rewrites.entry (h : Rewrites b c) (hb : b.Regular f m) :
    c.Regular f m ∧ c.entry = b.entry := by
  induction h with
  | refl => exact ⟨hb, rfl⟩
  | tail _ hstep ih => exact ⟨hstep.regular ih.1, (hstep.entry ih.1).trans ih.2⟩

end Optimize

end SsaCompiler
