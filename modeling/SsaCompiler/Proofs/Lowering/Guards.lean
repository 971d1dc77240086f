import SsaCompiler.Proofs.Building.Guards
import SsaCompiler.Proofs.Lowering.Traversal

/-!
Lowering with guards keeps divisions guarded. A division is lowered to a test, a branch and a new
block that divides; every other step leads to blocks that lowering appended and that do not divide.
-/
namespace SsaCompiler

open Ir LowerM
open Ir.Builder (moves_addIncoming moves_alloca moves_appendBlock moves_moveToEnd moves_phi
  moves_position moves_push moves_pushValue moves_removeBlock moves_store moves_terminate)

/-- A step that may jump to the blocks of `V` keeps divisions guarded. -/
def Guarding (V : List BlockId) {α : Type} (x : LowerM α) : Prop :=
  ∀ s a s', s.builder.Firm → (∀ v ∈ V, s.builder.Clear v) → Yields x s a s' →
    s.builder.Advances s'.builder

section Steps

variable {α β : Type} {V : List BlockId} {ctx : LowerContext}

theorem guarding_of_builder_eq {x : LowerM α}
    (hx : ∀ s a s', Yields x s a s' → s'.builder = s.builder) : Guarding V x := by
  intro s a s' hfirm _ hy
  rw [hx s a s' hy]
  exact .refl hfirm

theorem Guarding.bind {x : LowerM α} {f : α → LowerM β} (hx : Guarding V x)
    (hf : ∀ a, Guarding V (f a)) : Guarding V (x >>= f) := by
  intro s b s' hfirm hV hy
  obtain ⟨a, s1, h1, h2⟩ := yields_bind.mp hy
  have hadv := hx s a s1 hfirm hV h1
  exact hadv.trans (hf a s1 b s' hadv.firm (fun v hv => (hV v hv).advances hadv) h2)

theorem guarding_build {f : Builder → Except BuildError (α × Builder)}
    (hf : ∀ b a b', f b = .ok (a, b') → b.Firm → b.Advances b') : Guarding V (build f) := by
  intro s a s' hfirm _ hy
  obtain ⟨b, hb, rfl⟩ := of_yields_build hy
  exact hf _ _ _ hb hfirm

theorem guarding_emit {f : Builder → Except BuildError Builder}
    (hf : ∀ b b', f b = .ok b' → b.Firm → (∀ v ∈ V, b.Clear v) → b.Advances b') :
    Guarding V (emit f) := by
  intro s a s' hfirm hV hy
  obtain ⟨b, hb, rfl⟩ := of_yields_emit hy
  exact hf _ _ hb hfirm hV

theorem guarding_edit {f : Builder → Builder}
    (hf : ∀ b : Builder, b.Firm → b.Advances (f b)) : Guarding V (edit f) := by
  intro s a s' hfirm _ hy
  rw [of_yields_edit hy]
  exact hf _ hfirm

theorem advances_removeBlocks (ids : List BlockId) (b : Builder) (h : b.Firm) :
    b.Advances (ids.foldl Builder.removeBlock b) := by
  induction ids generalizing b with
  | nil => exact .refl h
  | cons id ids ih =>
    have hstep := h.advances_of_nothing (moves_removeBlock b id)
    exact hstep.trans (ih _ hstep.firm)

theorem not_appended_division {b : Builder} {op : Op} (hop : op.isDivision = false) :
    ∀ v l d, ¬ b.appended op v (.binary .fdiv l d) := by
  rintro v l d ⟨_, rfl⟩
  cases hop

theorem guarding_appendBlock {f : BlockId → LowerM α} (name : String)
    (hf : ∀ id, Guarding (id :: V) (f id)) : Guarding V (appendBlock name >>= f) := by
  intro s a s' hfirm hV hy
  obtain ⟨id, s1, h1, h2⟩ := yields_bind.mp hy
  obtain ⟨rfl, rfl⟩ := of_yields_appendBlock h1
  have hadv := hfirm.advances_of_nothing (moves_appendBlock s.builder name)
  refine hadv.trans (hf _ _ a s' (by exact hadv.firm) ?_ h2)
  intro v hv
  rcases List.mem_cons.mp hv with rfl | hv
  · exact hfirm.clear_appendBlock name
  · exact (hV v hv).advances hadv

/-- The guarded division: only the block that the test leads to by its second arm divides. -/
theorem guarding_floatDivision (hguard : ctx.guardDivision = true) (l r : Value) :
    Guarding V (floatDivision ctx l r) := by
  intro s tv s' hfirm _ hy
  obtain ⟨hoff, _⟩ | ⟨_, result, rfl, hmessage, hputs, habort, htest, hblock1, hblock2, hblock3, hbranch,
    hpos1, hcall1, hcall2, hbr1, hpos2, hdiv, hbr2, hpos3, hphi⟩ := of_yields_floatDivision hy
  · rw [hguard] at hoff
    cases hoff
  -- the test and the branch
  obtain ⟨_, rfl⟩ := yields_internString.mp hmessage
  obtain rfl := yields_declareRoutine.mp hputs
  obtain rfl := yields_declareRoutine.mp habort
  obtain ⟨b4, hfcmp, e4⟩ := of_yields_build htest
  obtain ⟨hv1, e5⟩ := of_yields_appendBlock hblock1
  obtain ⟨hv2, e6⟩ := of_yields_appendBlock hblock2
  obtain ⟨hv3, e7⟩ := of_yields_appendBlock hblock3
  obtain ⟨b8, hcondBr, e8⟩ := of_yields_emit hbranch
  subst e4 e5 e6 e7 e8 hv1 hv2 hv3
  have awaits8 := hfirm.opens hfcmp hcondBr
  -- the block that stops
  have e9 := of_yields_edit hpos1
  obtain ⟨b10, hputs, e10⟩ := of_yields_build hcall1
  obtain ⟨b11, habort, e11⟩ := of_yields_build hcall2
  obtain ⟨b12, hleave, e12⟩ := of_yields_emit hbr1
  have e13 := of_yields_edit hpos2
  subst e9 e10 e11 e12 e13
  have awaits9 := awaits8.step (moves_position b8 b4.body.nextBlock) (fun _ hend => hend.elim)
    fun _ _ _ hnew => hnew
  have awaits11 := (awaits9.step (moves_push hputs) (fun _ hend => hend.elim)
    (not_appended_division rfl)).step (moves_push habort) (fun _ hend => hend.elim)
    (not_appended_division rfl)
  have awaits13 := (awaits11.step (moves_terminate hleave)
    (by rintro _ rfl w hw; exact List.mem_singleton.mp hw) fun _ _ _ hnew => hnew).step
    (moves_position b12 (b4.body.nextBlock + 1)) (fun _ hend => hend.elim) fun _ _ _ hnew => hnew
  -- the block that divides, and the one where both meet
  obtain ⟨b14, hquotient, e14⟩ := of_yields_build hdiv
  obtain ⟨b15, hmeet, e15⟩ := of_yields_emit hbr2
  have e16 := of_yields_edit hpos3
  obtain ⟨b17, hjoin, e17⟩ := of_yields_build hphi
  subst e14 e15 e16 e17
  obtain ⟨adv14, hmerge⟩ := awaits13.divide rfl hquotient
  have adv15 := adv14.trans ((moves_terminate hmeet).advances adv14.firm
    (by rintro _ rfl; exact List.forall_mem_singleton.mpr hmerge) fun _ _ _ hnew => hnew)
  have adv16 := adv15.trans
    (adv15.firm.advances_of_nothing (moves_position b15 (b4.body.nextBlock + 2)))
  exact adv16.trans (adv16.firm.advances (moves_phi hjoin) (not_appended_division rfl))

/-- With guards, lowering keeps divisions guarded. -/
theorem traversed_guarding (hguard : ctx.guardDivision = true) :
    Traversed ctx fun V _ x => Guarding V x where
  weaken hVW hx s a s' hfirm hW hy := hx s a s' hfirm (fun v hv => hW v (hVW v hv)) hy
  pure a := guarding_of_builder_eq fun s a s' hy => by rw [(yields_pure.mp hy).2]
  throw _ := fun _ _ _ _ _ hy => absurd hy not_yields_throw
  bind := Guarding.bind
  orMissing _ _ hx s a s' hfirm hV hy := hx s a s' hfirm hV (yields_orMissing.mp hy)
  push _ _ hop _ := guarding_build fun _ _ _ hb hfirm =>
    hfirm.advances (moves_push hb) (not_appended_division hop)
  pushValue _ _ hop _ := guarding_build fun _ _ _ hb hfirm =>
    hfirm.advances (moves_pushValue hb) (not_appended_division hop)
  phi _ _ := guarding_build fun _ _ _ hb hfirm =>
    hfirm.advances (moves_phi hb) (not_appended_division rfl)
  alloca _ := guarding_build fun _ _ _ hb hfirm => hfirm.advances (moves_alloca hb)
    fun _ _ _ hnew => by cases hnew
  store _ _ := guarding_emit fun _ _ hb hfirm _ =>
    hfirm.advances (moves_store hb) (not_appended_division rfl)
  division := guarding_floatDivision hguard
  terminate t ht := guarding_emit fun _ _ hb hfirm hV => (moves_terminate hb).advances hfirm
    (by rintro _ rfl; exact fun v hv => hV v (ht v hv)) fun _ _ _ hnew => hnew
  appendBlock := guarding_appendBlock
  position {_ id} _ := guarding_edit fun b h => h.advances_of_nothing (moves_position b id)
  continueIn {_ id} _ := guarding_edit fun b h => by
    have hmove := h.advances_of_nothing (moves_moveToEnd b id)
    exact hmove.trans (hmove.firm.advances_of_nothing (moves_position _ id))
  addIncoming phi value source := guarding_edit fun b h => by
    cases phi with
    | reg r => exact h.advances_of_nothing (moves_addIncoming b r value source)
    | _ => exact .refl h
  removeBlocks _ := guarding_edit (advances_removeBlocks _)
  inFrame _ := framed_of_editScope
    (fun a => guarding_of_builder_eq fun s a s' hy => by rw [(yields_pure.mp hy).2]) Guarding.bind
    fun f => guarding_of_builder_eq fun s a s' hy => by rw [yields_editScope.mp hy, Lowering.builder_with]
  internString text := guarding_of_builder_eq fun s a s' hy => by
    rw [(yields_internString.mp hy).2, Lowering.builder_with]
  currentBlock := guarding_of_builder_eq fun s a s' hy => by rw [(yields_currentBlock.mp hy).2.1]
  signature? name := guarding_of_builder_eq fun s a s' hy => by rw [(yields_signature?.mp hy).2]
  name name := guarding_of_builder_eq fun s a s' hy => by rw [state_of_yields_variable hy]

end Steps

end SsaCompiler
