import SsaCompiler.Proofs.Building.Layout
import SsaCompiler.Proofs.Lowering.Signatures
import SsaCompiler.Proofs.Lowering.Yields

/-!
States in which code is emitted. The current block is open, everything in scope may be used in it,
and the function under construction is sound. Straight-line code leads from such a state to the
next.
-/
namespace SsaCompiler

open Ir LowerM

namespace Lowering

/-- `v` has type `ty` and may be used at the end of the block `place`. -/
structure Usable (K : Ways) (s : Lowering) (place : BlockId) (v : Value) (ty : Ty) : Prop where
  has : s.builder.Has s.module v ty
  known : ∀ r, v = .reg r → ∃ w, K place w ∧ s.builder.body.Home r w

/-- The value of an expression may be used at the end of the block `place`. -/
structure Holds (K : Ways) (s : Lowering) (place : BlockId) (tv : TypedValue) : Prop
    extends Usable K s place tv.value tv.type.toIr where
  proper : tv.type.Proper

/-- Everything in scope may be used at the end of the block `place`. -/
def InScope (K : Ways) (s : Lowering) (place : BlockId) : Prop :=
  ∀ frame ∈ s.scope.inner :: s.scope.outer, ∀ p ∈ frame, s.Holds K place p.2

abbrev Grows (touched extended entered : List BlockId) (K : Ways) (s : Lowering) (K' : Ways)
    (s' : Lowering) : Prop :=
  Builder.Grows touched extended entered K s.builder s.module K' s'.builder s'.module

/-- Code may be emitted. The blocks of `open_` are unfinished beside the current one. -/
structure Live (K : Ways) (open_ : List BlockId) (s : Lowering) : Prop where
  sound : s.builder.Sound K (s.builder.current :: open_) s.module
  isOpen : ∃ x ∈ s.builder.body.blocks, x.id = s.builder.current ∧ x.term = none
  scope : s.InScope K s.builder.current

/-- Of the old blocks only the current one was extended. -/
structure Since (K : Ways) (s : Lowering) (K' : Ways) (s' : Lowering) : Prop where
  grows : Grows [] [s.builder.current] [] K s K' s'
  moved : s'.builder.current = s.builder.current ∨
    s.builder.body.nextBlock ≤ s'.builder.current
  scope : s'.scope = s.scope

/-- Code was emitted at the end of the current block, possibly up to a new block. What was known at
the end of the block is still known. -/
structure Onward (K : Ways) (s : Lowering) (K' : Ways) (s' : Lowering) : Prop
    extends Since K s K' s' where
  above : ∀ d, K s.builder.current d → K' s'.builder.current d

/-- Code was emitted that gives `tv`. -/
def Emits (open_ : List BlockId) (K : Ways) (s s' : Lowering) (tv : TypedValue) : Prop :=
  ∃ K', s'.Live K' open_ ∧ s.Onward K K' s' ∧ s'.Holds K' s'.builder.current tv

variable {K K' K'' : Ways} {open_ : List BlockId} {s s' s'' : Lowering} {v : Value} {ty : Ty}
  {T E P : List BlockId} {place place' : BlockId}

theorem Usable.const (K : Ways) (s : Lowering) (place : BlockId) (c : Constant) :
    s.Usable K place (.const c) c.ty := ⟨.const c, fun _ h => nomatch h⟩

/-- What is usable stays so while the function grows, wherever at least as much is known. -/
theorem Usable.grows (hv : s.Usable K place v ty) (h : Grows T E P K s K' s')
    (hplace : ∀ d, K place d → K' place' d) : s'.Usable K' place' v ty := by
  refine ⟨hv.has.widens h.toWidens, fun r hr => ?_⟩
  obtain ⟨w, hw, hhome⟩ := hv.known r hr
  exact ⟨w, hplace w hw, h.home r w hhome⟩

theorem Holds.grows {tv : TypedValue} (hv : s.Holds K place tv) (h : Grows T E P K s K' s')
    (hplace : ∀ d, K place d → K' place' d) : s'.Holds K' place' tv :=
  ⟨hv.toUsable.grows h hplace, hv.proper⟩

theorem Holds.rescope {tv : TypedValue} (hv : s.Holds K place tv) (scope : Scope) :
    Holds K { s with scope } place tv :=
  hv.grows (T := []) (E := []) (P := []) (Builder.Grows.refl K _ _) fun _ hd => hd

theorem InScope.grows (hscope : s.InScope K place) (h : Grows T E P K s K' s')
    (hplace : ∀ d, K place d → K' place' d) (heq : s'.scope = s.scope) :
    s'.InScope K' place' := by
  intro frame hframe p hp
  rw [heq] at hframe
  exact (hscope frame hframe p hp).grows h hplace

theorem InScope.lookup {name : String} {tv : TypedValue} (hscope : s.InScope K place)
    (h : s.scope.lookup? name = some tv) : s.Holds K place tv := by
  obtain ⟨frame, hframe, hlook⟩ := List.exists_of_findSome?_eq_some h
  obtain ⟨l1, l2, heq, _⟩ := List.lookup_eq_some_iff.mp hlook
  exact hscope frame hframe (name, tv) (by simp [heq])

theorem Since.refl (K : Ways) (s : Lowering) : s.Since K K s := ⟨.refl K _ _, .inl rfl, rfl⟩

theorem current_ne_of_moved (h : s'.builder.current = s.builder.current ∨
      s.builder.body.nextBlock ≤ s'.builder.current)
    (hlt : place < s.builder.body.nextBlock) (hne : place ≠ s.builder.current) :
    place ≠ s'.builder.current := by
  rcases h with heq | hle
  · rwa [heq]
  · exact Nat.ne_of_lt (Nat.lt_of_lt_of_le hlt hle)

/-- Building does not go on in an old block other than the current one. -/
theorem Since.current_ne (h : s.Since K K' s') (hlt : place < s.builder.body.nextBlock)
    (hne : place ≠ s.builder.current) : place ≠ s'.builder.current :=
  current_ne_of_moved h.moved hlt hne

/-- A change that affects only the current block of `s` and blocks made since. -/
theorem Since.step (h : s.Since K K' s') (hs : s.Live K open_) (hg : Grows T E P K' s' K'' s'')
    (hT : ∀ v ∈ T, s.builder.body.nextBlock ≤ v)
    (hE : ∀ v ∈ E, v = s.builder.current ∨ s.builder.body.nextBlock ≤ v)
    (hP : ∀ v ∈ P, s.builder.body.nextBlock ≤ v)
    (hmoved : s''.builder.current = s.builder.current ∨
      s.builder.body.nextBlock ≤ s''.builder.current)
    (hscope : s''.scope = s'.scope) : s.Since K K'' s'' := by
  refine ⟨h.grows.trans hg hs.sound.fresh (fun v hv => .inr (hT v hv)) (fun v hv => ?_)
    (fun v hv => .inr (hP v hv)), hmoved, hscope.trans h.scope⟩
  rw [List.mem_singleton]
  exact (hE v hv).imp_right .inr

theorem Since.moved_trans (h : s.Since K K' s') (h' : s''.builder.current = s'.builder.current ∨
      s'.builder.body.nextBlock ≤ s''.builder.current) :
    s''.builder.current = s.builder.current ∨
      s.builder.body.nextBlock ≤ s''.builder.current := by
  rcases h' with heq | hle
  · exact heq ▸ h.moved
  · exact .inr (h.grows.next.trans hle)

theorem Since.trans (h : s.Since K K' s') (h' : s'.Since K' K'' s'') (hs : s.Live K open_) :
    s.Since K K'' s'' :=
  h.step hs h'.grows (by simp) (by simpa using h.moved) (by simp) (h.moved_trans h'.moved) h'.scope

theorem Onward.refl (K : Ways) (s : Lowering) : s.Onward K K s := ⟨.refl K s, fun _ h => h⟩

theorem Onward.trans (h : s.Onward K K' s') (h' : s'.Onward K' K'' s'') (hs : s.Live K open_) :
    s.Onward K K'' s'' :=
  ⟨h.toSince.trans h'.toSince hs, fun d hd => h'.above d (h.above d hd)⟩

theorem Usable.onward (hv : s.Usable K s.builder.current v ty) (h : s.Onward K K' s') :
    s'.Usable K' s'.builder.current v ty := hv.grows h.grows h.above

theorem Holds.onward {tv : TypedValue} (hv : s.Holds K s.builder.current tv)
    (h : s.Onward K K' s') : s'.Holds K' s'.builder.current tv := hv.grows h.grows h.above

theorem Emits.of_onward {tv : TypedValue} (h : s.Onward K K' s') (h' : Emits open_ K' s' s'' tv)
    (hs : s.Live K open_) : Emits open_ K s s'' tv := by
  obtain ⟨K'', hlive, honward, hholds⟩ := h'
  exact ⟨K'', hlive, h.trans honward hs, hholds⟩

namespace Live

theorem mem_ids (h : s.Live K open_) : s.builder.current ∈ s.builder.body.ids := by
  obtain ⟨x, hx, hid, _⟩ := h.isOpen
  exact hid ▸ Body.id_mem_ids hx

theorem current_lt (h : s.Live K open_) : s.builder.current < s.builder.body.nextBlock :=
  h.sound.fresh _ h.mem_ids

theorem mono (h : s.Live K open_) {open_' : List BlockId} (hsub : ∀ v ∈ open_, v ∈ open_') :
    s.Live K open_' := by
  refine ⟨h.sound.mono fun v hv => ?_, h.isOpen, h.scope⟩
  rcases List.mem_cons.mp hv with rfl | hv
  · exact List.mem_cons_self
  · exact List.mem_cons_of_mem _ (hsub v hv)

/-- Code may be emitted after code was emitted. -/
theorem onward (h : s.Live K open_) (hon : s.Onward K K' s') {open_' : List BlockId}
    (hsound : s'.builder.Sound K' (s'.builder.current :: open_') s'.module)
    (hopen : ∃ x ∈ s'.builder.body.blocks, x.id = s'.builder.current ∧ x.term = none) :
    s'.Live K' open_' := ⟨hsound, hopen, h.scope.grows hon.grows hon.above hon.scope⟩

/-- What is known at the end of the current block is usable behind all its instructions. -/
theorem usable_here (h : s.Live K open_) {x : Block} (hx : x ∈ s.builder.body.blocks)
    (hcur : x.id = s.builder.current) {r : Reg}
    (hr : ∃ w, K s.builder.current w ∧ s.builder.body.Home r w) :
    r ∈ definedBy x.instrs ∨ ∃ w, K x.id w ∧ w ≠ x.id ∧ s.builder.body.Home r w := by
  obtain ⟨w, hw, hhome⟩ := hr
  by_cases hid : w = x.id
  · subst hid
    exact .inl ((h.sound.home_iff hx).mp hhome)
  · exact .inr ⟨w, hcur ▸ hw, hid, hhome⟩

theorem isOpen_adds {x : Block} {pre post : List Instr} {i : Instr} {b' : Builder}
    (h : s.Live K open_) (hadds : s.builder.Adds x pre i post b') :
    ∃ y ∈ b'.body.blocks, y.id = b'.current ∧ y.term = none := by
  obtain ⟨y, hy, hcur, hterm⟩ := h.isOpen
  rw [hadds.current]
  by_cases hid : y.id = x.id
  · obtain rfl := h.sound.eq_block hy hadds.mem hid
    exact ⟨_, (hadds.replaces.mem _).mpr (.inr rfl), hcur, hterm⟩
  · exact ⟨y, (hadds.replaces.mem y).mpr (.inl ⟨hy, hid⟩), hcur, hterm⟩

/-- A well-typed operation on usable operands may be appended. -/
theorem push (h : s.Live K open_) {op : Op} {res : Option Value}
    (hy : Yields (build (·.push ty op)) s res s')
    (hfits : s.builder.OpFits s.module ty op) (hplain : op.isPhi = false)
    (huses : ∀ v ∈ op.operands, ∃ t, s.Usable K s.builder.current v t) :
    s'.Live K open_ ∧ s.Onward K K s' ∧ s'.builder.current = s.builder.current ∧
      (ty = .void ∧ res = none ∨
        ∃ v, res = some v ∧ s'.Usable K s'.builder.current v ty) := by
  obtain ⟨b', hpush, rfl⟩ := of_yields_build hy
  obtain ⟨x, hx, hcur, _⟩ := h.isOpen
  obtain ⟨hres, hadds⟩ := Builder.push_eq_ok h.sound.ids hx hcur hpush
  have hready : Builder.Ready K s.builder s.module x x.instrs (s.builder.newInstr ty op) := by
    refine ⟨hfits, fun _ r hr => ?_, fun es hop => ?_, fun es hop => ?_, fun _ => hplain⟩
    · obtain ⟨t, hr⟩ := huses _ hr
      exact h.usable_here hx hcur (hr.known r rfl)
    · exact absurd hop (Op.ne_phi hplain es)
    · exact absurd hop (Op.ne_phi hplain es)
  have hfirst : PhisFirst (x.instrs ++ [s.builder.newInstr ty op]) := by
    refine List.pairwise_append.mpr ⟨(h.sound.blocks x hx).phisFirst, List.pairwise_singleton _ _,
      fun i _ j hj hphi => ?_⟩
    rw [List.mem_singleton.mp hj] at hphi
    exact absurd hphi (by simp [Builder.newInstr, hplain])
  have hsound := hadds.sound h.sound hready hfirst
  have hon : s.Onward K K { s with builder? := some b' } := by
    refine ⟨⟨hcur ▸ hadds.grows_append h.sound.toSteady hplain, .inl hadds.current, rfl⟩, ?_⟩
    rw [builder_mk, hadds.current]
    exact fun d hd => hd
  rw [← hadds.current] at hsound
  refine ⟨h.onward hon hsound (h.isOpen_adds hadds), hon, hadds.current, ?_⟩
  by_cases hty : ty = .void
  · exact .inl ⟨hty, by simp [hres, Builder.newInstr, hty]⟩
  · have hnew : (s.builder.newInstr ty op).result = some s.builder.body.regTypes.length := by
      simp [Builder.newInstr, hty]
    refine .inr ⟨.reg s.builder.body.regTypes.length, by simp [hres, hnew],
      .reg (hadds.regType hnew), fun r hr => ?_⟩
    cases hr
    refine ⟨x.id, ?_, hadds.replaces.home_iff.mpr (.inr ⟨rfl, ?_⟩)⟩
    · change K b'.current x.id
      rw [hadds.current, hcur]
      exact h.sound.selfKnown _ h.mem_ids
    · simp [definedBy_cons, hnew]

/-- The result of an operation that has one is usable. -/
theorem pushValue (h : s.Live K open_) {op : Op} (hy : Yields (build (·.pushValue ty op)) s v s')
    (hty : ty ≠ .void) (hfits : s.builder.OpFits s.module ty op) (hplain : op.isPhi = false)
    (huses : ∀ v ∈ op.operands, ∃ t, s.Usable K s.builder.current v t) :
    s'.Live K open_ ∧ s.Onward K K s' ∧ s'.builder.current = s.builder.current ∧
      s'.Usable K s'.builder.current v ty := by
  obtain ⟨b', hpush, rfl⟩ := of_yields_build hy
  obtain ⟨⟨res, b1⟩, hpush, heq⟩ := bind_eq_ok.mp hpush
  cases heq
  have hy : Yields (build (·.push ty op)) s res { s with builder? := some b' } :=
    yields_build (isSome_of_yields_build hy) hpush
  obtain ⟨hlive, hon, hcur, ⟨hvoid, _⟩ | ⟨u, rfl, hu⟩⟩ := h.push hy hfits hplain huses
  · exact absurd hvoid hty
  · exact ⟨hlive, hon, hcur, hu⟩

/-- A stack slot may be used at once. -/
theorem alloca (h : s.Live K open_) (hy : Yields (build (·.alloca ty)) s v s') :
    s'.Live K open_ ∧ s.Onward K K s' ∧ s'.Usable K s'.builder.current v (.ptr ty) := by
  obtain ⟨b', halloca, rfl⟩ := of_yields_build hy
  obtain ⟨rfl, x, hentry, hadds⟩ := Builder.alloca_eq_ok h.sound.ids halloca
  have hready : Builder.Ready K s.builder s.module x (x.instrs.takeWhile (·.op.isAlloca))
      ⟨some s.builder.body.regTypes.length, .ptr ty, .alloca ty⟩ :=
    ⟨rfl, by simp [Op.operands], by simp, by simp, fun _ => rfl⟩
  have hfirst : PhisFirst (x.instrs.takeWhile (·.op.isAlloca) ++
      ⟨some s.builder.body.regTypes.length, .ptr ty, .alloca ty⟩ ::
        x.instrs.dropWhile (·.op.isAlloca)) := by
    refine List.pairwise_of_forall_mem_list fun i _ j hj hphi => absurd hphi ?_
    rw [Bool.not_eq_true]
    rcases List.mem_append.mp hj with hj | hj
    · exact h.sound.entryPlain x hadds.mem hentry j ((List.takeWhile_sublist _).subset hj)
    · rcases List.mem_cons.mp hj with rfl | hj
      · rfl
      · exact h.sound.entryPlain x hadds.mem hentry j ((List.dropWhile_sublist _).subset hj)
  have hsound := hadds.sound h.sound hready hfirst
  have hon : s.Onward K K { s with builder? := some b' } := by
    refine ⟨⟨(hadds.grows_entry h.sound.toSteady hentry).weaken (by simp) (by simp) (by simp),
      .inl hadds.current, rfl⟩, ?_⟩
    rw [builder_mk, hadds.current]
    exact fun d hd => hd
  rw [← hadds.current] at hsound
  refine ⟨h.onward hon hsound (h.isOpen_adds hadds), hon, .reg (hadds.regType rfl), fun r hr => ?_⟩
  cases hr
  refine ⟨x.id, ?_, hadds.replaces.home_iff.mpr (.inr ⟨rfl, by simp [definedBy_cons]⟩)⟩
  change K b'.current x.id
  rw [hadds.current, hentry]
  exact h.sound.entryKnown _ h.mem_ids

/-- Additions to the module do not matter. -/
theorem growModule (h : s.Live K open_) {m' : Module} (hm : s.module.Grows m') :
    Live K open_ { s with module := m' } ∧ s.Onward K K { s with module := m' } := by
  have hre := h.sound.relayout_module hm
  obtain ⟨x, hx, hcur, _⟩ := h.isOpen
  have hreach := h.sound.reached x hx (.inr hcur)
  have hon : s.Onward K K { s with module := m' } :=
    ⟨⟨hre.grows.weaken (by simp) (by simp) (by simp), .inl rfl, rfl⟩, fun _ hd => hd⟩
  exact ⟨h.onward hon (hre.sound h.sound (hcur ▸ hreach)) h.isOpen, hon⟩

end Live

end Lowering

end SsaCompiler
