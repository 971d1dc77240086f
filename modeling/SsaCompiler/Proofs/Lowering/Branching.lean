import SsaCompiler.Proofs.Lowering.Live

/-!
From block to block while code is emitted. A block that is made beforehand stays empty until control
is led to it and building goes on in it; the ways to it are known to lead through what was known when
it was made.
-/
namespace SsaCompiler.Lowering

open Ir LowerM

variable {K K' : Ways} {open_ open_' : List BlockId} {s s' : Lowering} {D : BlockId → Prop}
  {T E P : List BlockId} {u v w : BlockId} {t : Terminator}

/-- The block `v` waits to be filled. The ways to it are known to lead through `D`. -/
structure Pending (K : Ways) (s : Lowering) (v : BlockId) (D : BlockId → Prop) : Prop where
  blank : s.builder.body.Blank v
  known : ∀ d, K v d ↔ D d ∨ d = v
  notEntry : v ≠ s.builder.body.entry
  notCurrent : v ≠ s.builder.current

theorem Pending.mem_ids (h : s.Pending K v D) : v ∈ s.builder.body.ids := by
  obtain ⟨x, hx, rfl, _⟩ := h.blank
  exact Body.id_mem_ids hx

theorem Pending.grows (h : s.Pending K v D) (hg : Grows T E P K s K' s') (hT : v ∉ T) (hE : v ∉ E)
    (hK : K' v = K v) (hcur : v ≠ s'.builder.current) : s'.Pending K' v D := by
  refine ⟨?_, ?_, hg.entry ▸ h.notEntry, hcur⟩
  · obtain ⟨x, hx, rfl, hinstrs, hterm⟩ := h.blank
    exact ⟨x, hg.mem hx h.notEntry hT hE, rfl, hinstrs, hterm⟩
  · rw [hK]
    exact h.known

/-- A waiting block stays so while code is emitted elsewhere. -/
theorem Pending.since (h : s.Pending K v D) (hs : s.Live K open_) (hsince : s.Since K K' s') :
    s'.Pending K' v D := by
  have hlt := hs.sound.fresh v h.mem_ids
  exact h.grows hsince.grows (by simp) (by simpa using h.notCurrent)
    (hsince.grows.known v hlt (by simp)) (hsince.current_ne hlt h.notCurrent)

theorem Pending.onward (h : s.Pending K v D) (hs : s.Live K open_) (hon : s.Onward K K' s') :
    s'.Pending K' v D := h.since hs hon.toSince

/-- Emitting code elsewhere leads nowhere old. -/
theorem Pending.leads_since (h : s.Pending K v D) (hs : s.Live K open_)
    (hsince : s.Since K K' s') : s'.builder.body.Leads u v ↔ s.builder.body.Leads u v :=
  hsince.grows.leads_iff (by simp) (hs.sound.fresh v h.mem_ids)

/-- A new block waits to be filled, and nothing leads to it. It may be made for a later part of the
current region. -/
theorem Live.appendBlock (h : s.Live K open_) {name : String}
    (hy : Yields (appendBlock name) s v s') (p : BlockId) (hp : p ∈ s.builder.body.ids) :
    v = s.builder.body.nextBlock ∧ s'.Live (K.below p v) (v :: open_) ∧
      s.Onward K (K.below p v) s' ∧ s'.Pending (K.below p v) v (K p) ∧
      (∀ u, ¬ s'.builder.body.Leads u v) ∧ s'.builder.current = s.builder.current := by
  obtain ⟨rfl, rfl⟩ := of_yields_appendBlock hy
  have hgrows := h.sound.grows_appendBlock name p
  have hne := Nat.ne_of_lt h.current_lt
  have hon : s.Onward K (K.below p s.builder.body.nextBlock)
      { s with builder? := some (s.builder.appendBlock name).2 } := by
    refine ⟨⟨hgrows.weaken (by simp) (by simp) (by simp), .inl rfl, rfl⟩, fun d hd => ?_⟩
    change K.below p s.builder.body.nextBlock s.builder.current d
    rwa [Ways.below_of_ne hne]
  refine ⟨rfl, h.onward hon ?_ ?_, hon, ?_, ?_, rfl⟩
  · refine (h.sound.appendBlock name hp h.mem_ids).mono fun w hw => ?_
    simp only [List.mem_cons] at hw ⊢
    tauto
  · obtain ⟨x, hx, hcur, hterm⟩ := h.isOpen
    exact ⟨x, Builder.mem_appendBlock.mpr (.inl hx), hcur, hterm⟩
  · refine ⟨Builder.blank_appendBlock _ _, fun d => Ways.below_self, ?_, hne.symm⟩
    rw [builder_mk, hgrows.entry]
    exact (Nat.ne_of_lt (h.sound.fresh _ (Body.entry_mem_ids h.sound.nonempty))).symm
  · exact fun u hl => h.sound.not_leads_next (Builder.leads_appendBlock.mp hl)

/-- The blocks `vs` were made for the end of the current block of `s`. They wait to be filled, and
nothing leads to them. -/
structure Made (K : Ways) (s : Lowering) (open_ vs : List BlockId) (K' : Ways) (s' : Lowering) :
    Prop where
  live : s'.Live K' (vs ++ open_)
  onward : s.Onward K K' s'
  current : s'.builder.current = s.builder.current
  waiting : ∀ v ∈ vs, s'.Pending K' v (K s.builder.current)
  unused : ∀ v ∈ vs, ∀ u, ¬ s'.builder.body.Leads u v
  new : ∀ v ∈ vs, s.builder.body.nextBlock ≤ v
  distinct : vs.Nodup

theorem Made.refl (h : s.Live K open_) : Made K s open_ [] K s :=
  ⟨h, .refl K s, rfl, by simp, by simp, by simp, .nil⟩

theorem Made.known {vs : List BlockId} (h : Made K s open_ vs K' s') (hs : s.Live K open_) :
    K' s'.builder.current = K s.builder.current := by
  rw [h.current]
  exact h.onward.grows.known _ hs.current_lt (by simp)

theorem Made.append {vs : List BlockId} (h : Made K s open_ vs K' s') (hs : s.Live K open_)
    {name : String} {s'' : Lowering} (hy : Yields (LowerM.appendBlock name) s' v s'') :
    ∃ K'', Made K s open_ (v :: vs) K'' s'' := by
  obtain ⟨hv, hlive, hon, hpending, hunused, hcur⟩ := h.live.appendBlock hy _ h.live.mem_ids
  have hlt : ∀ w ∈ vs, w < s'.builder.body.nextBlock := fun w hw =>
    h.live.sound.fresh w (h.waiting w hw).mem_ids
  refine ⟨_, hlive, h.onward.trans hon hs, hcur.trans h.current, ?_, ?_, ?_, ?_⟩
  · rw [h.known hs] at hpending
    exact List.forall_mem_cons.mpr ⟨hpending, fun w hw => (h.waiting w hw).onward h.live hon⟩
  · refine List.forall_mem_cons.mpr ⟨hunused, fun w hw u hl => ?_⟩
    exact h.unused w hw u ((hon.grows.leads_iff (by simp) (hlt w hw)).mp hl)
  · exact List.forall_mem_cons.mpr ⟨hv ▸ h.onward.grows.next, h.new⟩
  · exact List.nodup_cons.mpr ⟨fun hmem => Nat.ne_of_lt (hlt v hmem) hv, h.distinct⟩

/-- The current block was ended by `t`. -/
structure Left (K : Ways) (open_ : List BlockId) (t : Terminator) (s s' : Lowering) : Prop where
  sound : s'.builder.Sound K open_ s'.module
  grows : Grows [] [s.builder.current] t.successors K s K s'
  leads : ∀ u v, s'.builder.body.Leads u v ↔
    s.builder.body.Leads u v ∨ (u = s.builder.current ∧ v ∈ t.successors)
  reaches : ∀ v ∈ t.successors, s'.builder.body.Reaches v
  current : s'.builder.current = s.builder.current
  scope : s'.scope = s.scope

/-- The current block may be ended by a terminator that leads to waiting blocks, if what is known of
the ways to them is known of the current block. -/
theorem Live.leave (h : s.Live K open_) {a : Unit} (hy : Yields (emit (·.terminate t)) s a s')
    (hfits : s.builder.TermFits s.module t)
    (huses : ∀ v ∈ t.operands, ∃ ty, s.Usable K s.builder.current v ty)
    (htargets : ∀ v ∈ t.successors, ∃ D, s.Pending K v D ∧ ∀ d, D d → K s.builder.current d) :
    Left K open_ t s s' := by
  obtain ⟨b', hterm, rfl⟩ := of_yields_emit hy
  obtain ⟨x, hx, hcur, hopen⟩ := h.isOpen
  have hclose := Builder.terminate_eq_ok h.sound.ids hx hcur hopen hterm
  have hleave : Builder.Leaves K s.builder s.module x t := by
    refine ⟨hfits, fun v hv => ?_, fun v hv => ?_, fun v hv d hd => ?_, fun r hr => ?_⟩
    · obtain ⟨D, hD, _⟩ := htargets v hv
      exact hD.mem_ids
    · obtain ⟨D, hD, _⟩ := htargets v hv
      exact hD.notEntry
    · obtain ⟨D, hD, hsub⟩ := htargets v hv
      rw [hcur]
      exact ((hD.known d).mp hd).symm.imp_right (hsub d)
    · obtain ⟨ty, hr⟩ := huses _ hr
      rw [hcur]
      exact hr.known r rfl
  have hplain : ∀ y ∈ s.builder.body.blocks, y.id ∈ t.successors →
      ∀ i ∈ y.instrs, i.op.isPhi = false := by
    intro y hy hmem i hi
    obtain ⟨D, hD, _⟩ := htargets y.id hmem
    obtain ⟨z, hz, hid, hinstrs, _⟩ := hD.blank
    rw [h.sound.eq_block hy hz hid.symm, hinstrs] at hi
    simp at hi
  have hsound : s.builder.Sound K (x.id :: open_) s.module := hcur ▸ h.sound
  have hleads : ∀ u v, b'.body.Leads u v ↔
      s.builder.body.Leads u v ∨ (u = s.builder.current ∧ v ∈ t.successors) := by
    intro u v
    rw [← hcur]
    exact hclose.leads_iff hsound.toSteady
  have hgrows := hclose.grows hsound.toSteady
  refine ⟨hclose.sound hsound hleave hplain, hcur ▸ hgrows, hleads, ?_, hclose.current, rfl⟩
  intro v hv
  have hreach := hgrows.reaches (h.sound.reached x hx (.inr hcur))
  exact hreach.next ((hleads x.id v).mpr (.inr ⟨hcur, hv⟩))

theorem Pending.left (h : s.Pending K v D) (hl : Left K open_ t s s') : s'.Pending K v D :=
  h.grows hl.grows (by simp) (by simpa using h.notCurrent) rfl (hl.current ▸ h.notCurrent)

/-- Control was led to blocks made since `s`. -/
theorem Since.left {s'' : Lowering} (h : s.Since K K' s') (hs : s.Live K open_)
    (hl : Left K' open_' t s' s'') (hnew : ∀ v ∈ t.successors, s.builder.body.nextBlock ≤ v) :
    s.Since K K' s'' := by
  refine h.step hs hl.grows (by simp) (by simpa using h.moved) hnew ?_ hl.scope
  rw [hl.current]
  exact h.moved

/-- As long as nothing leads to a waiting block, it may be taken for one that was made for the
current end of code. -/
theorem Pending.rekey (h : s.Pending K v D) (hs : s.Live K open_)
    (hunused : ∀ u, ¬ s.builder.body.Leads u v) (hsub : ∀ d, D d → K s.builder.current d) :
    s.Live (K.below s.builder.current v) open_ ∧
      Grows [] [] [v] K s (K.below s.builder.current v) s ∧
      s.Pending (K.below s.builder.current v) v (K s.builder.current) := by
  have hspare : s.builder.Spare v := ⟨h.blank, hunused, h.notEntry, h.notCurrent⟩
  obtain ⟨hsound, hgrows⟩ := hspare.below hs.sound fun d hd =>
    ((h.known d).mp hd).imp_left (hsub d)
  refine ⟨⟨hsound, hs.isOpen, ?_⟩, hgrows, h.blank, fun d => Ways.below_self, h.notEntry,
    h.notCurrent⟩
  refine hs.scope.grows hgrows (fun d hd => ?_) rfl
  rwa [Ways.below_of_ne h.notCurrent.symm]

/-- A waiting block that nothing leads to may be dropped. -/
theorem Pending.drop (h : s.Pending K v D) (hs : s.builder.Sound K (v :: open_) s.module)
    (hunused : ∀ u, ¬ s.builder.body.Leads u v) :
    (s.builder.removeBlock v).Sound K open_ s.module ∧
      Grows [v] [] [] K s K { s with builder? := some (s.builder.removeBlock v) } := by
  have hspare : s.builder.Spare v := ⟨h.blank, hunused, h.notEntry, h.notCurrent⟩
  exact ⟨hspare.sound hs, hspare.grows hs.toSteady⟩

/-- Building may go on in a waiting block that control can get to. What is usable at the end of an
earlier block is usable there, if the ways are known to lead through that block. -/
theorem Pending.enter {K0 : Ways} {s0 : Lowering} {open0 : List BlockId} (h : s.Pending K v D)
    (h0 : s0.Live K0 open0) (hsince : s0.Since K0 K s)
    (hD : ∀ d, K0 s0.builder.current d → D d) (hnew : s0.builder.body.nextBlock ≤ v)
    (hs : s.builder.Sound K open_' s.module) (hopen : ∀ w ∈ open_', w = v ∨ w ∈ open_)
    (hreach : s.builder.body.Reaches v) {a : Unit}
    (hy : Yields (position v) s a s' ∨ Yields (continueIn v) s a s') :
    s'.Live K open_ ∧ s0.Onward K0 K s' ∧ Grows [] [] [] K s K s' ∧ s'.builder.current = v := by
  obtain ⟨b', rfl, hre, hcur⟩ : ∃ b', s' = { s with builder? := some b' } ∧
      s.builder.Relayout s.module b' s.module ∧ b'.current = v := by
    rcases hy with hy | hy
    · exact ⟨_, of_yields_edit hy, hs.relayout_position, rfl⟩
    · exact ⟨_, of_yields_edit hy, hs.relayout_moveToEnd h.notEntry, rfl⟩
  have hon : s0.Onward K0 K { s with builder? := some b' } := by
    refine ⟨hsince.step h0 hre.grows (by simp) (by simp) (by simp) (.inr (hcur ▸ hnew)) rfl,
      fun d hd => ?_⟩
    change K b'.current d
    rw [hcur]
    exact (h.known d).mpr (.inl (hD d hd))
  refine ⟨h0.onward hon ?_ ?_, hon, hre.grows, hcur⟩
  · refine (hre.sound hs (hcur ▸ hreach)).mono fun w hw => ?_
    change w ∈ b'.current :: open_
    rw [hcur]
    exact List.mem_cons.mpr (hopen w hw)
  · obtain ⟨x, hx, hid, _, hterm⟩ := h.blank
    exact ⟨x, (hre.mem x).mpr hx, hid.trans hcur.symm, hterm⟩

/-- Another block stays waiting when building goes on in one. -/
theorem Pending.turn (h : s.Pending K v D) (hg : Grows [] [] [] K s K s')
    (hcur : v ≠ s'.builder.current) : s'.Pending K v D :=
  h.grows hg (by simp) (by simp) rfl hcur

theorem Pending.leads_turn (h : s.Pending K v D) (hs : s.builder.Sound K open_ s.module)
    (hg : Grows [] [] [] K s K s') : s'.builder.body.Leads u v ↔ s.builder.body.Leads u v :=
  hg.leads_iff (by simp) (hs.fresh v h.mem_ids)

/-- The block where building goes on is empty, and not the entry. -/
theorem Pending.blank_turn (h : s.Pending K v D) (hg : Grows [] [] [] K s K s')
    (hcur : s'.builder.current = v) :
    s'.builder.body.Blank s'.builder.current ∧ s'.builder.current ≠ s'.builder.body.entry := by
  rw [hcur, hg.entry]
  obtain ⟨x, hx, rfl, hinstrs, hterm⟩ := h.blank
  exact ⟨⟨x, hg.mem hx h.notEntry (by simp) (by simp), rfl, hinstrs, hterm⟩, h.notEntry⟩

/-- A phi may be put into an empty block, with an edge from each block that leads to it. -/
theorem Live.phi (h : s.Live K open_) {ty : Ty} {incoming : List (Value × BlockId)}
    (hblank : s.builder.body.Blank s.builder.current)
    (hentry : s.builder.current ≠ s.builder.body.entry)
    (hedges : s.builder.body.OneEdgeEach s.builder.current incoming)
    (hvalues : ∀ e ∈ incoming, s.Usable K e.2 e.1 ty) {a : Value}
    (hy : Yields (build (·.phi ty incoming)) s a s') :
    s'.Live K open_ ∧ Grows [s.builder.current] [] [] K s K s' ∧
      s'.Usable K s'.builder.current a ty ∧ s'.builder.current = s.builder.current ∧
      s'.scope = s.scope ∧
      ∃ x r, a = .reg r ∧ x.id = s.builder.current ∧ s'.builder.Heads x r ty incoming [] := by
  obtain ⟨b', hphi, rfl⟩ := of_yields_build hy
  obtain ⟨x, hx, hcur, hempty, hterm⟩ := hblank
  obtain ⟨rfl, hadds⟩ := Builder.phi_eq_ok h.sound.ids hx hcur hphi
  rw [hempty] at hadds
  have hready : Builder.Ready K s.builder s.module x []
      ⟨some s.builder.body.regTypes.length, ty, .phi incoming⟩ := by
    refine ⟨fun e he => (hvalues e he).has, by simp [Op.isPhi], ?_, ?_, ?_⟩
    · rintro _ ⟨rfl⟩
      exact hcur ▸ hedges
    · rintro _ ⟨rfl⟩ r source hmem
      exact ⟨((hedges.2 source).mp (List.mem_map_of_mem hmem)).mem_ids,
        (hvalues _ hmem).known r rfl⟩
    · exact fun hid => absurd (hcur.symm.trans hid) hentry
  have hsound := hadds.sound h.sound hready (List.pairwise_singleton _ _)
  have hgrows := hadds.grows h.sound.toSteady
  rw [hcur] at hgrows
  have hnew : ∃ y ∈ b'.body.blocks, y.id = x.id ∧
      y.instrs = [⟨some s.builder.body.regTypes.length, ty, .phi incoming⟩] :=
    ⟨_, (hadds.replaces.mem _).mpr (.inr rfl), rfl, rfl⟩
  obtain ⟨y, hmem, hid, hinstrs⟩ := hnew
  have hlive : Live K open_ { s with builder? := some b' } := by
    refine ⟨hadds.current ▸ hsound, h.isOpen_adds hadds, ?_⟩
    refine h.scope.grows hgrows (fun d hd => ?_) rfl
    change K b'.current d
    rwa [hadds.current]
  refine ⟨hlive, hgrows, ⟨.reg (hadds.regType rfl), ?_⟩, hadds.current, rfl,
    ⟨y, _, rfl, hid.trans hcur, ⟨hmem, hinstrs, by simp⟩⟩⟩
  rintro _ ⟨rfl⟩
  refine ⟨x.id, ?_, y, hmem, hid, by simp [hinstrs, definedBy_cons]⟩
  change K b'.current x.id
  rw [hadds.current, hcur]
  exact h.sound.selfKnown _ h.mem_ids

/-- Code that was emitted up to a new block goes on behind a phi in it. -/
theorem Onward.phi {K0 : Ways} {s0 : Lowering} (hon : s0.Onward K0 K s) (h0 : s0.Live K0 open_)
    (hg : Grows [s.builder.current] [] [] K s K s')
    (hnew : s0.builder.body.nextBlock ≤ s.builder.current)
    (hcur : s'.builder.current = s.builder.current) (hscope : s'.scope = s.scope) :
    s0.Onward K0 K s' := by
  refine ⟨hon.toSince.step h0 hg (by simpa using hnew) (by simp) (by simp) (.inr (hcur ▸ hnew))
    hscope, ?_⟩
  rw [hcur]
  exact hon.above

end SsaCompiler.Lowering
