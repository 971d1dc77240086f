import SsaCompiler.Proofs.Building.Instructions

/-!
Ending, adding and removing blocks of a function under construction, and turning to another block.
-/
namespace SsaCompiler.Ir.Builder

variable {K : Ways} {open_ : List BlockId} {b b' : Builder} {m m' : Module} {x y : Block}
  {t : Terminator} {u v : BlockId} {r : Reg}

/-- The builder `b'` has the open block `x` ended by `t`. -/
structure Closes (b : Builder) (x : Block) (t : Terminator) (b' : Builder) : Prop where
  mem : x ∈ b.body.blocks
  isCurrent : x.id = b.current
  isOpen : x.term = none
  replaces : b.body.Replaces x { x with term := some t } b'.body
  name : b'.name = b.name
  params : b'.params = b.params
  ret : b'.ret = b.ret
  current : b'.current = b.current
  regTypes : b'.body.regTypes = b.body.regTypes

/-- What a terminator needs at the end of the block `x`. -/
structure Leaves (K : Ways) (b : Builder) (m : Module) (x : Block) (t : Terminator) : Prop where
  fits : b.TermFits m t
  exist : ∀ s ∈ t.successors, s ∈ b.body.ids
  notEntry : ∀ s ∈ t.successors, s ≠ b.body.entry
  known : ∀ s ∈ t.successors, ∀ d, K s d → d = s ∨ K x.id d
  uses : ∀ r, .reg r ∈ t.operands → ∃ v, K x.id v ∧ b.body.Home r v

namespace Closes

theorem widens (h : b.Closes x t b') : b.Widens m b' m :=
  ⟨h.name, h.params, h.ret, h.regTypes ▸ List.prefix_rfl, .refl m⟩

theorem home_iff (h : b.Closes x t b') (hs : b.Steady K open_ m) :
    b'.body.Home r v ↔ b.body.Home r v := by
  rw [h.replaces.home_iff]
  by_cases hv : v = x.id
  · subst hv
    simp [hs.home_iff h.mem]
  · simp [hv]

theorem leads_iff (h : b.Closes x t b') (hs : b.Steady K open_ m) :
    b'.body.Leads u v ↔ b.body.Leads u v ∨ (u = x.id ∧ v ∈ t.successors) := by
  rw [h.replaces.leads_iff]
  have hnone : ∀ v, ¬ b.body.Leads x.id v := by
    intro v hl
    rw [Body.leads_iff_targets hs.ids h.mem] at hl
    simp [Block.targets, h.isOpen] at hl
  have htargets : v ∈ ({ x with term := some t } : Block).targets ↔ v ∈ t.successors :=
    Block.mem_targets_of_term rfl
  by_cases hu : u = x.id
  · subst hu
    simp [hnone, htargets]
  · simp [hu]

theorem grows (h : b.Closes x t b') (hs : b.Steady K open_ m) :
    Grows [] [x.id] t.successors K b m K b' m where
  toWidens := h.widens
  known _ _ _ := rfl
  next := h.replaces.next.ge
  old _ hv := .inl (h.replaces.ids ▸ hv)
  entry := h.replaces.entry
  frame y hy _ _ := by
    by_cases hid : y.id = x.id
    · obtain rfl := hs.eq_block hy h.mem hid
      exact ⟨_, (h.replaces.mem _).mpr (.inr rfl), ⟨rfl, ⟨[], by simp⟩, .inl h.isOpen⟩, by simp⟩
    · exact ⟨y, (h.replaces.mem y).mpr (.inl ⟨hy, hid⟩), .refl y, fun _ => rfl⟩
  home _ _ := (h.home_iff hs).mpr
  leads _ _ hl := (h.leads_iff hs).mpr (.inl hl)
  preds _ _ hl := ((h.leads_iff hs).mp hl).imp_right fun hv => .inl hv.2

/-- Ending a block takes it off the list of unfinished ones. -/
theorem steady (h : b.Closes x t b') (hs : b.Steady K (x.id :: open_) m) (ht : Leaves K b m x t) :
    b'.Steady K open_ m := by
  have hx : x.Sound K b' m := (hs.blocks x h.mem).mono h.widens (fun _ _ => (h.home_iff hs).mpr)
    (fun _ _ hv => h.replaces.ids ▸ hv) (fun _ _ _ _ _ _ hv => h.replaces.ids ▸ hv)
    (fun _ _ _ hd => hd) h.mem
  refine hs.replace h.replaces (h.grows hs) h.current ?_ ?_ ?_ (hs.entryPlain x h.mem) ?_
    (fun _ => hs.reached x h.mem (.inr h.isCurrent))
  · intro r v w hv hw
    exact hs.home r v w ((h.home_iff hs).mp hv) ((h.home_iff hs).mp hw)
  · intro u v hl
    refine ((h.leads_iff hs).mp hl).imp_right ?_
    rintro ⟨rfl, hmem⟩
    exact ⟨ht.notEntry v hmem, ht.known v hmem⟩
  · refine ⟨hx.nodup, hx.phisFirst, hx.fits, hx.results, hx.plain, hx.phi, ?_, ?_, ?_⟩
    · rintro _ ⟨rfl⟩ s hmem
      rw [h.replaces.ids]
      exact ht.exist s hmem
    · rintro _ ⟨rfl⟩
      exact ht.fits.widens h.widens
    · rintro _ ⟨rfl⟩ r hr
      obtain ⟨v, hv, hr⟩ := ht.uses r hr
      exact ⟨v, hv, (h.home_iff hs).mpr hr⟩
  · intro y hy hterm
    rcases (h.replaces.mem y).mp hy with ⟨hy, hne⟩ | rfl
    · exact (List.mem_cons.mp (hs.unfinished y hy hterm)).resolve_left hne
    · cases hterm

/-- A function stays sound if the blocks that control now goes to have no phis. -/
theorem sound (h : b.Closes x t b') (hs : b.Sound K (x.id :: open_) m) (ht : Leaves K b m x t)
    (hplain : ∀ y ∈ b.body.blocks, y.id ∈ t.successors → ∀ i ∈ y.instrs, i.op.isPhi = false) :
    b'.Sound K open_ m := by
  refine ⟨h.steady hs.toSteady ht, fun y' hy' i hi incoming hop => ?_⟩
  obtain ⟨y, hy, hid, hinstrs⟩ : ∃ y ∈ b.body.blocks, y.id = y'.id ∧ y.instrs = y'.instrs := by
    rcases (h.replaces.mem y').mp hy' with ⟨hy, _⟩ | rfl
    · exact ⟨y', hy, rfl, rfl⟩
    · exact ⟨x, h.mem, rfl, rfl⟩
  rw [← hinstrs] at hi
  rw [← hid]
  obtain ⟨hnd, hiff⟩ := hs.edges y hy i hi incoming hop
  have hnot : y.id ∉ t.successors := by
    intro hmem
    exact absurd hop (Op.ne_phi (hplain y hy hmem i hi) incoming)
  exact ⟨hnd, fun p => (hiff p).trans (by simp [h.leads_iff hs.toSteady, hnot])⟩

end Closes

theorem terminate_eq_ok (hb : b.body.ids.Nodup) (hx : x ∈ b.body.blocks) (hcur : x.id = b.current)
    (hopen : x.term = none) (h : b.terminate t = .ok b') : b.Closes x t b' := by
  have hrep := Body.replaces_updateBlock (f := fun x => { x with term := x.term.or (some t) })
    hb hx hcur fun _ => rfl
  rw [hopen, Option.none_or] at hrep
  unfold terminate updateCurrent at h
  split at h
  · cases h
    exact ⟨hx, hcur, hopen, hrep, rfl, rfl, rfl, rfl, rfl⟩
  · cases h

/-- The block `x` starts with a phi, the only one in it. -/
structure Heads (b : Builder) (x : Block) (r : Reg) (ty : Ty) (incoming : List (Value × BlockId))
    (rest : List Instr) : Prop where
  mem : x ∈ b.body.blocks
  instrs : x.instrs = ⟨some r, ty, .phi incoming⟩ :: rest
  plain : ∀ i ∈ rest, i.op.isPhi = false

namespace Heads

variable {ty : Ty} {incoming : List (Value × BlockId)} {rest : List Instr} {w : Value}
  {source : BlockId}

/-- An edge is added to the one phi that defines the register. -/
theorem replaces (h : b.Heads x r ty incoming rest) (hs : b.Steady K open_ m) :
    b.body.Replaces x { x with instrs := ⟨some r, ty, .phi (incoming ++ [(w, source)])⟩ :: rest }
      (b.addIncoming (.reg r) w source).body := by
  have hhome : b.body.Home r x.id :=
    ⟨x, h.mem, rfl, by simp [h.instrs, definedBy_cons]⟩
  have hdefines : ∀ y ∈ b.body.blocks, y.instrs.any (·.result = some r) = true ↔ y.id = x.id := by
    intro y hy
    constructor
    · intro hany
      obtain ⟨i, hi, hres⟩ := List.any_eq_true.mp hany
      exact hs.home r y.id x.id ⟨y, hy, rfl, mem_definedBy.mpr ⟨i, hi, by simpa using hres⟩⟩ hhome
    · intro hid
      rw [hs.eq_block hy h.mem hid, h.instrs]
      simp
  have hsole : b.body.blocks.Pairwise fun y z => y.instrs.any (·.result = some r) = true →
      z.instrs.any (·.result = some r) = false := by
    refine (List.pairwise_map.mp hs.ids).imp_of_mem fun hy hz hne hany => ?_
    rw [Bool.eq_false_iff]
    exact fun hz' => hne (((hdefines _ hy).mp hany).trans ((hdefines _ hz).mp hz').symm)
  refine ⟨map_modifyFirst fun _ => rfl, fun y => ?_, rfl, rfl⟩
  dsimp only [addIncoming]
  rw [modifyFirst_eq_map hsole, List.mem_map]
  constructor
  · rintro ⟨z, hz, rfl⟩
    by_cases hid : z.id = x.id
    · right
      rw [if_pos ((hdefines z hz).mpr hid), hs.eq_block hz h.mem hid, h.instrs, modifyFirst,
        if_pos (by simp)]
      rfl
    · left
      rw [if_neg (mt (hdefines z hz).mp hid)]
      exact ⟨hz, hid⟩
  · rintro (⟨hy, hid⟩ | rfl)
    · exact ⟨y, hy, if_neg (mt (hdefines y hy).mp hid)⟩
    · refine ⟨x, h.mem, ?_⟩
      rw [if_pos ((hdefines x h.mem).mpr rfl), h.instrs, modifyFirst, if_pos (by simp)]
      rfl

theorem home_iff (h : b.Heads x r ty incoming rest) (hs : b.Steady K open_ m) {q : Reg} :
    (b.addIncoming (.reg r) w source).body.Home q v ↔ b.body.Home q v := by
  rw [(h.replaces hs).home_iff]
  by_cases hv : v = x.id
  · subst hv
    simp [hs.home_iff h.mem, h.instrs, definedBy_cons]
  · simp [hv]

theorem leads_iff (h : b.Heads x r ty incoming rest) (hs : b.Steady K open_ m) :
    (b.addIncoming (.reg r) w source).body.Leads u v ↔ b.body.Leads u v :=
  (h.replaces hs).leads_same hs.ids h.mem rfl

theorem grows (h : b.Heads x r ty incoming rest) (hs : b.Steady K open_ m) :
    Grows [x.id] [] [] K b m K (b.addIncoming (.reg r) w source) m where
  toWidens := ⟨rfl, rfl, rfl, List.prefix_rfl, .refl m⟩
  known _ _ _ := rfl
  next := le_rfl
  old _ hv := .inl ((h.replaces hs).ids ▸ hv)
  entry := (h.replaces hs).entry
  frame y hy _ hne :=
    ⟨y, ((h.replaces hs).mem y).mpr (.inl ⟨hy, by simpa using hne⟩), .refl y, fun _ => rfl⟩
  home _ _ := (h.home_iff hs).mpr
  leads _ _ := (h.leads_iff hs).mpr
  preds _ _ hl := .inl ((h.leads_iff hs).mp hl)

theorem notEntry (h : b.Heads x r ty incoming rest) (hs : b.Steady K open_ m) :
    x.id ≠ b.body.entry := by
  intro hid
  have hphi := hs.entryPlain x h.mem hid ⟨some r, ty, .phi incoming⟩ (by simp [h.instrs])
  simp [Op.isPhi] at hphi

/-- A new edge of a phi is fine as far as its value is known at its source. -/
theorem steady (h : b.Heads x r ty incoming rest) (hs : b.Steady K open_ m) (hw : b.Has m w ty)
    (hsource : source ∈ b.body.ids)
    (hknown : ∀ q, w = .reg q → ∃ v, K source v ∧ b.body.Home q v) :
    (b.addIncoming (.reg r) w source).Steady K open_ m := by
  have hgrows : Grows [x.id] [] [] K b m K (b.addIncoming (.reg r) w source) m :=
    h.grows hs
  have hids : (b.addIncoming (.reg r) w source).body.ids = b.body.ids := (h.replaces hs).ids
  have hx : x.Sound K (b.addIncoming (.reg r) w source) m :=
    (hs.blocks x h.mem).mono hgrows.toWidens hgrows.home (fun _ _ hv => hids ▸ hv)
      (fun _ _ _ _ _ _ hv => hids ▸ hv) (fun _ _ _ hd => hd) h.mem
  have hphi : (⟨some r, ty, .phi incoming⟩ : Instr) ∈ x.instrs := by simp [h.instrs]
  have htail : ∀ i ∈ rest, i ∈ x.instrs := fun i hi => by simp [h.instrs, hi]
  refine hs.replace (h.replaces hs) hgrows rfl ?_ (fun u v hl => .inl ((h.leads_iff hs).mp hl)) ?_
    ?_ ?_ (hs.reached x h.mem)
  · intro q u v hu hv
    exact hs.home q u v ((h.home_iff hs).mp hu) ((h.home_iff hs).mp hv)
  · refine ⟨?_, ?_, ?_, ?_, ?_, ?_, hx.targets, hx.termFits, hx.term⟩
    · simpa [h.instrs, definedBy_cons] using hx.nodup
    · have hfirst := hx.phisFirst
      rw [h.instrs, phisFirst_cons] at hfirst
      rw [phisFirst_cons]
      exact hfirst
    · rintro i (_ | ⟨_, hi⟩)
      · intro e he
        rcases List.mem_append.mp he with he | he
        · exact hx.fits _ hphi e he
        · rw [List.mem_singleton.mp he]
          exact hw.widens hgrows.toWidens
      · exact hx.fits i (htail i hi)
    · rintro i (_ | ⟨_, hi⟩)
      · exact fun q hq => hx.results _ hphi q hq
      · exact hx.results i (htail i hi)
    · intro done i after hsplit hplain q hq
      cases done with
      | nil =>
        obtain ⟨rfl, _⟩ := List.cons.inj hsplit
        simp [Op.isPhi] at hplain
      | cons j done =>
        obtain ⟨rfl, htail⟩ := List.cons.inj hsplit
        have hsplit0 : x.instrs = (⟨some r, ty, .phi incoming⟩ :: done) ++ i :: after := by
          rw [h.instrs, htail]
          rfl
        simpa [definedBy_cons] using hx.plain _ i after hsplit0 hplain q hq
    · rintro i (_ | ⟨_, hi⟩) es hop q origin hmem
      · obtain rfl : incoming ++ [(w, source)] = es := by simpa using hop
        rcases List.mem_append.mp hmem with hmem | hmem
        · exact hx.phi _ hphi incoming rfl q origin hmem
        · obtain ⟨rfl, rfl⟩ : Value.reg q = w ∧ origin = source := by simpa using hmem
          obtain ⟨v, hv, hq⟩ := hknown q rfl
          exact ⟨hids ▸ hsource, v, hv, hgrows.home q v hq⟩
      · exact absurd hop (Op.ne_phi (h.plain i hi) es)
  · exact fun hid => absurd hid (h.notEntry hs)
  · intro y hy hterm
    rcases ((h.replaces hs).mem y).mp hy with ⟨hy, _⟩ | rfl
    · exact hs.unfinished y hy hterm
    · exact hs.unfinished x h.mem hterm

/-- The end of a loop: the phi of the header gets an edge from the current block, which then goes
back to the header. -/
theorem close (h : b.Heads x r ty incoming rest) (hs : b.Sound K (y.id :: open_) m)
    (hy : y ∈ b.body.blocks) (hcur : y.id = b.current) (hopen : y.term = none)
    (hw : b.Has m w ty) (hknown : ∀ q, w = .reg q → ∃ v, K y.id v ∧ b.body.Home q v)
    (hback : ∀ d, K x.id d → d = x.id ∨ K y.id d) (hne : y.id ≠ x.id)
    (hterm : (b.addIncoming (.reg r) w y.id).terminate (.br x.id) = .ok b') :
    b'.Sound K open_ m ∧ Grows [x.id] [y.id] [x.id] K b m K b' m ∧ b'.current = b.current := by
  have hst := hs.toSteady
  have hrep : b.body.Replaces x
      { x with instrs := ⟨some r, ty, .phi (incoming ++ [(w, y.id)])⟩ :: rest }
      (b.addIncoming (.reg r) w y.id).body := h.replaces hst
  have hs1 := h.steady hst hw (Body.id_mem_ids hy) hknown
  have hy1 : y ∈ (b.addIncoming (.reg r) w y.id).body.blocks := (hrep.mem y).mpr (.inl ⟨hy, hne⟩)
  have hcl := terminate_eq_ok hs1.ids hy1 hcur hopen hterm
  have hleave : Leaves K (b.addIncoming (.reg r) w y.id) m y (.br x.id) := by
    refine ⟨trivial, ?_, ?_, ?_, by simp [Terminator.operands]⟩
    · simpa [Terminator.successors, hrep.ids] using Body.id_mem_ids h.mem
    · simpa [Terminator.successors, hrep.entry] using h.notEntry hst
    · simpa [Terminator.successors] using hback
  have hleads : ∀ {p v}, b'.body.Leads p v ↔ b.body.Leads p v ∨ (p = y.id ∧ v = x.id) := by
    intro p v
    rw [hcl.leads_iff hs1, h.leads_iff hst]
    simp [Terminator.successors]
  refine ⟨⟨hcl.steady hs1 hleave, ?_⟩, ?_, hcl.current⟩
  · -- only the phi of the header has another edge than before
    have hold : ∀ z ∈ b.body.blocks, z.id ≠ x.id → ∀ i ∈ z.instrs, ∀ es, i.op = .phi es →
        b'.body.OneEdgeEach z.id es := by
      intro z hz hzx i hi es hop
      obtain ⟨hnd, hiff⟩ := hs.edges z hz i hi es hop
      exact ⟨hnd, fun p => (hiff p).trans (by simp [hleads, hzx])⟩
    intro z hz i hi es hop
    rcases (hcl.replaces.mem z).mp hz with ⟨hz, _⟩ | rfl
    · rcases (hrep.mem z).mp hz with ⟨hz, hzx⟩ | rfl
      · exact hold z hz hzx i hi es hop
      · rcases List.mem_cons.mp hi with rfl | hi
        · obtain rfl : incoming ++ [(w, y.id)] = es := by simpa using hop
          obtain ⟨hnd, hiff⟩ := hs.edges x h.mem ⟨some r, ty, .phi incoming⟩ (by simp [h.instrs])
            incoming rfl
          have hnew : y.id ∉ incoming.map (·.2) := by
            rw [hiff, Body.leads_iff_targets hs.ids hy]
            simp [Block.targets, hopen]
          constructor
          · rw [List.map_append, List.nodup_append]
            refine ⟨hnd, by simp, fun p hp q hq => ?_⟩
            rw [show q = y.id by simpa using hq]
            exact fun heq => hnew (heq ▸ hp)
          · intro p
            rw [List.map_append, List.mem_append, hiff, hleads]
            simp
        · exact absurd hop (Op.ne_phi (h.plain i hi) es)
    · exact hold y hy hne i hi es hop
  · refine ((h.grows hst).weaken (by simp) (by simp) (by simp)).trans (hcl.grows hs1) hs.fresh
      (by simp) (by simp) (by simp [Terminator.successors])

end Heads

end SsaCompiler.Ir.Builder
