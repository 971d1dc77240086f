import SsaCompiler.Proofs.Building.Instructions

/-!
What a step of building can do. Instructions are added with new results, empty blocks are appended,
blocks without a terminator get one, and phis get edges; everything else stays as it is. For each
step there is one statement of what it does, with the least it does.
-/
namespace SsaCompiler.Ir.Builder

/-- What a step can do to the block `y`. New instructions have new results and satisfy `new`, a new
terminator satisfies `ends`, and edges are added to phis in the registers of `R`. -/
structure Touches (new : BlockId → Op → Prop) (ends : Terminator → Prop) (R : List Reg)
    (b b' : Builder) (y y' : Block) : Prop where
  id : y'.id = y.id
  name : y'.name = y.name
  term : y'.term = y.term ∨ y.id = b.current ∧ y.term = none ∧ ∃ t, y'.term = some t ∧ ends t
  instrs : ∀ i' ∈ y'.instrs, i' ∈ y.instrs ∨
    (∃ i ∈ y.instrs, ∃ r ∈ R, i.result = some r ∧ ∃ F, i' = i.mapIncoming F) ∨
    ((∀ r, i'.result = some r → b.body.regTypes.length ≤ r ∧ r < b'.body.regTypes.length) ∧
      new y.id i'.op)
  kept : ∀ i ∈ y.instrs, (∀ r ∈ R, i.result ≠ some r) → i ∈ y'.instrs

/-- What a step can do. Building goes on in a block of `M`, if not in the same one, and no other
block is removed. -/
structure Moves (new : BlockId → Op → Prop) (ends : Terminator → Prop) (M : List BlockId)
    (R : List Reg) (b b' : Builder) : Prop where
  next : b.body.nextBlock ≤ b'.body.nextBlock
  types : b.body.regTypes <+: b'.body.regTypes
  params : b'.params = b.params
  current : b'.current = b.current ∨ b'.current ∈ M
  blocks : ∀ y' ∈ b'.body.blocks, (∃ y ∈ b.body.blocks, Touches new ends R b b' y y') ∨
    (b.body.nextBlock ≤ y'.id ∧ y'.id < b'.body.nextBlock ∧ y'.instrs = [] ∧ y'.term = none)
  kept : ∀ y ∈ b.body.blocks, y.id ∉ M → ∃ y' ∈ b'.body.blocks, Touches new ends R b b' y y'
  distinct : (∀ v ∈ b.body.ids, v < b.body.nextBlock) → b.body.ids.Nodup → b'.body.ids.Nodup

/-- No new instructions. -/
def nothing (_ : BlockId) (_ : Op) : Prop := False

/-- No new terminators. -/
def unended (_ : Terminator) : Prop := False

/-- One new instruction in the current block. -/
def appended (b : Builder) (op : Op) (v : BlockId) (o : Op) : Prop := v = b.current ∧ o = op

variable {b b' b'' : Builder} {new new' : BlockId → Op → Prop} {ends ends' : Terminator → Prop}
  {M M' : List BlockId} {R R' : List Reg} {y : Block} {v : BlockId} {name : String} {ty : Ty}
  {op : Op} {t : Terminator}

theorem not_mem_targets_of_term_eq_none {x : Block} (h : x.term = none) : v ∉ x.targets := by
  intro hmem
  unfold Block.targets at hmem
  rw [h] at hmem
  cases hmem

theorem targets_eq_of_term_eq {x y : Block} (h : x.term = y.term) : x.targets = y.targets := by
  unfold Block.targets
  rw [h]

theorem Touches.refl (new : BlockId → Op → Prop) (ends : Terminator → Prop) (R : List Reg)
    (b b' : Builder) (y : Block) : Touches new ends R b b' y y :=
  ⟨rfl, rfl, .inl rfl, fun _ hi => .inl hi, fun _ hi _ => hi⟩

/-- A step that keeps the blocks. -/
theorem moves_of_mem (hnext : b'.body.nextBlock = b.body.nextBlock)
    (hregs : b'.body.regTypes = b.body.regTypes) (hparams : b'.params = b.params)
    (hcur : b'.current = b.current ∨ b'.current ∈ M)
    (hold : ∀ y ∈ b'.body.blocks, y ∈ b.body.blocks)
    (hkept : ∀ y ∈ b.body.blocks, y.id ∉ M → y ∈ b'.body.blocks)
    (hids : b.body.ids.Nodup → b'.body.ids.Nodup) : Moves nothing unended M [] b b' where
  next := hnext.ge
  types := hregs ▸ List.prefix_refl _
  params := hparams
  current := hcur
  blocks y hy := .inl ⟨y, hold y hy, .refl ..⟩
  kept y hy hyM := ⟨y, hkept y hy hyM, .refl ..⟩
  distinct _ := hids

theorem moves_position (b : Builder) (id : BlockId) :
    Moves nothing unended [id] [] b (b.position id) :=
  moves_of_mem rfl rfl rfl (.inr (List.mem_singleton.mpr rfl)) (fun _ hy => hy) (fun _ hy _ => hy)
    fun hids => hids

theorem moves_removeBlock (b : Builder) (id : BlockId) :
    Moves nothing unended [id] [] b (b.removeBlock id) :=
  moves_of_mem rfl rfl rfl (.inl rfl) (fun _ hy => Body.mem_of_mem_removeBlock hy)
    (fun _ hy hne => Body.mem_removeBlock_of_ne hy (by simpa using hne)) Body.nodup_ids_removeBlock

theorem moves_moveToEnd (b : Builder) (id : BlockId) :
    Moves nothing unended [id] [] b (b.moveToEnd id) := by
  obtain ⟨blocks, heq, hperm⟩ := b.exists_perm_moveToEnd id
  rw [heq]
  exact moves_of_mem rfl rfl rfl (.inl rfl) (fun y hy => hperm.mem_iff.mp hy)
    (fun y hy _ => hperm.mem_iff.mpr hy) (hperm.map _).nodup_iff.mpr

theorem moves_appendBlock (b : Builder) (name : String) :
    Moves nothing unended [] [] b (b.appendBlock name).2 where
  next := Nat.le_succ _
  types := List.prefix_refl _
  params := rfl
  current := .inl rfl
  blocks y' hy' := by
    rcases List.mem_append.mp hy' with hmem | hmem
    · exact .inl ⟨y', hmem, .refl ..⟩
    · rw [List.mem_singleton.mp hmem]
      exact .inr ⟨le_rfl, Nat.lt_succ_self _, rfl, rfl⟩
  kept y hy _ := ⟨y, List.mem_append_left _ hy, .refl ..⟩
  distinct := nodup_ids_appendBlock

theorem moves_addIncoming (b : Builder) (r : Reg) (value : Value) (source : BlockId) :
    Moves nothing unended [] [r] b (b.addIncoming (.reg r) value source) := by
  have htouches : ∀ y : Block, Touches nothing unended [r] b (b.addIncoming (.reg r) value source) y
      { y with instrs :=
          modifyFirst (·.result = some r) (·.mapIncoming (· ++ [(value, source)])) y.instrs } := by
    intro y
    refine ⟨rfl, rfl, .inl rfl, fun i' hi' => ?_, fun i hi hres => ?_⟩
    · obtain ⟨i, hi, rfl | ⟨hr, rfl⟩⟩ := exists_of_mem_modifyFirst hi'
      · exact .inl hi
      · exact .inr (.inl ⟨i, hi, r, List.mem_singleton.mpr rfl, by simpa using hr, _, rfl⟩)
    · obtain ⟨i', hi', rfl | ⟨hr, _⟩⟩ := exists_mem_modifyFirst hi
      · exact hi'
      · exact absurd (by simpa using hr) (hres r (List.mem_singleton.mpr rfl))
  refine ⟨le_rfl, List.prefix_refl _, rfl, .inl rfl, fun y' hy' => ?_, fun y hy _ => ?_, fun _ hids => ?_⟩
  · obtain ⟨y, hy, rfl | ⟨_, rfl⟩⟩ := exists_of_mem_modifyFirst hy'
    · exact .inl ⟨y', hy, .refl ..⟩
    · exact .inl ⟨y, hy, htouches y⟩
  · obtain ⟨y', hy', rfl | ⟨_, rfl⟩⟩ := exists_mem_modifyFirst hy
    · exact ⟨y', hy', .refl ..⟩
    · exact ⟨_, hy', htouches y⟩
  · have hsame : (b.addIncoming (.reg r) value source).body.ids = b.body.ids :=
      map_modifyFirst fun _ => rfl
    rwa [hsame]

/-- A step that changes one block, perhaps with registers added. -/
theorem moves_updateBlock {f : Block → Block}
    (hblocks : b'.body.blocks = (b.body.updateBlock v f).blocks)
    (hnext : b'.body.nextBlock = b.body.nextBlock) (htypes : b.body.regTypes <+: b'.body.regTypes)
    (hparams : b'.params = b.params) (hcur : b'.current = b.current)
    (hid : ∀ y, (f y).id = y.id) (hf : ∀ y, y.id = v → Touches new ends [] b b' y (f y)) :
    Moves new ends [] [] b b' := by
  refine ⟨hnext.ge, htypes, hparams, .inl hcur, fun y' hy' => ?_, fun y hy _ => ?_, fun _ hids => ?_⟩
  · rw [hblocks] at hy'
    obtain ⟨y, hy, rfl | ⟨hid, rfl⟩⟩ := exists_of_mem_modifyFirst hy'
    · exact .inl ⟨y', hy, .refl ..⟩
    · exact .inl ⟨y, hy, hf y (by simpa using hid)⟩
  · rw [hblocks]
    obtain ⟨y', hy', rfl | ⟨hid, rfl⟩⟩ := exists_mem_modifyFirst hy
    · exact ⟨y', hy', .refl ..⟩
    · exact ⟨_, hy', hf y (by simpa using hid)⟩
  · have hsame : b'.body.ids = b.body.ids := by
      rw [Body.ids, hblocks]
      exact Body.ids_updateBlock hid
    rwa [hsame]

theorem touches_add {i : Instr} {instrs : List Instr} (hmem : ∀ j, j ∈ instrs ↔ j = i ∨ j ∈ y.instrs)
    (hres : ∀ r, i.result = some r → b.body.regTypes.length ≤ r ∧ r < b'.body.regTypes.length)
    (hop : new y.id i.op) : Touches new unended [] b b' y { y with instrs } := by
  refine ⟨rfl, rfl, .inl rfl, fun j hj => ?_, fun j hj _ => (hmem j).mpr (.inr hj)⟩
  rcases (hmem j).mp hj with rfl | hold
  · exact .inr (.inr ⟨hres, hop⟩)
  · exact .inl hold

theorem mem_insertAfter {p : Instr → Bool} {i j : Instr} {is : List Instr} :
    j ∈ insertAfter p i is ↔ j = i ∨ j ∈ is := by
  have hsplit : j ∈ is ↔ j ∈ is.takeWhile p ∨ j ∈ is.dropWhile p := by
    rw [← List.mem_append, List.takeWhile_append_dropWhile]
  simp only [insertAfter, List.mem_append, List.mem_cons, hsplit]
  tauto

/-- What pushing an instruction changes. -/
structure Pushes (b : Builder) (i : Instr) (b' : Builder) : Prop where
  blocks : b'.body.blocks =
    (b.body.updateBlock b.current fun x => { x with instrs := x.instrs ++ [i] }).blocks
  next : b'.body.nextBlock = b.body.nextBlock
  params : b'.params = b.params
  current : b'.current = b.current
  types : b.body.regTypes <+: b'.body.regTypes
  result : ∀ r, i.result = some r → b.body.regTypes.length ≤ r ∧ r < b'.body.regTypes.length

theorem pushes_of_push {w : Option Value} (h : b.push ty op = .ok (w, b')) :
    w = (b.newInstr ty op).result.map .reg ∧ b.Pushes (b.newInstr ty op) b' := by
  obtain ⟨hw, rfl⟩ := eq_pushed h
  refine ⟨hw, rfl, rfl, rfl, rfl, List.prefix_append _ _, fun r hr => ?_⟩
  obtain rfl := Option.some.inj (Option.ite_none_left_eq_some.mp hr).2
  simp [pushed, hr]

theorem moves_push {w : Option Value} (h : b.push ty op = .ok (w, b')) :
    Moves (b.appended op) unended [] [] b b' := by
  obtain ⟨_, hpushes⟩ := pushes_of_push h
  refine moves_updateBlock hpushes.blocks hpushes.next hpushes.types hpushes.params hpushes.current
    (fun _ => rfl) fun y hid => touches_add (i := b.newInstr ty op) ?_ hpushes.result ⟨hid, rfl⟩
  exact fun j => by simp [or_comm]

theorem moves_pushValue {w : Value} (h : b.pushValue ty op = .ok (w, b')) :
    Moves (b.appended op) unended [] [] b b' := by
  obtain ⟨⟨w, c⟩, hw, heq⟩ := bind_eq_ok.mp h
  cases heq
  exact moves_push hw

theorem moves_store {value ptr : Value} (h : b.store value ptr = .ok b') :
    Moves (b.appended (.store value ptr)) unended [] [] b b' := by
  obtain ⟨⟨w, c⟩, hw, heq⟩ := bind_eq_ok.mp h
  cases heq
  exact moves_push hw

theorem moves_phi {w : Value} {incoming : List (Value × BlockId)}
    (h : b.phi ty incoming = .ok (w, b')) : Moves (b.appended (.phi incoming)) unended [] [] b b' := by
  unfold phi updateCurrent at h
  dsimp only [Body.newReg] at h
  split at h
  · cases h
    refine moves_updateBlock rfl rfl (List.prefix_append _ _) rfl rfl (fun _ => rfl) fun y hid =>
      touches_add (i := ⟨some b.body.regTypes.length, ty, .phi incoming⟩) ?_ ?_ ⟨hid, rfl⟩
    · exact fun j => mem_insertAfter
    · simp [Body.updateBlock]
  · cases h

theorem moves_alloca {w : Value} (h : b.alloca ty = .ok (w, b')) :
    Moves (fun _ o => o = .alloca ty) unended [] [] b b' := by
  unfold alloca at h
  dsimp only [Body.newReg] at h
  split at h
  case h_1 => cases h
  case h_2 x rest hblocks =>
    cases h
    have htouches : ∀ b'' : Builder, b''.body.regTypes = b.body.regTypes ++ [.ptr ty] →
        Touches (fun _ o => o = .alloca ty) unended [] b b'' x { x with
          instrs := insertAfter (·.op.isAlloca)
            ⟨some b.body.regTypes.length, .ptr ty, .alloca ty⟩ x.instrs } := fun b'' hregs =>
      touches_add (fun j => mem_insertAfter) (by simp [hregs]) rfl
    refine ⟨le_rfl, List.prefix_append _ _, rfl, .inl rfl, fun y' hy' => .inl ?_, fun y hy _ => ?_,
      fun _ hids => ?_⟩
    · rw [hblocks]
      rcases List.mem_cons.mp hy' with rfl | hy'
      · exact ⟨x, List.mem_cons_self, htouches _ rfl⟩
      · exact ⟨y', List.mem_cons_of_mem _ hy', .refl ..⟩
    · rw [hblocks] at hy
      rcases List.mem_cons.mp hy with rfl | hy
      · exact ⟨_, List.mem_cons_self, htouches _ rfl⟩
      · exact ⟨y, List.mem_cons_of_mem _ hy, .refl ..⟩
    · rw [Body.ids, hblocks] at hids
      exact hids

theorem moves_terminate (h : b.terminate t = .ok b') :
    Moves nothing (· = t) [] [] b b' := by
  unfold terminate updateCurrent at h
  split at h
  · cases h
    refine moves_updateBlock rfl rfl (List.prefix_refl _) rfl rfl (fun _ => rfl) fun y hid => ?_
    refine ⟨rfl, rfl, ?_, fun i hi => .inl hi, fun i hi _ => hi⟩
    cases hterm : y.term with
    | none => exact .inr ⟨hid, rfl, t, by simp, rfl⟩
    | some _ => exact .inl (by simp)
  · cases h

theorem mem_terminate {x : Block} (h : b.terminate t = .ok b') (hx : x ∈ b'.body.blocks) :
    x ∈ b.body.blocks ∨ x.term = some t := by
  unfold terminate updateCurrent at h
  split at h
  · cases h
    obtain ⟨y, hy, rfl | ⟨_, rfl⟩⟩ := exists_of_mem_modifyFirst hx
    · exact .inl hy
    · cases hterm : y.term with
      | none => exact .inr rfl
      | some u =>
        rw [Option.some_or, ← hterm]
        exact .inl hy
  · cases h

/-- The instructions after a step are those before it, where phis may have other edges, and new
ones. -/
theorem Moves.instrs (h : Moves new ends M R b b') {y' : Block} {i' : Instr}
    (hy' : y' ∈ b'.body.blocks) (hi' : i' ∈ y'.instrs) :
    (∃ y ∈ b.body.blocks, y.id = y'.id ∧ ∃ i ∈ y.instrs, i.result = i'.result ∧ (i.op = i'.op ∨
      (∃ r ∈ R, i.result = some r) ∧ i.op.isPhi = true ∧ i'.op.isPhi = true)) ∨
    (∀ r, i'.result = some r → b.body.regTypes.length ≤ r ∧ r < b'.body.regTypes.length) ∧
      new y'.id i'.op := by
  rcases h.blocks y' hy' with ⟨y, hy, htouches⟩ | ⟨_, _, hempty, _⟩
  · rw [htouches.id]
    rcases htouches.instrs i' hi' with hold | ⟨i, hi, r, hr, hres, F, rfl⟩ | hnew
    · exact .inl ⟨y, hy, rfl, i', hold, rfl, .inl rfl⟩
    · refine .inl ⟨y, hy, rfl, i, hi, rfl, ?_⟩
      cases hop : i.op <;> simp [Instr.mapIncoming, Op.mapIncoming, hop, Op.isPhi, hres, hr]
    · exact .inr hnew
  · rw [hempty] at hi'
    cases hi'

theorem Moves.plain (h : Moves new ends M R b b') {y' : Block} {i' : Instr}
    (hy' : y' ∈ b'.body.blocks) (hi' : i' ∈ y'.instrs) (hplain : i'.op.isPhi = false) :
    (∃ y ∈ b.body.blocks, y.id = y'.id ∧ ∃ i ∈ y.instrs, i.op = i'.op) ∨ new y'.id i'.op := by
  rcases h.instrs hy' hi' with ⟨y, hy, hid, i, hi, _, hop | ⟨_, _, hphi⟩⟩ | ⟨_, hnew⟩
  · exact .inl ⟨y, hy, hid, i, hi, hop⟩
  · rw [hplain] at hphi
    cases hphi
  · exact .inr hnew

/-- What is said of the results in an old register, and of the blocks they are in, stays true unless
the register is a phi that gets edges. -/
theorem Moves.results (h : Moves new ends M R b b') {r : Reg} {P : BlockId → Op → Prop}
    (hr : r < b.body.regTypes.length) (hR : r ∉ R ∨ ∀ v op, P v op → op.isPhi = false)
    (hP : ∀ y ∈ b.body.blocks, ∀ i ∈ y.instrs, i.result = some r → P y.id i.op) :
    ∀ y ∈ b'.body.blocks, ∀ i ∈ y.instrs, i.result = some r → P y.id i.op := by
  intro y' hy' i' hi' hres'
  rcases h.instrs hy' hi' with ⟨y, hy, hid, i, hi, hres, hsame | ⟨⟨q, hq, hq'⟩, hphi, _⟩⟩ | ⟨hnew, _⟩
  · exact hsame ▸ hid ▸ hP y hy i hi (hres.trans hres')
  · obtain rfl : q = r := Option.some.inj (hq'.symm.trans (hres.trans hres'))
    rw [hR.resolve_left (not_not_intro hq) _ _ (hP y hy i hi hq')] at hphi
    cases hphi
  · exact absurd (hnew r hres').1 hr.not_ge

/-- A block leads where it led before, unless it has ended in the step. -/
theorem Moves.targets (h : Moves new ends M R b b') {y' : Block} (hy' : y' ∈ b'.body.blocks)
    (hv : v ∈ y'.targets) : (∃ y ∈ b.body.blocks, y.term = y'.term ∧ v ∈ y.targets) ∨
      ∃ t, ends t ∧ v ∈ t.successors := by
  rcases h.blocks y' hy' with ⟨y, hy, htouches⟩ | ⟨_, _, _, hnone⟩
  · rcases htouches.term with hsame | ⟨_, _, t, ht, hend⟩
    · exact .inl ⟨y, hy, hsame.symm, targets_eq_of_term_eq hsame ▸ hv⟩
    · exact .inr ⟨t, hend, (Block.mem_targets_of_term ht).mp hv⟩
  · exact absurd hv (not_mem_targets_of_term_eq_none hnone)

/-- All numbers in use are below those to come, and no two blocks have the same. -/
structure Counted (b : Builder) : Prop where
  distinct : b.body.ids.Nodup
  ids : ∀ x ∈ b.body.blocks, x.id < b.body.nextBlock
  targets : ∀ x ∈ b.body.blocks, ∀ v ∈ x.targets, v < b.body.nextBlock
  results : ∀ x ∈ b.body.blocks, ∀ i ∈ x.instrs, ∀ r, i.result = some r → r < b.body.regTypes.length

theorem Moves.counted (h : Moves new ends M R b b') (hb : b.Counted)
    (hends : ∀ t, ends t → ∀ v ∈ t.successors, v < b.body.nextBlock) : b'.Counted := by
  refine ⟨h.distinct (List.forall_mem_map.mpr hb.ids) hb.distinct, fun y' hy' => ?_, fun y' hy' v hv => ?_,
    fun y' hy' i' hi' r hr => ?_⟩
  · rcases h.blocks y' hy' with ⟨y, hy, htouches⟩ | ⟨_, hlt, _⟩
    · exact htouches.id ▸ (hb.ids y hy).trans_le h.next
    · exact hlt
  · rcases h.targets hy' hv with ⟨y, hy, _, hmem⟩ | ⟨t, hend, hmem⟩
    · exact (hb.targets y hy v hmem).trans_le h.next
    · exact (hends t hend v hmem).trans_le h.next
  · rcases h.instrs hy' hi' with ⟨y, hy, _, i, hi, hres, _⟩ | ⟨hnew, _⟩
    · exact (hb.results y hy i hi r (hres.trans hr)).trans_le h.types.length_le
    · exact (hnew r hr).2

/-- The result of an operation is a new register. -/
theorem Counted.of_pushValue (hb : b.Counted) {w : Value} (hty : ty ≠ .void)
    (hpush : b.pushValue ty op = .ok (w, b')) :
    ∃ r, w = .reg r ∧ r < b'.body.regTypes.length ∧
      ∀ x ∈ b'.body.blocks, ∀ i ∈ x.instrs, i.result = some r → i.op = op := by
  obtain ⟨⟨w, c⟩, hw, heq⟩ := bind_eq_ok.mp hpush
  cases heq
  obtain ⟨rfl, hpushes⟩ := pushes_of_push hw
  have hnew : b.newInstr ty op = ⟨some b.body.regTypes.length, ty, op⟩ := by simp [newInstr, hty]
  rw [hnew] at hpushes ⊢
  refine ⟨_, rfl, (hpushes.result _ rfl).2, fun x hx i hi hres => ?_⟩
  rw [hpushes.blocks] at hx
  obtain ⟨y, hy, hxy⟩ := exists_of_mem_modifyFirst hx
  have hold : i ∉ y.instrs := fun hmem =>
    absurd (hb.results y hy i hmem _ hres) (Nat.lt_irrefl _)
  rcases hxy with rfl | ⟨_, rfl⟩
  · exact absurd hi hold
  · rcases List.mem_append.mp hi with hi | hi
    · exact absurd hi hold
    · rw [List.mem_singleton.mp hi]

/-- A block of `b'` with the number of a block that `b` had before keeps its name, and its
terminator if it has one. -/
structure KeepsBlocks (b b' : Builder) : Prop where
  next : b.body.nextBlock ≤ b'.body.nextBlock
  blocks : ∀ y ∈ b'.body.blocks,
    (∃ x ∈ b.body.blocks, x.id = y.id ∧ x.name = y.name ∧ (x.term = none ∨ x.term = y.term)) ∨
      b.body.nextBlock ≤ y.id

theorem KeepsBlocks.refl (b : Builder) : KeepsBlocks b b :=
  ⟨le_rfl, fun y hy => .inl ⟨y, hy, rfl, rfl, .inr rfl⟩⟩

theorem KeepsBlocks.trans (h : KeepsBlocks b b') (h' : KeepsBlocks b' b'') : KeepsBlocks b b'' := by
  refine ⟨h.next.trans h'.next, fun z hz => ?_⟩
  rcases h'.blocks z hz with ⟨y, hy, hid, hname, hterm⟩ | hnew
  · rw [← hid, ← hname]
    refine (h.blocks y hy).imp_left fun ⟨x, hx, hid, hname, hterm'⟩ => ⟨x, hx, hid, hname, ?_⟩
    grind
  · exact .inr (h.next.trans hnew)

theorem Moves.keepsBlocks (h : Moves new ends M R b b') : KeepsBlocks b b' := by
  refine ⟨h.next, fun y' hy' => ?_⟩
  rcases h.blocks y' hy' with ⟨y, hy, htouches⟩ | ⟨hnew, _⟩
  · refine .inl ⟨y, hy, htouches.id.symm, htouches.name.symm, ?_⟩
    rcases htouches.term with hsame | ⟨_, hnone, _⟩
    · exact .inr hsame.symm
    · exact .inl hnone
  · exact .inr hnew

end SsaCompiler.Ir.Builder
