import SsaCompiler.Proofs.Building.Typing

/-!
What holds of a function under construction. Beside the body stands, for each block, a set of blocks
that are known to lie on every way to it; a register may be used where its block is known. Blocks
that have no terminator yet are on a list. Once the list is empty, the function is well formed, and
while one block is on it, the verifier complains about that block and nothing else.
-/
namespace SsaCompiler.Ir

/-- For each block, the blocks that are known to lie on every way to it. -/
abbrev Ways := BlockId → BlockId → Prop

/-- The block `v` defines `r`. -/
def Body.Home (b : Body) (r : Reg) (v : BlockId) : Prop :=
  ∃ x ∈ b.blocks, x.id = v ∧ r ∈ definedBy x.instrs

/-- The rules for a block of a function under construction. -/
structure Block.Sound (K : Ways) (b : Builder) (m : Module) (x : Block) : Prop where
  nodup : (definedBy x.instrs).Nodup
  phisFirst : PhisFirst x.instrs
  fits : ∀ i ∈ x.instrs, b.OpFits m i.ty i.op
  results : ∀ i ∈ x.instrs, ∀ r, i.result = some r → b.body.regTypes[r]? = some i.ty
  plain : ∀ done i rest, x.instrs = done ++ i :: rest → i.op.isPhi = false →
    ∀ r, .reg r ∈ i.op.operands → r ∈ definedBy done ∨
      ∃ v, K x.id v ∧ v ≠ x.id ∧ b.body.Home r v
  phi : ∀ i ∈ x.instrs, ∀ incoming, i.op = .phi incoming →
    ∀ r source, (.reg r, source) ∈ incoming →
      source ∈ b.body.ids ∧ ∃ v, K source v ∧ b.body.Home r v
  targets : ∀ t, x.term = some t → ∀ s ∈ t.successors, s ∈ b.body.ids
  termFits : ∀ t, x.term = some t → b.TermFits m t
  term : ∀ t, x.term = some t → ∀ r, .reg r ∈ t.operands → ∃ v, K x.id v ∧ b.body.Home r v

/-- The rules for a function under construction, but for the edges of phis. The blocks without a
terminator are among `open_`. -/
structure Builder.Steady (K : Ways) (open_ : List BlockId) (b : Builder) (m : Module) : Prop where
  honest : m.Honest
  nonempty : b.body.blocks ≠ []
  ids : b.body.ids.Nodup
  fresh : ∀ v ∈ b.body.ids, v < b.body.nextBlock
  home : ∀ r v w, b.body.Home r v → b.body.Home r w → v = w
  start : ∀ u, ¬ b.body.Leads u b.body.entry
  entryPlain : ∀ x ∈ b.body.blocks, x.id = b.body.entry → ∀ i ∈ x.instrs, i.op.isPhi = false
  blocks : ∀ x ∈ b.body.blocks, x.Sound K b m
  knownEntry : ∀ d, K b.body.entry d → d = b.body.entry
  knownEdge : ∀ u v d, b.body.Leads u v → K v d → d = v ∨ K u d
  entryKnown : ∀ v ∈ b.body.ids, K v b.body.entry
  selfKnown : ∀ v ∈ b.body.ids, K v v
  unfinished : ∀ x ∈ b.body.blocks, x.term = none → x.id ∈ open_
  reached : ∀ x ∈ b.body.blocks, x.term.isSome ∨ x.id = b.current → b.body.Reaches x.id

/-- The rules for a function under construction. -/
structure Builder.Sound (K : Ways) (open_ : List BlockId) (b : Builder) (m : Module) : Prop
    extends Builder.Steady K open_ b m where
  edges : ∀ x ∈ b.body.blocks, ∀ i ∈ x.instrs, ∀ incoming, i.op = .phi incoming →
    b.body.OneEdgeEach x.id incoming

theorem Body.Leads.mem_ids {b : Body} {u v : BlockId} (h : b.Leads u v) : u ∈ b.ids := by
  obtain ⟨x, hx, rfl, _⟩ := h
  exact id_mem_ids hx

namespace Builder

variable {K : Ways} {open_ : List BlockId} {b : Builder} {m : Module} {x : Block}
  {u v d : BlockId} {r : Reg}

theorem Sound.mono (h : b.Sound K open_ m) {open_' : List BlockId} (hsub : ∀ v ∈ open_, v ∈ open_') :
    b.Sound K open_' m :=
  { h with unfinished := fun x hx hterm => hsub _ (h.unfinished x hx hterm) }

/-- A body under construction stays sound while its module changes around it. -/
theorem Sound.serves (h : b.Sound K open_ m) {m' : Module} (hm : m.Serves m') (honest : m'.Honest) :
    b.Sound K open_ m' :=
  { h with
    honest := honest
    blocks := fun x hx =>
      { h.blocks x hx with
        fits := fun i hi => ((h.blocks x hx).fits i hi).covers (.of_serves b hm)
        termFits := fun t ht => ((h.blocks x hx).termFits t ht).covers (.of_serves b hm) } }

theorem Steady.eq_block (h : b.Steady K open_ m) {y : Block} (hx : x ∈ b.body.blocks)
    (hy : y ∈ b.body.blocks) (hid : x.id = y.id) : x = y := Body.eq_of_id_eq h.ids hx hy hid

theorem Steady.target_mem_ids (h : b.Steady K open_ m) (hl : b.body.Leads u v) : v ∈ b.body.ids := by
  obtain ⟨x, hx, rfl, hv⟩ := hl
  obtain ⟨t, ht, hv⟩ := Block.exists_term hv
  exact (h.blocks x hx).targets t ht v hv

theorem Steady.home_iff (h : b.Steady K open_ m) (hx : x ∈ b.body.blocks) :
    b.body.Home r x.id ↔ r ∈ definedBy x.instrs := by
  constructor
  · rintro ⟨y, hy, hid, hr⟩
    rwa [h.eq_block hy hx hid] at hr
  · exact fun hr => ⟨x, hx, rfl, hr⟩

theorem Steady.reg_lt (h : b.Steady K open_ m) (hr : b.body.Home r v) :
    r < b.body.regTypes.length := by
  obtain ⟨x, hx, _, hr⟩ := hr
  obtain ⟨i, hi, hres⟩ := mem_definedBy.mp hr
  exact (List.getElem?_eq_some_iff.mp ((h.blocks x hx).results i hi r hres)).1

/-- The blocks that are known to lie on every way do so. -/
theorem Steady.dominates (h : b.Steady K open_ m) (hK : K v d) : b.body.Dominates d v := by
  intro hpath
  induction hpath with
  | here hne => exact hne (h.knownEntry d hK).symm
  | @step u v _ hedge hne ih =>
    rcases h.knownEdge u v d hedge hK with rfl | hK
    · exact hne rfl
    · exact ih hK

theorem Steady.availOut (h : b.Steady K open_ m) (hv : ∃ w, K v w ∧ b.body.Home r w) :
    b.body.AvailOut v r := by
  obtain ⟨_, hK, x, hx, rfl, hr⟩ := hv
  exact ⟨x, hx, hr, h.dominates hK⟩

theorem Steady.uses (h : b.Steady K open_ m) (hx : x ∈ b.body.blocks) : b.body.UsesOk x := by
  have hb := h.blocks x hx
  refine ⟨fun done i rest hsplit hplain r hr => ?_, fun _ i hi incoming hop r source hmem => ?_,
    fun t ht r hr => h.availOut (hb.term t ht r hr)⟩
  · have havail : b.body.AvailIn x.id done r := by
      rcases hb.plain done i rest hsplit hplain r hr with hdone | ⟨_, hK, hne, y, hy, rfl, hr⟩
      · exact .inl hdone
      · exact .inr ⟨y, hy, hr, hne, h.dominates hK⟩
    exact ⟨havail.mem_results hx hsplit, fun _ => havail⟩
  · exact h.availOut (hb.phi i hi incoming hop r source hmem).2

theorem Sound.shape (h : b.Sound K open_ m) (hx : x ∈ b.body.blocks) (hterm : x.term ≠ none) :
    b.body.ShapeOk b.finish m x := by
  have hb := h.blocks x hx
  obtain ⟨t, ht⟩ := Option.ne_none_iff_exists'.mp hterm
  exact ⟨⟨t, ht, hb.targets t ht, (hb.termFits t ht).checkTerm⟩, hb.phisFirst, h.edges x hx,
    fun i hi => (hb.fits i hi).checkOp⟩

theorem Steady.unique (h : b.Steady K open_ m) : b.body.results.Nodup := by
  refine Body.nodup_results h.ids (fun x hx => (h.blocks x hx).nodup) ?_
  intro x hx y hy hne r hrx hry
  exact hne (h.home r _ _ ⟨x, hx, rfl, hrx⟩ ⟨y, hy, rfl, hry⟩)

/-- A function without unfinished blocks is accepted. -/
theorem Sound.verify (h : b.Sound K [] m) : b.finish.verify m = .ok () := by
  refine (Function.verify_eq_ok_iff rfl h.ids).mpr ⟨h.nonempty, h.start, h.unique, ?_, ?_⟩
  · intro x hx
    refine h.shape hx fun hterm => ?_
    exact List.not_mem_nil (h.unfinished x hx hterm)
  · exact fun x hx => h.uses hx

end Builder

theorem forM_eq_error {ε α : Type} {check : α → Except ε Unit} {e : ε} {xs ys : List α} {x : α}
    (hbefore : ∀ y ∈ xs, check y = .ok ()) (hx : check x = .error e) :
    (xs ++ x :: ys).forM check = .error e := by
  induction xs with
  | nil =>
    change (check x >>= fun _ => ys.forM check) = _
    rw [hx]
    rfl
  | cons y xs ih =>
    change (check y >>= fun _ => (xs ++ x :: ys).forM check) = _
    rw [hbefore y (by simp)]
    exact ih fun z hz => hbefore z (by simp [hz])

/-- While one block is unfinished, that is what the verifier finds. -/
theorem Builder.Sound.verify_unfinished {K : Ways} {b : Builder} {m : Module} {x : Block}
    (h : b.Sound K [x.id] m) (hx : x ∈ b.body.blocks) (hterm : x.term = none) :
    b.finish.verify m = .error (.unterminated x.label) := by
  obtain ⟨before, after, hsplit⟩ := List.append_of_mem hx
  have hok : ∀ y ∈ before,
      b.finish.checkBlock m b.body (FlowGraph.ofBody b.body) y = .ok () := by
    intro y hy
    have hmem : y ∈ b.body.blocks := by simp [hsplit, hy]
    refine Function.checkBlock_eq_ok.mpr (h.shape hmem fun hopen => ?_)
    have hid : y.id = x.id := by simpa using h.unfinished y hmem hopen
    have hids := h.ids
    rw [Body.ids, hsplit, List.map_append, List.nodup_append] at hids
    exact hids.2.2 y.id (List.mem_map_of_mem hy) x.id (by simp) hid
  have herror : b.finish.checkBlock m b.body (FlowGraph.ofBody b.body) x =
      .error (.unterminated x.label) := by
    unfold Function.checkBlock
    rw [hterm]
    rfl
  have hentry : b.body.entryId? = some b.body.entry := by
    obtain ⟨y, ys, hy⟩ := List.exists_cons_of_ne_nil h.nonempty
    simp [Body.entryId?, Body.entry, hy]
  have hstart : (FlowGraph.ofBody b.body).preds b.body.entry = [] :=
    List.eq_nil_iff_forall_not_mem.mpr fun u hu => h.start u (FlowGraph.mem_preds.mp hu)
  have hunique : Body.firstRepeated [] b.body.results = none :=
    Body.firstRepeated_eq_none.mpr ⟨h.unique, fun _ _ => List.not_mem_nil⟩
  have hblocks : b.body.blocks.forM (b.finish.checkBlock m b.body (FlowGraph.ofBody b.body)) =
      .error (.unterminated x.label) := by
    rw [hsplit]
    exact forM_eq_error hok herror
  unfold Function.verify
  simp only [finish, hentry, hunique]
  rw [require_eq_ok.mpr hstart]
  change (b.body.blocks.forM (b.finish.checkBlock m b.body (FlowGraph.ofBody b.body)) >>= _) = _
  rw [hblocks]
  rfl

end SsaCompiler.Ir
