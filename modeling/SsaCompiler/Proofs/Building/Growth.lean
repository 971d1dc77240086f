import SsaCompiler.Proofs.Building.Sound

/-!
How a function under construction changes. A change names the blocks it may touch in any way, those
it may only extend, and those it may add edges to; all other blocks stay as they are, and what was
defined and known stays so. Changes compose as long as the later ones affect only new blocks beside
those of the first.
-/
namespace SsaCompiler.Ir

/-- The block `x'` has more instructions than `x` at its end, none of them a phi, and may be ended
where `x` is open. -/
structure Block.Extends (x x' : Block) : Prop where
  id : x'.id = x.id
  instrs : ∃ more, x'.instrs = x.instrs ++ more ∧ ∀ i ∈ more, i.op.isPhi = false
  term : x.term = none ∨ x'.term = x.term

theorem Block.Extends.refl (x : Block) : x.Extends x := ⟨rfl, ⟨[], by simp⟩, .inr rfl⟩

theorem Block.Extends.trans {x x' x'' : Block} (h : x.Extends x') (h' : x'.Extends x'') :
    x.Extends x'' := by
  obtain ⟨more, hmore, hplain⟩ := h.instrs
  obtain ⟨more', hmore', hplain'⟩ := h'.instrs
  refine ⟨h'.id.trans h.id, ⟨more ++ more', by simp [hmore', hmore], fun i hi => ?_⟩, ?_⟩
  · rcases List.mem_append.mp hi with hi | hi
    · exact hplain i hi
    · exact hplain' i hi
  · rcases h.term with hterm | hterm
    · exact .inl hterm
    · exact h'.term.imp (fun hnone => hterm ▸ hnone) fun hsame => hsame.trans hterm

/-- A change that touches the blocks of `touched`, extends those of `extended`, and adds edges to
those of `entered`, among the old ones. The entry block may gain instructions at any time. -/
structure Builder.Grows (touched extended entered : List BlockId) (K : Ways) (b : Builder)
    (m : Module) (K' : Ways) (b' : Builder) (m' : Module) : Prop
    extends Builder.Widens b m b' m' where
  known : ∀ v, v < b.body.nextBlock → v ∉ entered → K' v = K v
  next : b.body.nextBlock ≤ b'.body.nextBlock
  old : ∀ v ∈ b'.body.ids, v ∈ b.body.ids ∨ b.body.nextBlock ≤ v
  entry : b'.body.entry = b.body.entry
  frame : ∀ x ∈ b.body.blocks, x.id ≠ b.body.entry → x.id ∉ touched →
    ∃ x' ∈ b'.body.blocks, x.Extends x' ∧ (x.id ∉ extended → x' = x)
  home : ∀ r v, b.body.Home r v → b'.body.Home r v
  leads : ∀ u v, b.body.Leads u v → b'.body.Leads u v
  preds : ∀ u v, b'.body.Leads u v → b.body.Leads u v ∨ v ∈ entered ∨ b.body.nextBlock ≤ v

namespace Builder.Grows

variable {T E P T' E' P' : List BlockId} {K K' K'' : Ways} {b b' b'' : Builder}
  {m m' m'' : Module} {u v : BlockId} {x : Block}

theorem refl (K : Ways) (b : Builder) (m : Module) : Grows T E P K b m K b m where
  toWidens := .refl b m
  known _ _ _ := rfl
  next := le_rfl
  old _ hv := .inl hv
  entry := rfl
  frame x hx _ _ := ⟨x, hx, .refl x, fun _ => rfl⟩
  home _ _ h := h
  leads _ _ h := h
  preds _ _ h := .inl h

/-- Changes compose if the second affects only new blocks beside those of the first. -/
theorem trans (h : Grows T E P K b m K' b' m') (h' : Grows T' E' P' K' b' m' K'' b'' m'')
    (hb : ∀ v ∈ b.body.ids, v < b.body.nextBlock)
    (hT : ∀ v ∈ T', v ∈ T ∨ b.body.nextBlock ≤ v)
    (hE : ∀ v ∈ E', v ∈ E ∨ v ∈ T ∨ b.body.nextBlock ≤ v)
    (hP : ∀ v ∈ P', v ∈ P ∨ b.body.nextBlock ≤ v) : Grows T E P K b m K'' b'' m'' where
  toWidens := h.toWidens.trans h'.toWidens
  known v hv hPv := by
    refine (h'.known v (Nat.lt_of_lt_of_le hv h.next) fun hPv' => ?_).trans (h.known v hv hPv)
    exact (hP v hPv').elim hPv (Nat.not_le.mpr hv)
  next := h.next.trans h'.next
  old v hv := by
    rcases h'.old v hv with hv | hv
    · exact h.old v hv
    · exact .inr (h.next.trans hv)
  entry := h'.entry.trans h.entry
  frame x hx hne hTx := by
    have hlt := Nat.not_le.mpr (hb x.id (Body.id_mem_ids hx))
    obtain ⟨x', hx', hext, hsame⟩ := h.frame x hx hne hTx
    have hTx' : x'.id ∉ T' := by
      rw [hext.id]
      exact fun hmem => (hT x.id hmem).elim hTx hlt
    obtain ⟨x'', hx'', hext', hsame'⟩ := h'.frame x' hx' (by rwa [hext.id, h.entry]) hTx'
    refine ⟨x'', hx'', hext.trans hext', fun hEx => ?_⟩
    rw [hsame' ?_, hsame hEx]
    rw [hext.id]
    exact fun hmem => (hE x.id hmem).elim hEx fun h => h.elim hTx hlt
  home r v hr := h'.home r v (h.home r v hr)
  leads u v hl := h'.leads u v (h.leads u v hl)
  preds u v hl := by
    rcases h'.preds u v hl with hl | hPv | hle
    · exact h.preds u v hl
    · exact .inr (hP v hPv)
    · exact .inr (.inr (h.next.trans hle))

/-- A change that affects less may be taken for one that affects more. -/
theorem weaken (h : Grows T E P K b m K' b' m') (hT : ∀ v ∈ T, v ∈ T') (hE : ∀ v ∈ E, v ∈ E')
    (hP : ∀ v ∈ P, v ∈ P') : Grows T' E' P' K b m K' b' m' :=
  { h with
    known := fun v hv hPv => h.known v hv fun hmem => hPv (hP v hmem)
    frame := fun x hx hne hTx => by
      obtain ⟨x', hx', hext, hsame⟩ := h.frame x hx hne fun hmem => hTx (hT _ hmem)
      exact ⟨x', hx', hext, fun hEx => hsame fun hmem => hEx (hE _ hmem)⟩
    preds := fun u v hl => (h.preds u v hl).imp_right (Or.imp_left (hP v)) }

theorem reaches (h : Grows T E P K b m K' b' m') (hv : b.body.Reaches v) : b'.body.Reaches v := by
  unfold Body.Reaches at *
  rw [h.entry]
  exact hv.mono h.leads

/-- The edges into a block that none were added to are the same. -/
theorem leads_iff (h : Grows T E P K b m K' b' m') (hP : v ∉ P) (hv : v < b.body.nextBlock) :
    b'.body.Leads u v ↔ b.body.Leads u v := by
  refine ⟨fun hl => ?_, h.leads u v⟩
  rcases h.preds u v hl with hl | hPv | hle
  · exact hl
  · exact absurd hPv hP
  · exact absurd hv (Nat.not_lt.mpr hle)

/-- A block that was neither touched nor extended is still there. -/
theorem mem (h : Grows T E P K b m K' b' m') (hx : x ∈ b.body.blocks) (hne : x.id ≠ b.body.entry)
    (hT : x.id ∉ T) (hE : x.id ∉ E) : x ∈ b'.body.blocks := by
  obtain ⟨x', hx', _, hsame⟩ := h.frame x hx hne hT
  rwa [hsame hE] at hx'

end Builder.Grows

/-- A sound block stays sound while what it rests on stays in place. -/
theorem Block.Sound.mono {K K' : Ways} {b b' : Builder} {m m' : Module} {x : Block}
    (h : x.Sound K b m) (hw : b.Widens m b' m')
    (hhome : ∀ r v, b.body.Home r v → b'.body.Home r v)
    (htargets : ∀ v ∈ x.targets, v ∈ b.body.ids → v ∈ b'.body.ids)
    (hsources : ∀ i ∈ x.instrs, ∀ incoming, i.op = .phi incoming →
      ∀ e ∈ incoming, e.2 ∈ b.body.ids → e.2 ∈ b'.body.ids)
    (hK : ∀ v ∈ b.body.ids, ∀ d, K v d → K' v d) (hx : x ∈ b.body.blocks) :
    x.Sound K' b' m' where
  nodup := h.nodup
  phisFirst := h.phisFirst
  fits i hi := (h.fits i hi).widens hw
  results i hi r hr := hw.regType (h.results i hi r hr)
  plain done i rest hsplit hplain r hr := by
    refine (h.plain done i rest hsplit hplain r hr).imp_right ?_
    rintro ⟨v, hv, hne, hr⟩
    exact ⟨v, hK _ (Body.id_mem_ids hx) v hv, hne, hhome r v hr⟩
  phi i hi incoming hop r source hmem := by
    obtain ⟨hsource, v, hv, hr⟩ := h.phi i hi incoming hop r source hmem
    exact ⟨hsources i hi incoming hop _ hmem hsource, v, hK source hsource v hv, hhome r v hr⟩
  targets t ht s hs :=
    htargets s ((Block.mem_targets_of_term ht).mpr hs) (h.targets t ht s hs)
  termFits t ht := (h.termFits t ht).widens hw
  term t ht r hr := by
    obtain ⟨v, hv, hr⟩ := h.term t ht r hr
    exact ⟨v, hK _ (Body.id_mem_ids hx) v hv, hhome r v hr⟩

/-- One block is changed, and no block comes or goes. -/
structure Body.Replaces (b : Body) (x x' : Block) (b' : Body) : Prop where
  ids : b'.ids = b.ids
  mem : ∀ y, y ∈ b'.blocks ↔ (y ∈ b.blocks ∧ y.id ≠ x.id) ∨ y = x'
  id : x'.id = x.id
  next : b'.nextBlock = b.nextBlock

namespace Body

variable {b b' : Body} {x x' : Block} {u v : BlockId} {r : Reg}

theorem entry_of_ids (h : b'.ids = b.ids) : b'.entry = b.entry := by
  have hhead : ∀ b : Body, b.entry = b.ids.head?.getD 0 := by simp [entry, entryId?, ids]
  rw [hhead b', hhead b, h]

theorem replaces_updateBlock (hb : b.ids.Nodup) (hx : x ∈ b.blocks) (hv : x.id = v)
    {f : Block → Block} (hid : ∀ x, (f x).id = x.id) :
    b.Replaces x (f x) (b.updateBlock v f) := by
  subst hv
  refine ⟨ids_updateBlock hid, fun y => ?_, hid x, rfl⟩
  rw [blocks_updateBlock hb, List.mem_map]
  constructor
  · rintro ⟨z, hz, rfl⟩
    by_cases hzx : z.id = x.id
    · right
      rw [if_pos hzx, eq_of_id_eq hb hz hx hzx]
    · left
      rw [if_neg hzx]
      exact ⟨hz, hzx⟩
  · rintro (⟨hy, hne⟩ | rfl)
    · exact ⟨y, hy, if_neg hne⟩
    · exact ⟨x, hx, if_pos rfl⟩

namespace Replaces

theorem entry (h : b.Replaces x x' b') : b'.entry = b.entry := entry_of_ids h.ids

theorem exists_iff {P : Block → Prop} (h : b.Replaces x x' b') :
    (∃ y ∈ b'.blocks, y.id = v ∧ P y) ↔
      (v ≠ x.id ∧ ∃ y ∈ b.blocks, y.id = v ∧ P y) ∨ (v = x.id ∧ P x') := by
  constructor
  · rintro ⟨y, hy, rfl, hP⟩
    rcases (h.mem y).mp hy with ⟨hy, hne⟩ | rfl
    · exact .inl ⟨hne, y, hy, rfl, hP⟩
    · exact .inr ⟨h.id, hP⟩
  · rintro (⟨hne, y, hy, rfl, hP⟩ | ⟨rfl, hP⟩)
    · exact ⟨y, (h.mem y).mpr (.inl ⟨hy, hne⟩), rfl, hP⟩
    · exact ⟨x', (h.mem x').mpr (.inr rfl), h.id, hP⟩

theorem home_iff (h : b.Replaces x x' b') :
    b'.Home r v ↔ (v ≠ x.id ∧ b.Home r v) ∨ (v = x.id ∧ r ∈ definedBy x'.instrs) := h.exists_iff

theorem leads_iff (h : b.Replaces x x' b') :
    b'.Leads u v ↔ (u ≠ x.id ∧ b.Leads u v) ∨ (u = x.id ∧ v ∈ x'.targets) := h.exists_iff

/-- A change that keeps the terminator keeps the edges. -/
theorem leads_same (h : b.Replaces x x' b') (hb : b.ids.Nodup) (hx : x ∈ b.blocks)
    (hterm : x'.term = x.term) : b'.Leads u v ↔ b.Leads u v := by
  rw [h.leads_iff]
  have htargets : x'.targets = x.targets := by simp [Block.targets, hterm]
  by_cases hu : u = x.id
  · subst hu
    simp [htargets, leads_iff_targets hb hx]
  · simp [hu]

end Replaces

end Body

theorem Builder.ids_appendBlock {b : Builder} {name : String} :
    (b.appendBlock name).2.body.ids = b.body.ids ++ [b.body.nextBlock] := by
  simp [appendBlock, Body.addBlock, Body.ids]

theorem Builder.nodup_ids_appendBlock {b : Builder} {name : String}
    (hlt : ∀ v ∈ b.body.ids, v < b.body.nextBlock) (hids : b.body.ids.Nodup) :
    (b.appendBlock name).2.body.ids.Nodup := by
  rw [ids_appendBlock, ← List.concat_eq_append]
  exact hids.concat fun hmem => Nat.lt_irrefl _ (hlt _ hmem)

/-- Moving a block to the end leaves the same blocks. -/
theorem Builder.exists_perm_moveToEnd (b : Builder) (id : BlockId) :
    ∃ blocks, b.moveToEnd id = { b with body := { b.body with blocks } } ∧
      blocks.Perm b.body.blocks := by
  unfold moveToEnd
  cases hblock : b.body.block? id with
  | none => exact ⟨_, rfl, .rfl⟩
  | some x =>
    refine ⟨_, rfl, ?_⟩
    obtain ⟨hid, before, behind, hblocks, hne⟩ := List.find?_eq_some_iff_append.mp hblock
    have hrest : (b.body.removeBlock id).blocks = before ++ behind := by
      rw [Body.removeBlock, hblocks, List.eraseP_append_right _ (by simpa using hne),
        List.eraseP_cons_of_pos (p := fun y : Block => decide (y.id = id)) hid]
    rw [hrest, hblocks]
    exact (List.perm_append_singleton x _).trans List.perm_middle.symm

/-- A change of one block keeps a function steady, if the block stays sound, no register gets a
second home and new edges lead where they are known to. -/
theorem Builder.Steady.replace {T E P : List BlockId} {K : Ways} {open_ open_' : List BlockId}
    {b b' : Builder} {m : Module} {x x' : Block} (hs : b.Steady K open_ m)
    (hrep : b.body.Replaces x x' b'.body) (hgrows : Grows T E P K b m K b' m)
    (hcur : b'.current = b.current)
    (hhome : ∀ r v w, b'.body.Home r v → b'.body.Home r w → v = w)
    (hedge : ∀ u v, b'.body.Leads u v → b.body.Leads u v ∨
      (v ≠ b.body.entry ∧ ∀ d, K v d → d = v ∨ K u d))
    (hx' : x'.Sound K b' m) (hplain : x.id = b.body.entry → ∀ i ∈ x'.instrs, i.op.isPhi = false)
    (hopen : ∀ y ∈ b'.body.blocks, y.term = none → y.id ∈ open_')
    (hreach : x'.term.isSome ∨ x.id = b.current → b.body.Reaches x.id) :
    b'.Steady K open_' m := by
  have hids := hrep.ids
  have hentry := hrep.entry
  refine ⟨hs.honest, ?_, hids ▸ hs.ids, ?_, hhome, ?_, ?_, ?_, ?_, ?_, ?_, ?_, hopen, ?_⟩
  · exact List.ne_nil_of_mem ((hrep.mem x').mpr (.inr rfl))
  · rw [hids, hrep.next]
    exact hs.fresh
  · intro u hl
    rw [hentry] at hl
    rcases hedge u _ hl with hl | ⟨hne, _⟩
    · exact hs.start u hl
    · exact hne rfl
  · intro y hy hid
    rw [hentry] at hid
    rcases (hrep.mem y).mp hy with ⟨hy, _⟩ | rfl
    · exact hs.entryPlain y hy hid
    · exact hplain (hrep.id ▸ hid)
  · intro y hy
    rcases (hrep.mem y).mp hy with ⟨hy, _⟩ | rfl
    · exact (hs.blocks y hy).mono hgrows.toWidens hgrows.home (fun _ _ hv => hids ▸ hv)
        (fun _ _ _ _ _ _ hv => hids ▸ hv) (fun _ _ _ hd => hd) hy
    · exact hx'
  · rw [hentry]
    exact hs.knownEntry
  · intro u v d hl hd
    rcases hedge u v hl with hl | ⟨_, hknown⟩
    · exact hs.knownEdge u v d hl hd
    · exact hknown d hd
  · rw [hids, hentry]
    exact hs.entryKnown
  · rw [hids]
    exact hs.selfKnown
  · intro y hy hterm
    rw [hcur] at hterm
    refine hgrows.reaches ?_
    rcases (hrep.mem y).mp hy with ⟨hy, _⟩ | rfl
    · exact hs.reached y hy hterm
    · rw [hrep.id] at hterm ⊢
      exact hreach hterm

end SsaCompiler.Ir
