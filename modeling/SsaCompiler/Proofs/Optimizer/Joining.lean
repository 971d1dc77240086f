import SsaCompiler.Proofs.Optimizer.Pruning

/-!
Joining a block to the end of the only block before it. A place in the joined block moves to the
block it is joined to, and dominance, availability and the edges of phis move with it.
-/
namespace SsaCompiler.Ir

/-- Edges of a phi with one source renamed. -/
def renamedSource (source dest : BlockId) (es : List (Value × BlockId)) :
    List (Value × BlockId) := es.map fun e => if e.2 = source then (e.1, dest) else e

/-- What becomes of the block `z` when `y` is joined to `x`. -/
def Block.joined (x y z : Block) : Block :=
  let renamed := z.mapIncoming (renamedSource y.id x.id)
  if z.id = x.id then { renamed with instrs := renamed.instrs ++ y.instrs, term := y.term }
  else renamed

section Joined

variable {x y z : Block}

@[simp] theorem Block.id_joined : (x.joined y z).id = z.id := by
  unfold joined
  split <;> rfl

theorem Block.term_joined : (x.joined y z).term = if z.id = x.id then y.term else z.term := by
  unfold joined
  split <;> rfl

theorem Block.targets_joined :
    (x.joined y z).targets = if z.id = x.id then y.targets else z.targets := by
  unfold targets
  rw [term_joined]
  split <;> rfl

theorem Block.instrs_joined : (x.joined y z).instrs =
    z.instrs.map (Instr.mapIncoming (renamedSource y.id x.id)) ++
      if z.id = x.id then y.instrs else [] := by
  unfold joined
  split
  · rfl
  · exact (List.append_nil _).symm

theorem Block.definedBy_joined : definedBy (x.joined y z).instrs =
    definedBy z.instrs ++ if z.id = x.id then definedBy y.instrs else [] := by
  rw [instrs_joined, definedBy_append, definedBy_map_mapIncoming]
  split <;> rfl

end Joined

namespace Body

variable {b : Body} {f : Function} {m : Module} {x y z : Block} {u v d : BlockId} {r : Reg}
  {done : List Instr}

/-- The block `y` without phis stands behind `x` only, and `x` before `y` only. -/
structure Follow (b : Body) (x y : Block) : Prop where
  first : x ∈ b.blocks
  second : y ∈ b.blocks
  ne : y.id ≠ x.id
  term : x.term = some (.br y.id)
  entry : b.entry ≠ y.id
  preds : ∀ u, b.Leads u y.id → u = x.id
  plain : ∀ i ∈ y.instrs, i.op.isPhi = false

/-- The body with `y` joined to `x`. -/
def joined (b : Body) (x y : Block) : Body :=
  { b with blocks := (b.blocks.filter fun z => z.id ≠ y.id).map (Block.joined x y) }

theorem mem_blocks_joined : z ∈ (b.joined x y).blocks ↔
    ∃ w ∈ b.blocks, w.id ≠ y.id ∧ x.joined y w = z := by
  simp [joined, and_assoc]

theorem nodup_ids_joined (hb : b.ids.Nodup) : (b.joined x y).ids.Nodup := by
  have hsub : (b.joined x y).ids.Sublist b.ids := by
    simp only [ids, joined, List.map_map, Function.comp_def, Block.id_joined]
    exact List.filter_sublist.map _
  exact hsub.nodup hb

theorem mem_ids_joined : u ∈ (b.joined x y).ids ↔ u ∈ b.ids ∧ u ≠ y.id := by
  simp only [mem_ids, mem_blocks_joined]
  constructor
  · rintro ⟨_, ⟨w, hw, hne, rfl⟩, rfl⟩
    exact ⟨⟨w, hw, Block.id_joined.symm⟩, by simpa using hne⟩
  · rintro ⟨⟨w, hw, rfl⟩, hne⟩
    exact ⟨_, ⟨w, hw, hne, rfl⟩, Block.id_joined⟩

namespace Follow

theorem leads_first (h : b.Follow x y) (hb : b.ids.Nodup) : b.Leads x.id v ↔ v = y.id := by
  rw [leads_iff_targets hb h.first, Block.mem_targets_of_term h.term]
  simp [Terminator.successors]

theorem ne_of_leads (h : b.Follow x y) (he : b.Leads u v) (hu : u ≠ x.id) : v ≠ y.id := by
  rintro rfl
  exact hu (h.preds u he)

theorem leads_joined (h : b.Follow x y) (hb : b.ids.Nodup) : (b.joined x y).Leads u v ↔
    u ≠ y.id ∧ if u = x.id then b.Leads y.id v else b.Leads u v := by
  constructor
  · rintro ⟨_, hw', hid, hv⟩
    obtain ⟨w, hw, hne, rfl⟩ := mem_blocks_joined.mp hw'
    rw [Block.id_joined] at hid
    subst hid
    refine ⟨hne, ?_⟩
    split
    · rename_i hwx
      rw [Block.targets_joined, if_pos hwx] at hv
      exact ⟨y, h.second, rfl, hv⟩
    · rename_i hwx
      rw [Block.targets_joined, if_neg hwx] at hv
      exact ⟨w, hw, rfl, hv⟩
  · rintro ⟨hne, hv⟩
    split at hv
    · rename_i hux
      subst hux
      refine ⟨_, mem_blocks_joined.mpr ⟨x, h.first, hne, rfl⟩, Block.id_joined, ?_⟩
      rw [Block.targets_joined, if_pos rfl]
      exact (leads_iff_targets hb h.second).mp hv
    · rename_i hux
      obtain ⟨w, hw, rfl, hv⟩ := hv
      refine ⟨_, mem_blocks_joined.mpr ⟨w, hw, hne, rfl⟩, Block.id_joined, ?_⟩
      rw [Block.targets_joined, if_neg hux]
      exact hv

theorem entry_eq (h : b.Follow x y) : (b.joined x y).entry = b.entry := by
  have hentry := h.entry
  unfold Body.entry entryId? joined at *
  cases hb : b.blocks with
  | nil => rfl
  | cons w ws =>
    have hne : w.id ≠ y.id := by simpa [hb] using hentry
    simp [hne, Block.id_joined]

/-- Where a place of the body lies in the joined body. -/
def move (x y : Block) (v : BlockId) : BlockId := if v = y.id then x.id else v

theorem reaches (h : b.Follow x y) (hb : b.ids.Nodup) (hv : b.Reaches v) :
    (b.joined x y).Reaches (move x y v) := by
  unfold Reaches at hv ⊢
  rw [h.entry_eq]
  induction hv with
  | here _ =>
    rw [move, if_neg h.entry]
    exact Reach.start
  | @step u w hu he _ ih =>
    by_cases hux : u = x.id
    · -- the edge to the joined block stays in place
      subst hux
      obtain rfl := (h.leads_first hb).mp he
      have hmove : move x y x.id = x.id := if_neg (Ne.symm h.ne)
      rw [hmove] at ih
      simpa [move] using ih
    · have hw := h.ne_of_leads he hux
      rw [move, if_neg hw]
      refine ih.next ((h.leads_joined hb).mpr ?_)
      by_cases huy : u = y.id
      · simp only [move, huy, if_true]
        exact ⟨Ne.symm h.ne, huy ▸ he⟩
      · simp only [move, huy, if_false, hux]
        exact ⟨huy, he⟩

/-- A path through the joined body is a path through the body. -/
theorem path (h : b.Follow x y) (hb : b.ids.Nodup) (hd : y.id ≠ d)
    (hp : Path (b.joined x y).Leads (· = d) b.entry v) : Path b.Leads (· = d) b.entry v := by
  induction hp with
  | here hne => exact .here hne
  | @step u w _ he hw ih =>
    obtain ⟨_, hedge⟩ := (h.leads_joined hb).mp he
    split at hedge
    · rename_i hux
      subst hux
      exact .step (.step ih ((h.leads_first hb).mpr rfl) hd) hedge hw
    · exact .step ih hedge hw

theorem first_dominates (h : b.Follow x y) : b.Dominates x.id y.id := by
  refine Dom.of_preds h.entry fun u hu => ?_
  rw [h.preds u hu]
  exact Dom.refl _ _ _

theorem dominates (h : b.Follow x y) (hb : b.ids.Nodup) (hdom : b.Dominates d v) :
    (b.joined x y).Dominates (move x y d) (move x y v) := by
  have hlift : ∀ {d v}, d ≠ y.id → b.Dominates d v → (b.joined x y).Dominates d v := by
    intro d v hd hdom hp
    rw [h.entry_eq] at hp
    exact hdom (h.path hb (Ne.symm hd) hp)
  have hxy := h.first_dominates
  have hbefore : ∀ {d}, d ≠ y.id → b.Dominates d v → b.Dominates d (move x y v) := by
    intro d hd hdom
    unfold move
    split
    · rename_i hv
      subst hv
      exact hdom.of_edge ((h.leads_first hb).mpr rfl) hd
    · exact hdom
  by_cases hd : d = y.id
  · subst hd
    have hmove : move x y y.id = x.id := if_pos rfl
    rw [hmove]
    exact hlift (Ne.symm h.ne) (hbefore (Ne.symm h.ne) (Dom.trans hxy hdom))
  · have hmove : move x y d = d := if_neg hd
    rw [hmove]
    exact hlift hd (hbefore hd hdom)

/-- The block that a block of the body ends up in defines what it defines. -/
theorem home (h : b.Follow x y) (hb : b.ids.Nodup) (hw : z ∈ b.blocks)
    (hr : r ∈ definedBy z.instrs) :
    ∃ w ∈ (b.joined x y).blocks, r ∈ definedBy w.instrs ∧ w.id = move x y z.id := by
  by_cases hzy : z.id = y.id
  · obtain rfl := eq_of_id_eq hb hw h.second hzy
    refine ⟨_, mem_blocks_joined.mpr ⟨x, h.first, Ne.symm h.ne, rfl⟩, ?_, ?_⟩
    · simp [Block.definedBy_joined, hr]
    · simp [Block.id_joined, move]
  · refine ⟨_, mem_blocks_joined.mpr ⟨z, hw, hzy, rfl⟩, ?_, ?_⟩
    · rw [Block.definedBy_joined]
      exact List.mem_append_left _ hr
    · rw [Block.id_joined, move, if_neg hzy]

theorem availOut (h : b.Follow x y) (hb : b.ids.Nodup) (hr : b.AvailOut v r) :
    (b.joined x y).AvailOut (move x y v) r := by
  obtain ⟨z, hz, hdef, hdom⟩ := hr
  obtain ⟨w, hw, hdef', hid⟩ := h.home hb hz hdef
  exact ⟨w, hw, hdef', hid ▸ h.dominates hb hdom⟩

theorem availIn (h : b.Follow x y) (hb : b.ids.Nodup) (hreach : b.Reaches x.id)
    (hz : z.id ≠ y.id) (hr : b.AvailIn z.id done r)
    {F : List (Value × BlockId) → List (Value × BlockId)} :
    (b.joined x y).AvailIn z.id (done.map (Instr.mapIncoming F)) r := by
  rcases hr with hdef | ⟨w, hw, hdef, hne, hdom⟩
  · exact .inl (by simpa using hdef)
  · obtain ⟨w', hw', hdef', hid⟩ := h.home hb hw hdef
    have hdom' := h.dominates hb hdom
    rw [← hid, move, if_neg hz] at hdom'
    refine .inr ⟨w', hw', hdef', ?_, hdom'⟩
    rw [hid, move]
    split
    · rename_i hwy
      rintro heq
      rw [hwy, ← heq] at hdom
      exact h.ne (Dom.antisymm h.first_dominates hdom hreach).symm
    · exact hne

theorem availIn_second (h : b.Follow x y) (hb : b.ids.Nodup) (hr : b.AvailIn y.id done r)
    {F : List (Value × BlockId) → List (Value × BlockId)} :
    (b.joined x y).AvailIn x.id (x.instrs.map (Instr.mapIncoming F) ++ done) r := by
  rcases hr with hdef | ⟨w, hw, hdef, hne, hdom⟩
  · exact .inl (by simp [hdef])
  · by_cases hwx : w.id = x.id
    · obtain rfl := eq_of_id_eq hb hw h.first hwx
      exact .inl (by simp [hdef])
    · obtain ⟨w', hw', hdef', hid⟩ := h.home hb hw hdef
      have hdom' := h.dominates hb hdom
      have hmove : move x y y.id = x.id := if_pos rfl
      rw [← hid, hmove] at hdom'
      refine .inr ⟨w', hw', hdef', ?_, hdom'⟩
      rw [hid, move, if_neg hne]
      exact hwx

theorem mem_results (h : b.Follow x y) (hb : b.ids.Nodup) (hr : r ∈ b.results) :
    r ∈ (b.joined x y).results := by
  obtain ⟨z, hz, hdef⟩ := Body.mem_results.mp hr
  obtain ⟨w, hw, hdef', _⟩ := h.home hb hz hdef
  exact Body.mem_results.mpr ⟨w, hw, hdef'⟩

theorem unique (h : b.Follow x y) (hb : b.ids.Nodup) (hu : b.results.Nodup) :
    (b.joined x y).results.Nodup := by
  have hdisj : ∀ {z w : Block}, z ∈ b.blocks → w ∈ b.blocks → z.id ≠ w.id →
      (definedBy z.instrs).Disjoint (definedBy w.instrs) := by
    intro z w hz hw hne r hrz hrw
    exact hne (congrArg Block.id (definition_unique hu hz hw hrz hrw))
  refine nodup_results (nodup_ids_joined hb) ?_ ?_
  · intro z' hz'
    obtain ⟨z, hz, hzy, rfl⟩ := mem_blocks_joined.mp hz'
    rw [Block.definedBy_joined]
    split
    · exact (nodup_definedBy hu hz).append (nodup_definedBy hu h.second)
        (hdisj hz h.second hzy)
    · simpa using nodup_definedBy hu hz
  · intro z' hz' w' hw' hne
    obtain ⟨z, hz, hzy, rfl⟩ := mem_blocks_joined.mp hz'
    obtain ⟨w, hw, hwy, rfl⟩ := mem_blocks_joined.mp hw'
    rw [Block.id_joined, Block.id_joined] at hne
    rw [Block.definedBy_joined, Block.definedBy_joined]
    have hzw := hdisj hz hw hne
    split
    · rename_i hzx
      rw [if_neg (fun hwx => hne (hzx.trans hwx.symm)), List.append_nil,
        List.disjoint_append_left]
      exact ⟨hzw, (hdisj hw h.second hwy).symm⟩
    · split
      · rw [List.append_nil, List.disjoint_append_right]
        exact ⟨hzw, hdisj hz h.second hzy⟩
      · simpa using hzw

/-- The edges of a phi are those of the joined body once their source is renamed. -/
theorem oneEdgeEach (h : b.Follow x y) (hb : b.ids.Nodup) (hz : z.id ≠ y.id)
    {incoming : List (Value × BlockId)} (hedges : b.OneEdgeEach z.id incoming) :
    (b.joined x y).OneEdgeEach z.id (renamedSource y.id x.id incoming) := by
  obtain ⟨hnd, hiff⟩ := hedges
  have hsources : (renamedSource y.id x.id incoming).map (·.2) =
      (incoming.map (·.2)).map (move x y) := by
    simp only [renamedSource, List.map_map]
    refine List.map_congr_left fun e _ => ?_
    simp only [Function.comp_apply, move]
    split <;> rfl
  have hnotx : x.id ∉ incoming.map (·.2) := by
    intro hmem
    exact hz ((h.leads_first hb).mp ((hiff x.id).mp hmem))
  unfold OneEdgeEach
  rw [hsources]
  constructor
  · refine List.Nodup.map_on ?_ hnd
    intro p hp q hq heq
    unfold move at heq
    split at heq <;> split at heq
    · simp_all
    · exact absurd (heq ▸ hq) hnotx
    · exact absurd (heq ▸ hp) hnotx
    · exact heq
  · intro p
    rw [List.mem_map, h.leads_joined hb]
    constructor
    · rintro ⟨q, hq, rfl⟩
      have hlead := (hiff q).mp hq
      have hqx : q ≠ x.id := fun heq => hnotx (heq ▸ hq)
      by_cases hqy : q = y.id
      · simp only [move, hqy, if_true]
        exact ⟨Ne.symm h.ne, hqy ▸ hlead⟩
      · simp only [move, hqy, if_false, hqx]
        exact ⟨hqy, hlead⟩
    · rintro ⟨hpy, hlead⟩
      split at hlead
      · rename_i hpx
        exact ⟨y.id, (hiff y.id).mpr hlead, by simp [move, hpx]⟩
      · exact ⟨p, (hiff p).mpr hlead, by simp [move, hpy]⟩

theorem shape (h : b.Follow x y) (hb : b.ids.Nodup) (hv : b.Valid f m) (hz : z ∈ b.blocks)
    (hzy : z.id ≠ y.id) : (b.joined x y).ShapeOk f m (x.joined y z) := by
  obtain ⟨hterm, hfirst, hedges, htyped⟩ := hv.shape z hz
  refine ⟨?_, ?_, ?_, ?_⟩
  · rw [Block.term_joined]
    split
    · obtain ⟨t, ht, hsucc, hcheck⟩ := (hv.shape y h.second).term
      refine ⟨t, ht, fun s hs => ?_, hcheck⟩
      have hlead : b.Leads y.id s := ⟨y, h.second, rfl, (Block.mem_targets_of_term ht).mpr hs⟩
      exact mem_ids_joined.mpr ⟨hsucc s hs, h.ne_of_leads hlead h.ne⟩
    · rename_i hzx
      obtain ⟨t, ht, hsucc, hcheck⟩ := hterm
      refine ⟨t, ht, fun s hs => ?_, hcheck⟩
      have hlead : b.Leads z.id s := ⟨z, hz, rfl, (Block.mem_targets_of_term ht).mpr hs⟩
      exact mem_ids_joined.mpr ⟨hsucc s hs, h.ne_of_leads hlead hzx⟩
  · rw [Block.instrs_joined]
    have hrenamed := hfirst.map (T := Instr.mapIncoming (renamedSource y.id x.id))
      fun i => by simp [Instr.mapIncoming]
    split
    · refine List.pairwise_append.mpr ⟨hrenamed, (hv.shape y h.second).phisFirst, ?_⟩
      intro i _ j hj hphi
      simp [h.plain j hj] at hphi
    · simpa using hrenamed
  · intro j hj incoming hop
    rw [Block.id_joined]
    rw [Block.instrs_joined] at hj
    rcases List.mem_append.mp hj with hj | hj
    · obtain ⟨i, hi, rfl⟩ := List.mem_map.mp hj
      obtain ⟨old, hold, rfl⟩ := Op.mapIncoming_eq_phi.mp hop
      exact h.oneEdgeEach hb hzy (hedges i hi old hold)
    · split at hj
      · have hplain := h.plain j hj
        rw [hop] at hplain
        simp [Op.isPhi] at hplain
      · simp at hj
  · intro j hj
    rw [Block.instrs_joined] at hj
    rcases List.mem_append.mp hj with hj | hj
    · obtain ⟨i, hi, rfl⟩ := List.mem_map.mp hj
      cases hphi : i.op.isPhi with
      | false =>
        rw [Instr.mapIncoming, Op.mapIncoming_of_plain hphi]
        exact htyped i hi
      | true =>
        obtain ⟨old, hold⟩ := Op.isPhi_iff.mp hphi
        have hold' := htyped i hi
        simp only [Instr.mapIncoming, hold, Op.mapIncoming] at hold' ⊢
        refine Function.checkOp_phi_of_subset hold' fun e he => ?_
        obtain ⟨e0, he0, rfl⟩ := List.mem_map.mp he
        exact ⟨e0, he0, by split <;> rfl⟩
    · split at hj
      · exact (hv.shape y h.second).typed j hj
      · simp at hj

/-- The uses in a block that is renamed only, or in the first part of the block that is joined to. -/
theorem uses_plain (h : b.Follow x y) (hb : b.Regular f m) (hz : z ∈ b.blocks)
    (hzy : z.id ≠ y.id) {j : Instr} {done' rest' : List Instr}
    (hsplit : z.instrs.map (Instr.mapIncoming (renamedSource y.id x.id)) = done' ++ j :: rest')
    (hplain : j.op.isPhi = false) (hr : .reg r ∈ j.op.operands) :
    r ∈ (b.joined x y).results ∧ (b.joined x y).AvailIn z.id done' r := by
  obtain ⟨done, tail, hsplit', rfl, htail⟩ := List.map_eq_append_iff.mp hsplit
  obtain ⟨i, rest, rfl, rfl, rfl⟩ := List.map_eq_cons_iff.mp htail
  have hplain' : i.op.isPhi = false := by simpa [Instr.mapIncoming] using hplain
  rw [Instr.mapIncoming, Op.mapIncoming_of_plain hplain'] at hr
  obtain ⟨hres, havail⟩ := (hb.valid.uses z hz).plain done i rest hsplit' hplain' r hr
  exact ⟨h.mem_results hb.ids hres,
    h.availIn hb.ids (hb.reached x h.first) hzy (havail (hb.reached z hz))⟩

theorem uses (h : b.Follow x y) (hb : b.Regular f m) (hz : z ∈ b.blocks) (hzy : z.id ≠ y.id) :
    (b.joined x y).UsesOk (x.joined y z) := by
  refine ⟨?_, ?_, ?_⟩
  · intro done' j rest' hsplit hplain r hr
    rw [Block.id_joined]
    rw [Block.instrs_joined] at hsplit
    split at hsplit
    · rename_i hzx
      obtain rfl := eq_of_id_eq hb.ids hz h.first hzx
      rcases List.append_eq_append_iff.mp hsplit.symm with ⟨mid, hmid, htail⟩ | ⟨mid, rfl, htail⟩
      · cases mid with
        | nil =>
          obtain ⟨hres, havail⟩ := (hb.valid.uses y h.second).plain [] j rest' htail.symm hplain r hr
          refine ⟨h.mem_results hb.ids hres, fun _ => ?_⟩
          have hin := h.availIn_second hb.ids (havail (hb.reached y h.second))
            (F := renamedSource y.id z.id)
          rwa [hmid, List.append_nil, List.append_nil] at hin
        | cons k mid =>
          obtain ⟨rfl, rfl⟩ := List.cons.inj htail
          obtain ⟨hres, havail⟩ := h.uses_plain hb hz hzy hmid hplain hr
          exact ⟨hres, fun _ => havail⟩
      · obtain ⟨hres, havail⟩ := (hb.valid.uses y h.second).plain mid j rest' htail hplain r hr
        exact ⟨h.mem_results hb.ids hres,
          fun _ => h.availIn_second hb.ids (havail (hb.reached y h.second))⟩
    · rw [List.append_nil] at hsplit
      obtain ⟨hres, havail⟩ := h.uses_plain hb hz hzy hsplit hplain hr
      exact ⟨hres, fun _ => havail⟩
  · intro _ j hj incoming hop r source hmem
    rw [Block.instrs_joined] at hj
    rcases List.mem_append.mp hj with hj | hj
    · obtain ⟨i, hi, rfl⟩ := List.mem_map.mp hj
      obtain ⟨old, hold, rfl⟩ := Op.mapIncoming_eq_phi.mp hop
      obtain ⟨⟨v, s⟩, he, heq⟩ := List.mem_map.mp hmem
      have hpair : v = .reg r ∧ move x y s = source := by
        unfold move
        by_cases hs : s = y.id
        · simpa [hs] using heq
        · simpa [hs] using heq
      obtain ⟨rfl, rfl⟩ := hpair
      exact h.availOut hb.ids ((hb.valid.uses z hz).phi (hb.reached z hz) i hi old hold r s he)
    · split at hj
      · have hplain := h.plain j hj
        rw [hop] at hplain
        simp [Op.isPhi] at hplain
      · simp at hj
  · intro t ht r hr
    rw [Block.term_joined] at ht
    rw [Block.id_joined]
    split at ht
    · rename_i hzx
      have hout := h.availOut hb.ids ((hb.valid.uses y h.second).term t ht r hr)
      simpa [move, hzx] using hout
    · have hout := h.availOut hb.ids ((hb.valid.uses z hz).term t ht r hr)
      simpa [move, hzy] using hout

theorem regular (h : b.Follow x y) (hb : b.Regular f m) : (b.joined x y).Regular f m := by
  refine ⟨nodup_ids_joined hb.ids, ⟨?_, ?_, h.unique hb.ids hb.valid.unique, ?_, ?_⟩, ?_, ?_⟩
  · exact List.ne_nil_of_mem (mem_blocks_joined.mpr ⟨x, h.first, Ne.symm h.ne, rfl⟩)
  · intro u hu
    rw [h.entry_eq, h.leads_joined hb.ids] at hu
    obtain ⟨_, hu⟩ := hu
    split at hu
    · exact hb.valid.start _ hu
    · exact hb.valid.start _ hu
  · intro z' hz'
    obtain ⟨z, hz, hzy, rfl⟩ := mem_blocks_joined.mp hz'
    exact h.shape hb.ids hb.valid hz hzy
  · intro z' hz'
    obtain ⟨z, hz, hzy, rfl⟩ := mem_blocks_joined.mp hz'
    exact h.uses hb hz hzy
  · intro z' hz'
    obtain ⟨z, hz, hzy, rfl⟩ := mem_blocks_joined.mp hz'
    have hreach := h.reaches hb.ids (hb.reached z hz)
    rw [move, if_neg hzy] at hreach
    simpa using hreach
  · intro z' hz' j hj
    obtain ⟨z, hz, _, rfl⟩ := mem_blocks_joined.mp hz'
    rw [Block.instrs_joined] at hj
    rcases List.mem_append.mp hj with hj | hj
    · obtain ⟨i, hi, rfl⟩ := List.mem_map.mp hj
      exact (hb.typed z hz i hi).of_eq rfl rfl (by simp [Instr.mapIncoming])
    · split at hj
      · exact hb.typed y h.second j hj
      · simp at hj

end Follow

end Body

end SsaCompiler.Ir

namespace SsaCompiler.Optimize

open Ir

variable {b : Body} {f : Function} {m : Module} {x y : Block}

theorem renamedSource_renamedSource {source dest : BlockId} (hne : source ≠ dest)
    (es : List (Value × BlockId)) :
    renamedSource source dest (renamedSource source dest es) = renamedSource source dest es := by
  simp only [renamedSource, List.map_map]
  refine List.map_congr_left fun e _ => ?_
  simp only [Function.comp_apply]
  by_cases he : e.2 = source
  · simp [he, Ne.symm hne]
  · simp [he]

theorem foldl_renameIncoming {source dest : BlockId} (hne : source ≠ dest)
    (targets : List BlockId) (hb : b.ids.Nodup) :
    targets.foldl (fun b s => renameIncoming b s source dest) b =
      { b with blocks := b.blocks.map fun z =>
          if z.id ∈ targets then z.mapIncoming (renamedSource source dest) else z } := by
  induction targets generalizing b with
  | nil => simp
  | cons s targets ih =>
    have hids : (renameIncoming b s source dest).ids = b.ids := Body.ids_updateBlock fun _ => rfl
    rw [List.foldl_cons, ih (hids ▸ hb)]
    simp only [renameIncoming, Body.blocks_updateBlock hb, List.map_map]
    congr 1
    refine List.map_congr_left fun z _ => ?_
    have hrename : (z.mapIncoming fun es =>
        es.map fun e => if e.2 = source then (e.1, dest) else e) =
          z.mapIncoming (renamedSource source dest) := rfl
    simp only [Function.comp_apply, hrename, List.mem_cons]
    by_cases hs : z.id = s
    · have hid : (z.mapIncoming (renamedSource source dest)).id = s := hs
      simp only [hs, if_true, hid, true_or, Block.mapIncoming_mapIncoming,
        renamedSource_renamedSource hne]
      split <;> rfl
    · simp only [hs, if_false, false_or]

/-- A block after `y` has been joined to `x`. -/
def afterJoin (x y z : Block) : Block :=
  let renamed := if z.id ∈ y.successors then z.mapIncoming (renamedSource y.id x.id) else z
  if renamed.id = x.id then { renamed with instrs := renamed.instrs ++ y.instrs, term := y.term }
  else renamed

/-- What joining two blocks does to each of the other ones. -/
theorem joinBlocks_eq_map (hb : b.ids.Nodup) (hne : y.id ≠ x.id) : joinBlocks b x.id y =
    { b with blocks := (b.blocks.filter (·.id ≠ y.id)).map (afterJoin x y) } := by
  have hrest : (b.removeBlock y.id).ids.Nodup := Body.nodup_ids_removeBlock hb
  have hids : (y.successors.foldl (fun b s => renameIncoming b s y.id x.id)
      (b.removeBlock y.id)).ids = (b.removeBlock y.id).ids := by
    rw [foldl_renameIncoming hne _ hrest, Body.ids, List.map_map]
    refine List.map_congr_left fun z _ => ?_
    simp only [Function.comp_apply]
    split <;> rfl
  have hblocks : (joinBlocks b x.id y).blocks =
      (b.blocks.filter (·.id ≠ y.id)).map (afterJoin x y) := by
    unfold joinBlocks
    rw [Body.blocks_updateBlock (hids ▸ hrest), foldl_renameIncoming hne _ hrest,
      Body.blocks_removeBlock hb, List.map_map]
    rfl
  have hrest : joinBlocks b x.id y = { b with blocks := (joinBlocks b x.id y).blocks } := by
    unfold joinBlocks
    rw [foldl_renameIncoming hne _ hrest]
    rfl
  rw [hrest, hblocks]

/-- Phis have edges from `y` only in the targets of `y`, so renaming changes nothing elsewhere. -/
theorem mapIncoming_renamedSource (hv : b.Valid f m) (hb : b.ids.Nodup) (hy : y ∈ b.blocks)
    {z : Block} (hz : z ∈ b.blocks) (hnot : z.id ∉ y.successors) (dest : BlockId) :
    z.mapIncoming (renamedSource y.id dest) = z := by
  refine Eq.trans ?_ z.mapIncoming_id
  simp only [Block.mapIncoming]
  congr 1
  refine List.map_congr_left fun i hi => ?_
  cases hphi : i.op.isPhi with
  | false => simp only [Instr.mapIncoming, Op.mapIncoming_of_plain hphi]
  | true =>
    obtain ⟨old, hold⟩ := Op.isPhi_iff.mp hphi
    simp only [Instr.mapIncoming, hold, Op.mapIncoming]
    congr 2
    refine (List.map_congr_left fun e he => ?_).trans old.map_id
    rw [if_neg]
    · rfl
    intro hsource
    have hlead := (((hv.shape z hz).edges i hi old hold).2 e.2).mp (List.mem_map_of_mem he)
    rw [hsource, Body.leads_iff_targets hb hy, Block.mem_targets] at hlead
    exact hnot hlead

theorem joinBlocks_eq (hv : b.Valid f m) (hb : b.ids.Nodup) (h : b.Follow x y) :
    joinBlocks b x.id y = b.joined x y := by
  rw [joinBlocks_eq_map hb h.ne, Body.joined]
  congr 1
  refine List.map_congr_left fun z hz => ?_
  have hz' := (List.mem_filter.mp hz).1
  have hrename : (if z.id ∈ y.successors then z.mapIncoming (renamedSource y.id x.id) else z) =
      z.mapIncoming (renamedSource y.id x.id) := by
    split
    · rfl
    · rename_i hnot
      exact (mapIncoming_renamedSource hv hb h.second hz' hnot x.id).symm
  simp only [afterJoin, hrename]
  rfl

/-- What the search for a block to join finds. -/
theorem follow_of_follower? (hv : b.Valid f m) (hb : b.ids.Nodup) (hx : x ∈ b.blocks)
    (h : follower? b (FlowGraph.ofBody b) x = some y) : b.Follow x y := by
  unfold follower? at h
  split at h
  · rename_i s hterm
    split at h
    · rename_i hcond
      obtain ⟨hne, hentry, hpreds⟩ := hcond
      obtain ⟨hblock, hphis⟩ := Option.filter_eq_some_iff.mp h
      obtain ⟨hy, rfl⟩ := (Body.block?_eq_some hb).mp hblock
      refine ⟨hx, hy, hne, hterm, ?_, ?_, ?_⟩
      · intro heq
        cases hid : b.entryId? with
        | none =>
          exact hv.nonempty (by simpa [Body.entryId?] using hid)
        | some e =>
          rw [Body.entry, hid, Option.getD_some] at heq
          exact hentry (heq ▸ hid)
      · intro u hu
        have hmem := FlowGraph.mem_preds.mpr hu
        rw [hpreds] at hmem
        simpa using hmem
      · intro i hi
        refine (hv.shape y hy).phisFirst.plain_behind ?_
        have hnone : y.instrs.takeWhile (·.op.isPhi) = [] := by
          simpa [Block.phis] using hphis
        have hall := List.takeWhile_append_dropWhile (p := fun i : Instr => i.op.isPhi)
          (l := y.instrs)
        rw [hnone, List.nil_append] at hall
        rw [hall]
        exact hi
    · simp at h
  · simp at h

end SsaCompiler.Optimize
