import SsaCompiler.Optimize.Branch
import SsaCompiler.Proofs.Validity.Substitution

/-!
Deciding branches on constants and removing blocks out of reach are both cases of pruning: some
blocks go, terminators give up some of their targets, and phis lose the edges that are gone. A
pruned body is valid, and after the blocks out of reach are removed it is regular.
-/
namespace SsaCompiler.Ir

section Incoming

variable {F G : List (Value × BlockId) → List (Value × BlockId)}

theorem Instr.mapIncoming_mapIncoming (i : Instr) :
    (i.mapIncoming F).mapIncoming G = i.mapIncoming (fun es => G (F es)) := by
  unfold mapIncoming
  cases i.op <;> rfl

theorem Instr.mapIncoming_id (i : Instr) : i.mapIncoming (fun es => es) = i := by
  obtain ⟨result, ty, op⟩ := i
  cases op <;> rfl

theorem Block.mapIncoming_mapIncoming (x : Block) :
    (x.mapIncoming F).mapIncoming G = x.mapIncoming (fun es => G (F es)) := by
  simp [mapIncoming, Function.comp_def, Instr.mapIncoming_mapIncoming]

theorem Block.mapIncoming_id (x : Block) : x.mapIncoming (fun es => es) = x := by
  have hid : (x.instrs.map fun i => i.mapIncoming fun es => es) = x.instrs :=
    (List.map_congr_left fun i _ => i.mapIncoming_id).trans x.instrs.map_id
  simp only [mapIncoming, hid]

theorem Op.mapIncoming_eq_phi {op : Op} {incoming : List (Value × BlockId)} :
    op.mapIncoming F = .phi incoming ↔ ∃ old, op = .phi old ∧ F old = incoming := by
  cases op <;> simp [mapIncoming]

theorem Op.mapIncoming_of_plain {op : Op} (h : op.isPhi = false) : op.mapIncoming F = op := by
  cases op with
  | phi _ => simp [isPhi] at h
  | _ => rfl

@[simp] theorem Op.isPhi_mapIncoming (op : Op) : (op.mapIncoming F).isPhi = op.isPhi := by
  cases op <;> rfl

@[simp] theorem Op.isCompare_mapIncoming (op : Op) :
    (op.mapIncoming F).isCompare = op.isCompare := by
  cases op <;> rfl

@[simp] theorem definedBy_map_mapIncoming (is : List Instr) :
    definedBy (is.map (Instr.mapIncoming F)) = definedBy is := by
  simp [definedBy, List.filterMap_map, Function.comp_def, Instr.mapIncoming]

end Incoming

/-- A block whose phis keep the live edges and whose terminator is changed. -/
def Block.pruned (live : BlockId → BlockId → Bool) (τ : Terminator → Terminator) (x : Block) :
    Block :=
  { x.mapIncoming (·.filter fun e => live e.2 x.id) with term := x.term.map τ }

@[simp] theorem Block.definedBy_pruned {live : BlockId → BlockId → Bool}
    {τ : Terminator → Terminator} {x : Block} :
    definedBy (x.pruned live τ).instrs = definedBy x.instrs := definedBy_map_mapIncoming _

namespace Body

/-- Keeps some blocks and some edges. -/
def pruned (keep : BlockId → Bool) (live : BlockId → BlockId → Bool)
    (τ : Terminator → Terminator) (b : Body) : Body :=
  { b with blocks := (b.blocks.filter fun x => keep x.id).map (Block.pruned live τ) }

variable {b : Body} {f : Function} {m : Module} {keep : BlockId → Bool}
  {live : BlockId → BlockId → Bool} {τ : Terminator → Terminator} {x : Block} {u v : BlockId}
  {r : Reg} {done : List Instr}

/-- What makes a choice of blocks, edges and terminators fit together. -/
structure Prunes (f : Function) (b : Body) (keep : BlockId → Bool)
    (live : BlockId → BlockId → Bool) (τ : Terminator → Terminator) : Prop where
  entry : keep b.entry
  dominators : ∀ u ∈ b.ids, ∀ v, keep v → b.Dominates u v → keep u
  targets : ∀ x ∈ b.blocks, keep x.id → ∀ t, x.term = some t → ∀ s ∈ (τ t).successors,
    s ∈ t.successors ∧ keep s
  check : ∀ t, f.checkTerm t = .ok () → f.checkTerm (τ t) = .ok ()
  operands : ∀ t, ∀ v ∈ (τ t).operands, v ∈ t.operands
  live : ∀ u v, b.Leads u v → keep v → (live u v ↔ (b.pruned keep live τ).Leads u v)

theorem mem_blocks_pruned {y : Block} : y ∈ (b.pruned keep live τ).blocks ↔
    ∃ x ∈ b.blocks, keep x.id ∧ x.pruned live τ = y := by
  simp [pruned, and_assoc]

theorem mem_ids_pruned : u ∈ (b.pruned keep live τ).ids ↔ u ∈ b.ids ∧ keep u := by
  simp only [mem_ids, mem_blocks_pruned]
  constructor
  · rintro ⟨_, ⟨x, hx, hkeep, rfl⟩, rfl⟩
    exact ⟨⟨x, hx, rfl⟩, hkeep⟩
  · rintro ⟨⟨x, hx, rfl⟩, hkeep⟩
    exact ⟨_, ⟨x, hx, hkeep, rfl⟩, rfl⟩

theorem nodup_ids_pruned (hb : b.ids.Nodup) : (b.pruned keep live τ).ids.Nodup := by
  have hsub : (b.pruned keep live τ).ids.Sublist b.ids := by
    simp only [ids, pruned, List.map_map, Function.comp_def, Block.pruned, Block.mapIncoming]
    exact List.filter_sublist.map _
  exact hsub.nodup hb

theorem leads_pruned (hb : b.ids.Nodup) (hx : x ∈ b.blocks) (hkeep : keep x.id) {t : Terminator}
    (ht : x.term = some t) :
    (b.pruned keep live τ).Leads x.id v ↔ v ∈ (τ t).successors := by
  have hmem : x.pruned live τ ∈ (b.pruned keep live τ).blocks :=
    mem_blocks_pruned.mpr ⟨x, hx, hkeep, rfl⟩
  have hterm : (x.pruned live τ).term = some (τ t) := by simp [Block.pruned, ht]
  rw [← Block.mem_targets_of_term hterm]
  exact leads_iff_targets (nodup_ids_pruned hb) hmem

namespace Prunes

/-- The edges of a pruned body are edges of the body between blocks that stay. -/
theorem leads (h : b.Prunes f keep live τ) (huv : (b.pruned keep live τ).Leads u v) :
    b.Leads u v ∧ keep u ∧ keep v := by
  obtain ⟨_, hx', rfl, hv⟩ := huv
  obtain ⟨x, hx, hkeep, rfl⟩ := mem_blocks_pruned.mp hx'
  obtain ⟨t', ht', hsucc⟩ := Block.exists_term hv
  simp only [Block.pruned, Option.map_eq_some_iff] at ht'
  obtain ⟨t, ht, rfl⟩ := ht'
  obtain ⟨hold, hkv⟩ := h.targets x hx hkeep t ht v hsucc
  exact ⟨⟨x, hx, rfl, (Block.mem_targets_of_term ht).mpr hold⟩, hkeep, hkv⟩

theorem entry_eq (h : b.Prunes f keep live τ) (hne : b.blocks ≠ []) :
    (b.pruned keep live τ).entry = b.entry := by
  have hentry := h.entry
  unfold Body.entry entryId? pruned at *
  cases hb : b.blocks with
  | nil => exact absurd hb hne
  | cons x xs =>
    have hkeep : keep x.id := by simpa [hb] using hentry
    simp [hkeep, Block.pruned, Block.mapIncoming]

theorem reaches (h : b.Prunes f keep live τ) (hne : b.blocks ≠ [])
    (hv : (b.pruned keep live τ).Reaches v) : b.Reaches v := by
  unfold Reaches at hv
  rw [h.entry_eq hne] at hv
  exact hv.mono fun _ _ he => (h.leads he).1

theorem dominates (h : b.Prunes f keep live τ) (hne : b.blocks ≠ [])
    (huv : b.Dominates u v) : (b.pruned keep live τ).Dominates u v := by
  unfold Dominates
  rw [h.entry_eq hne]
  exact Dom.mono huv fun _ _ he => (h.leads he).1

theorem availOut (h : b.Prunes f keep live τ) (hne : b.blocks ≠ []) (hkeep : keep v)
    (hr : b.AvailOut v r) : (b.pruned keep live τ).AvailOut v r := by
  obtain ⟨y, hy, hdef, hdom⟩ := hr
  have hky := h.dominators y.id (id_mem_ids hy) v hkeep hdom
  exact ⟨_, mem_blocks_pruned.mpr ⟨y, hy, hky, rfl⟩, by simpa using hdef, h.dominates hne hdom⟩

theorem availIn (h : b.Prunes f keep live τ) (hne : b.blocks ≠ []) (hkeep : keep v)
    (hr : b.AvailIn v done r)
    {F : List (Value × BlockId) → List (Value × BlockId)} :
    (b.pruned keep live τ).AvailIn v (done.map (Instr.mapIncoming F)) r := by
  rcases hr with hdef | ⟨y, hy, hdef, hyv, hdom⟩
  · exact .inl (by simpa using hdef)
  · have hky := h.dominators y.id (id_mem_ids hy) v hkeep hdom
    exact .inr ⟨_, mem_blocks_pruned.mpr ⟨y, hy, hky, rfl⟩, by simpa using hdef, hyv,
      h.dominates hne hdom⟩

/-- Of a block that stays and cannot be reached, everything counts as a dominator. -/
theorem mem_results (h : b.Prunes f keep live τ) (hkeep : keep v) (hv : ¬ b.Reaches v)
    (hr : r ∈ b.results) : r ∈ (b.pruned keep live τ).results := by
  obtain ⟨y, hy, hdef⟩ := Body.mem_results.mp hr
  have hdom : b.Dominates y.id v := fun hp => hv hp.reach
  have hky := h.dominators y.id (id_mem_ids hy) v hkeep hdom
  exact Body.mem_results.mpr ⟨_, mem_blocks_pruned.mpr ⟨y, hy, hky, rfl⟩, by simpa using hdef⟩

theorem shape (h : b.Prunes f keep live τ) (hkeep : keep x.id) (hx : x ∈ b.blocks)
    (hok : b.ShapeOk f m x) : (b.pruned keep live τ).ShapeOk f m (x.pruned live τ) := by
  obtain ⟨⟨t, ht, hsucc, hcheck⟩, hfirst, hedges, htyped⟩ := hok
  refine ⟨⟨τ t, by simp [Block.pruned, ht], ?_, h.check t hcheck⟩,
    hfirst.map fun i => by simp [Instr.mapIncoming], ?_, ?_⟩
  · intro s hs
    obtain ⟨hold, hks⟩ := h.targets x hx hkeep t ht s hs
    exact mem_ids_pruned.mpr ⟨hsucc s hold, hks⟩
  · intro j hj incoming hop
    obtain ⟨i, hi, rfl⟩ := List.mem_map.mp hj
    obtain ⟨old, hold, rfl⟩ := Op.mapIncoming_eq_phi.mp hop
    obtain ⟨hnd, hiff⟩ := hedges i hi old hold
    refine ⟨(List.filter_sublist.map _).nodup hnd, fun p => ?_⟩
    have hlive : p ∈ (old.filter fun e => live e.2 x.id).map (·.2) ↔
        p ∈ old.map (·.2) ∧ live p x.id := by
      simp only [List.mem_map, List.mem_filter]
      constructor
      · rintro ⟨e, ⟨he, hl⟩, rfl⟩
        exact ⟨⟨e, he, rfl⟩, hl⟩
      · rintro ⟨⟨e, he, rfl⟩, hl⟩
        exact ⟨e, ⟨he, hl⟩, rfl⟩
    rw [hlive, hiff]
    constructor
    · rintro ⟨hp, hl⟩
      exact (h.live p x.id hp hkeep).mp hl
    · intro hp
      have hp' := (h.leads hp).1
      exact ⟨hp', (h.live p x.id hp' hkeep).mpr hp⟩
  · intro j hj
    obtain ⟨i, hi, rfl⟩ := List.mem_map.mp hj
    cases hphi : i.op.isPhi with
    | false =>
      rw [Instr.mapIncoming, Op.mapIncoming_of_plain hphi]
      exact htyped i hi
    | true =>
      obtain ⟨old, hold⟩ := Op.isPhi_iff.mp hphi
      have hold' := htyped i hi
      simp only [Instr.mapIncoming, hold, Op.mapIncoming] at hold' ⊢
      exact Function.checkOp_phi_of_subset hold' fun e he => ⟨e, (List.mem_filter.mp he).1, rfl⟩

theorem uses (h : b.Prunes f keep live τ) (hne : b.blocks ≠ []) (hkeep : keep x.id)
    (hx : x ∈ b.blocks) (hshape : b.ShapeOk f m x) (hok : b.UsesOk x) :
    (b.pruned keep live τ).UsesOk (x.pruned live τ) := by
  refine ⟨?_, ?_, ?_⟩
  · intro done' i' rest' hsplit hnotphi r hr
    obtain ⟨done, tail, hsplit', rfl, htail⟩ := List.map_eq_append_iff.mp hsplit
    obtain ⟨i, rest, rfl, rfl, rfl⟩ := List.map_eq_cons_iff.mp htail
    have hplain : i.op.isPhi = false := by simpa [Instr.mapIncoming] using hnotphi
    rw [Instr.mapIncoming, Op.mapIncoming_of_plain hplain] at hr
    obtain ⟨hres, havail⟩ := hok.plain done i rest hsplit' hplain r hr
    refine ⟨?_, fun hreach => h.availIn hne hkeep (havail (h.reaches hne hreach))⟩
    by_cases hreach : b.Reaches x.id
    · exact (h.availIn hne hkeep (havail hreach)).mem_results
        (mem_blocks_pruned.mpr ⟨x, hx, hkeep, rfl⟩) hsplit
    · exact h.mem_results hkeep hreach hres
  · intro hreach j hj incoming hop r source hmem
    obtain ⟨i, hi, rfl⟩ := List.mem_map.mp hj
    obtain ⟨old, hold, rfl⟩ := Op.mapIncoming_eq_phi.mp hop
    obtain ⟨hmem', hlive⟩ := List.mem_filter.mp hmem
    have hedge := ((hshape.edges i hi old hold).2 source).mp (List.mem_map_of_mem hmem')
    have hks := (h.leads ((h.live source x.id hedge hkeep).mp hlive)).2.1
    exact h.availOut hne hks (hok.phi (h.reaches hne hreach) i hi old hold r source hmem')
  · intro t' ht' r hr
    simp only [Block.pruned, Option.map_eq_some_iff] at ht'
    obtain ⟨t, ht, rfl⟩ := ht'
    exact h.availOut hne hkeep (hok.term t ht r (h.operands t _ hr))

theorem valid (h : b.Prunes f keep live τ) (hv : b.Valid f m) :
    (b.pruned keep live τ).Valid f m := by
  have hne := hv.nonempty
  refine ⟨?_, ?_, ?_, ?_, ?_⟩
  · have hmem : b.entry ∈ (b.pruned keep live τ).ids :=
      mem_ids_pruned.mpr ⟨entry_mem_ids hne, h.entry⟩
    obtain ⟨y, hy, _⟩ := mem_ids.mp hmem
    exact List.ne_nil_of_mem hy
  · intro u hu
    rw [h.entry_eq hne] at hu
    exact hv.start u (h.leads hu).1
  · have hsub : (b.pruned keep live τ).results.Sublist b.results := by
      have hsame : (b.pruned keep live τ).results =
          (b.blocks.filter fun x => keep x.id).flatMap fun x => definedBy x.instrs := by
        simp only [results, pruned, List.flatMap_map]
        exact List.flatMap_congr fun x _ => Block.definedBy_pruned
      rw [hsame]
      exact List.filter_sublist.flatMap _
    exact hsub.nodup hv.unique
  · intro y hy
    obtain ⟨x, hx, hkeep, rfl⟩ := mem_blocks_pruned.mp hy
    exact h.shape hkeep hx (hv.shape x hx)
  · intro y hy
    obtain ⟨x, hx, hkeep, rfl⟩ := mem_blocks_pruned.mp hy
    exact h.uses hne hkeep hx (hv.shape x hx) (hv.uses x hx)

end Prunes

end Body

end SsaCompiler.Ir

namespace SsaCompiler.Optimize

open Ir

variable {b : Body} {f : Function} {m : Module} {x : Block} {u v : BlockId}

/-- Dropping edges changes nothing but edges. -/
theorem map_foldl_dropIncoming {β : Type} {g : Block → β} (hg : ∀ x F, g (Block.mapIncoming F x) = g x)
    (es : List (BlockId × BlockId)) (b : Body) :
    (es.foldl (fun b e => dropIncoming b e.2 e.1) b).blocks.map g = b.blocks.map g ∧
      (es.foldl (fun b e => dropIncoming b e.2 e.1) b).regTypes = b.regTypes := by
  induction es generalizing b with
  | nil => exact ⟨rfl, rfl⟩
  | cons e es ih =>
    obtain ⟨hblocks, hregs⟩ := ih (dropIncoming b e.2 e.1)
    exact ⟨hblocks.trans (map_modifyFirst fun x => hg x _), hregs⟩

/-- Dropping edges one after the other drops them all at once. -/
theorem foldl_dropIncoming (es : List (BlockId × BlockId)) (hb : b.ids.Nodup) :
    es.foldl (fun b e => dropIncoming b e.2 e.1) b =
      { b with blocks := b.blocks.map fun x =>
          x.mapIncoming (·.filter fun e => decide ((e.2, x.id) ∉ es)) } := by
  induction es generalizing b with
  | nil => simp [Block.mapIncoming_id]
  | cons e es ih =>
    obtain ⟨source, target⟩ := e
    have hids : (dropIncoming b target source).ids = b.ids := Body.ids_updateBlock fun _ => rfl
    rw [List.foldl_cons, ih (hids ▸ hb)]
    simp only [dropIncoming, Body.blocks_updateBlock hb, List.map_map]
    congr 1
    refine List.map_congr_left fun x _ => ?_
    by_cases hid : x.id = target
    · have hid' : (x.mapIncoming fun es => es.filter (·.2 ≠ source)).id = target := hid
      simp only [Function.comp_apply, hid, if_true, hid', Block.mapIncoming_mapIncoming,
        List.filter_filter]
      congr 1
      funext l
      refine List.filter_congr fun e _ => ?_
      simp [Bool.and_comm]
    · simp only [Function.comp_apply, hid, if_false]
      congr 1
      funext l
      refine List.filter_congr fun e _ => ?_
      simp [hid]

/-- The edges that `foldBranches` gives up. -/
def decidedEdges (b : Body) : List (BlockId × BlockId) := b.blocks.filterMap droppedEdge?

theorem foldBranches_eq (hb : b.ids.Nodup) : (foldBranches b).1 =
    b.pruned (fun _ => true) (fun u v => decide ((u, v) ∉ decidedEdges b)) foldTerminator := by
  have hids : ({ b with
      blocks := b.blocks.map fun x => { x with term := x.term.map foldTerminator } } : Body).ids =
        b.ids := by
    simp [Body.ids, Function.comp_def]
  simp only [foldBranches, foldl_dropIncoming _ (hids ▸ hb), Body.pruned, List.map_map,
    List.filter_true]
  rfl

/-- Deciding branches changes the terminators of blocks and edges. -/
theorem map_foldBranches {β : Type} {g : Block → β}
    (hg : ∀ x F, g (Block.mapIncoming F x) = g x) (b : Body) :
    (foldBranches b).1.blocks.map g =
        b.blocks.map (fun x => g { x with term := x.term.map foldTerminator }) ∧
      (foldBranches b).1.regTypes = b.regTypes := by
  obtain ⟨hblocks, hregs⟩ := map_foldl_dropIncoming hg (decidedEdges b)
    { b with blocks := b.blocks.map fun x => { x with term := x.term.map foldTerminator } }
  refine ⟨hblocks.trans ?_, hregs⟩
  rw [List.map_map]
  rfl

/-- A branch on a constant goes to one of its targets and gives up the other one. -/
theorem constantBranch?_cases {t : Terminator} {target dropped : BlockId}
    (h : constantBranch? t = some (target, dropped)) :
    foldTerminator t = .br target ∧ ∀ v, v ∈ t.successors ↔ v = target ∨ v = dropped := by
  refine ⟨by simp [foldTerminator, h], ?_⟩
  unfold constantBranch? at h
  split at h
  · rename_i taken s e
    cases taken
    · obtain ⟨rfl, rfl⟩ : e = target ∧ s = dropped := by simpa using h
      simp [Terminator.successors, or_comm]
    · obtain ⟨rfl, rfl⟩ : s = target ∧ e = dropped := by simpa using h
      simp [Terminator.successors]
  · simp at h

theorem successors_foldTerminator {t : Terminator} {s : BlockId}
    (h : s ∈ (foldTerminator t).successors) : s ∈ t.successors := by
  cases hc : constantBranch? t with
  | none => simpa [foldTerminator, hc] using h
  | some c =>
    obtain ⟨htarget, hsucc⟩ := constantBranch?_cases hc
    rw [htarget] at h
    exact (hsucc s).mpr (.inl (by simpa [Terminator.successors] using h))

/-- The edges that stay are those of the decided terminators. -/
theorem not_mem_decidedEdges (hb : b.ids.Nodup) (hx : x ∈ b.blocks) {t : Terminator}
    (ht : x.term = some t) (hv : v ∈ t.successors) :
    (x.id, v) ∉ decidedEdges b ↔ v ∈ (foldTerminator t).successors := by
  have hmem : (x.id, v) ∈ decidedEdges b ↔ droppedEdge? x = some (x.id, v) := by
    simp only [decidedEdges, List.mem_filterMap]
    constructor
    · rintro ⟨y, hy, hdrop⟩
      have hid : y.id = x.id := by
        unfold droppedEdge? at hdrop
        split at hdrop
        · split at hdrop
          · simp only [Option.some.injEq, Prod.mk.injEq] at hdrop
            exact hdrop.1
          · simp at hdrop
        · simp at hdrop
      rwa [Body.eq_of_id_eq hb hy hx hid] at hdrop
    · exact fun hdrop => ⟨x, hx, hdrop⟩
  rw [hmem]
  cases hc : constantBranch? t with
  | none => simp [droppedEdge?, ht, hc, foldTerminator, hv]
  | some c =>
    obtain ⟨target, dropped⟩ := c
    obtain ⟨htarget, hsucc⟩ := constantBranch?_cases hc
    have hcases := (hsucc v).mp hv
    rw [htarget]
    by_cases hne : target = dropped
    · subst hne
      simpa [droppedEdge?, ht, hc, Terminator.successors] using hcases
    · simp only [droppedEdge?, ht, Option.bind_some, hc, ne_eq, hne, not_false_eq_true, if_true,
        Option.some.injEq, Prod.mk.injEq, true_and, Terminator.successors, List.mem_singleton]
      constructor
      · intro hnot
        rcases hcases with h | h
        · exact h
        · exact absurd h.symm hnot
      · rintro rfl heq
        exact hne heq.symm

theorem foldBranches_prunes (hb : b.ids.Nodup) : b.Prunes f (fun _ => true)
    (fun u v => decide ((u, v) ∉ decidedEdges b)) foldTerminator := by
  refine ⟨rfl, fun _ _ _ _ _ => rfl, ?_, ?_, ?_, ?_⟩
  · exact fun x _ _ t _ s hs => ⟨successors_foldTerminator hs, rfl⟩
  · intro t ht
    cases hc : constantBranch? t with
    | none => simpa [foldTerminator, hc] using ht
    | some c => simp [foldTerminator, hc, Function.checkTerm]
  · intro t w hw
    cases hc : constantBranch? t with
    | none => simpa [foldTerminator, hc] using hw
    | some c => simp [foldTerminator, hc, Terminator.operands] at hw
  · rintro u v ⟨x, hx, rfl, hv⟩ _
    obtain ⟨t, ht, hsucc⟩ := Block.exists_term hv
    rw [decide_eq_true_iff, not_mem_decidedEdges hb hx ht hsucc, Body.leads_pruned hb hx rfl ht]

/-- The edges out of blocks that cannot be reached. -/
def deadEdges (b : Body) : List (BlockId × BlockId) :=
  let g := FlowGraph.ofBody b
  (g.order.filter (· ∉ g.reachable)).flatMap fun u => (g.succs u).map (u, ·)

theorem foldl_removeBlock (ids : List BlockId) (hb : b.ids.Nodup) :
    ids.foldl Body.removeBlock b =
      { b with blocks := b.blocks.filter fun x => decide (x.id ∉ ids) } := by
  induction ids generalizing b with
  | nil => simp
  | cons id ids ih =>
    rw [List.foldl_cons, ih (Body.nodup_ids_removeBlock hb)]
    simp only [Body.blocks_removeBlock hb, List.filter_filter]
    congr 1
    refine List.filter_congr fun x _ => ?_
    simp [Bool.and_comm]

theorem sublist_foldl_removeBlock (ids : List BlockId) (b : Body) :
    (ids.foldl Body.removeBlock b).blocks.Sublist b.blocks ∧
      (ids.foldl Body.removeBlock b).regTypes = b.regTypes := by
  induction ids generalizing b with
  | nil => exact ⟨.refl _, rfl⟩
  | cons id ids ih =>
    obtain ⟨hblocks, hregs⟩ := ih (b.removeBlock id)
    exact ⟨hblocks.trans List.eraseP_sublist, hregs⟩

/-- Whether a block can be reached. -/
def isReached (b : Body) (u : BlockId) : Bool := decide (u ∈ (FlowGraph.ofBody b).reachable)

theorem isReached_iff : isReached b u ↔ b.Reaches u := by
  rw [isReached, decide_eq_true_iff, FlowGraph.mem_reachable_ofBody]

/-- First the edges out of blocks that cannot be reached are dropped, then the blocks. -/
theorem removeUnreachable_fst (b : Body) : (removeUnreachable b).1 =
    ((FlowGraph.ofBody b).order.filter (· ∉ (FlowGraph.ofBody b).reachable)).foldl Body.removeBlock
      ((deadEdges b).foldl (fun c e => dropIncoming c e.2 e.1) b) := by
  simp only [removeUnreachable, deadEdges, List.foldl_flatMap, List.foldl_map]

theorem removeUnreachable_eq (hb : b.ids.Nodup) : (removeUnreachable b).1 =
    b.pruned (isReached b) (fun u v => decide ((u, v) ∉ deadEdges b)) id := by
  have hids : ((deadEdges b).foldl (fun c e => dropIncoming c e.2 e.1) b).ids = b.ids :=
    (map_foldl_dropIncoming (fun _ _ => rfl) (deadEdges b) b).1
  rw [removeUnreachable_fst, foldl_removeBlock _ (hids ▸ hb), foldl_dropIncoming _ hb]
  simp only [List.filter_map]
  unfold Body.pruned Block.pruned
  congr 2
  · funext x
    simp [Block.mapIncoming]
  · refine List.filter_congr fun x hx => ?_
    have hid : x.id ∈ (FlowGraph.ofBody b).order := by
      rw [FlowGraph.order_ofBody]
      exact Body.id_mem_ids hx
    simp [Block.mapIncoming, hid, isReached]

/-- Removing blocks out of reach leaves the other ones as they are, up to their edges. -/
theorem sublist_removeUnreachable {β : Type} {g : Block → β}
    (hg : ∀ x F, g (Block.mapIncoming F x) = g x) (b : Body) :
    ((removeUnreachable b).1.blocks.map g).Sublist (b.blocks.map g) ∧
      (removeUnreachable b).1.regTypes = b.regTypes := by
  rw [removeUnreachable_fst]
  obtain ⟨hblocks, hregs⟩ := map_foldl_dropIncoming hg (deadEdges b) b
  obtain ⟨hsub, hregs'⟩ := sublist_foldl_removeBlock
    ((FlowGraph.ofBody b).order.filter (· ∉ (FlowGraph.ofBody b).reachable))
    ((deadEdges b).foldl (fun c e => dropIncoming c e.2 e.1) b)
  exact ⟨hblocks ▸ hsub.map g, hregs'.trans hregs⟩

theorem mem_deadEdges : (u, v) ∈ deadEdges b ↔ b.Leads u v ∧ ¬ b.Reaches u := by
  have hmem : (u, v) ∈ deadEdges b ↔
      (u ∈ (FlowGraph.ofBody b).order ∧ u ∉ (FlowGraph.ofBody b).reachable) ∧
        v ∈ (FlowGraph.ofBody b).succs u := by
    simp [deadEdges]
  have hleads : v ∈ (FlowGraph.ofBody b).succs u ↔ b.Leads u v := FlowGraph.leads_ofBody
  rw [hmem, FlowGraph.order_ofBody, FlowGraph.mem_reachable_ofBody, hleads]
  constructor
  · rintro ⟨⟨_, hnot⟩, he⟩
    exact ⟨he, hnot⟩
  · rintro ⟨he, hnot⟩
    obtain ⟨x, hx, rfl, _⟩ := id he
    exact ⟨⟨Body.id_mem_ids hx, hnot⟩, he⟩

theorem removeUnreachable_prunes (hb : b.ids.Nodup) :
    b.Prunes f (isReached b) (fun u v => decide ((u, v) ∉ deadEdges b)) id := by
  refine ⟨isReached_iff.mpr b.reaches_entry, ?_, ?_, fun _ h => h, fun _ _ h => h, ?_⟩
  · exact fun u _ v hv hdom => isReached_iff.mpr (Dom.reach hdom (isReached_iff.mp hv))
  · intro x hx hx' t ht s hs
    refine ⟨hs, isReached_iff.mpr ((isReached_iff.mp hx').next ⟨x, hx, rfl, ?_⟩)⟩
    exact (Block.mem_targets_of_term ht).mpr hs
  · rintro u v he hv
    rw [decide_eq_true_iff, mem_deadEdges]
    obtain ⟨x, hx, rfl, hv'⟩ := id he
    obtain ⟨t, ht, hsucc⟩ := Block.exists_term hv'
    by_cases hu : b.Reaches x.id
    · rw [Body.leads_pruned hb hx (isReached_iff.mpr hu) ht]
      simp [hu, hsucc]
    · simp only [he, hu, not_false_eq_true, and_self, not_true_eq_false, false_iff]
      rintro ⟨_, hy', hid, _⟩
      obtain ⟨y, _, hky, rfl⟩ := Body.mem_blocks_pruned.mp hy'
      exact hu (hid ▸ isReached_iff.mp hky)

/-- Control gets to the same blocks once the others are removed. -/
theorem reaches_removeUnreachable (hb : b.ids.Nodup) (hv : b.Valid f m) (hr : b.Reaches v) :
    (removeUnreachable b).1.Reaches v := by
  have hprunes := removeUnreachable_prunes (f := f) hb
  rw [removeUnreachable_eq hb]
  unfold Body.Reaches at hr ⊢
  rw [hprunes.entry_eq hv.nonempty]
  induction hr with
  | here _ => exact Reach.start
  | @step u w hu he _ ih =>
    refine ih.next ?_
    obtain ⟨x, hx, rfl, hw⟩ := he
    obtain ⟨t, ht, hsucc⟩ := Block.exists_term hw
    exact (Body.leads_pruned hb hx (isReached_iff.mpr hu) ht).mpr hsucc

theorem typed_pruned {keep : BlockId → Bool} {live : BlockId → BlockId → Bool}
    {τ : Terminator → Terminator} (h : ∀ x ∈ b.blocks, ∀ i ∈ x.instrs, i.Typed f) :
    ∀ x ∈ (b.pruned keep live τ).blocks, ∀ i ∈ x.instrs, i.Typed f := by
  intro y hy j hj
  obtain ⟨x, hx, _, rfl⟩ := Body.mem_blocks_pruned.mp hy
  obtain ⟨i, hi, rfl⟩ := List.mem_map.mp hj
  exact (h x hx i hi).of_eq rfl rfl (by simp [Instr.mapIncoming])

theorem wellFormed_foldBranches (h : b.Regular f m) :
    (foldBranches b).1.ids.Nodup ∧ (foldBranches b).1.Valid f m := by
  rw [foldBranches_eq h.ids]
  exact ⟨Body.nodup_ids_pruned h.ids, (foldBranches_prunes h.ids).valid h.valid⟩

/-- What is kept where a body is pruned is kept by deciding branches on constants and then removing
what cannot be reached. -/
theorem prune_induction {Q : Body → Prop} (h : b.Regular f m) (hb : Q b)
    (hstep : ∀ {c keep live τ}, τ = foldTerminator ∨ τ = id → c.ids.Nodup → c.blocks ≠ [] →
      c.Prunes f keep live τ → Q c → Q (c.pruned keep live τ)) :
    Q (removeUnreachable (foldBranches b).1).1 := by
  obtain ⟨hids, hvalid⟩ := wellFormed_foldBranches h
  have hfold : Q (foldBranches b).1 := by
    rw [foldBranches_eq h.ids]
    exact hstep (.inl rfl) h.ids h.valid.nonempty (foldBranches_prunes h.ids) hb
  rw [removeUnreachable_eq hids]
  exact hstep (.inr rfl) hids hvalid.nonempty (removeUnreachable_prunes hids) hfold

/-- Deciding branches on constants and then removing what cannot be reached keeps a body regular. -/
theorem regular_removeUnreachable (h : b.Regular f m) :
    (removeUnreachable (foldBranches b).1).1.Regular f m := by
  obtain ⟨hids, hvalid⟩ := wellFormed_foldBranches h
  have htyped : ∀ x ∈ (foldBranches b).1.blocks, ∀ i ∈ x.instrs, i.Typed f := by
    rw [foldBranches_eq h.ids]
    exact typed_pruned h.typed
  refine ⟨?_, ?_, ?_, ?_⟩
  · rw [removeUnreachable_eq hids]
    exact Body.nodup_ids_pruned hids
  · rw [removeUnreachable_eq hids]
    exact (removeUnreachable_prunes hids).valid hvalid
  · intro y hy
    refine reaches_removeUnreachable hids hvalid ?_
    rw [removeUnreachable_eq hids] at hy
    obtain ⟨x, _, hkeep, rfl⟩ := Body.mem_blocks_pruned.mp hy
    exact isReached_iff.mp hkeep
  · rw [removeUnreachable_eq hids]
    exact typed_pruned htyped

end SsaCompiler.Optimize
