import SsaCompiler.Proofs.Optimizer.Settling

/-!
What the steps of flow simplification report. Removing blocks, replacing phis and joining blocks report
a change exactly if they leave another body. Deciding branches reports whether an edge was given up. A
branch on a constant with both arms to one block is decided as well, but gives up no edge: the body is
another one and nothing is reported.
-/
namespace SsaCompiler.Optimize

open Ir

variable {b : Body} {x : Block} {r : Body × Bool}

/-- A step that makes something smaller when it reports a change, and leaves the body alone when it
does not, reports exactly the changes. -/
theorem reported_iff (measure : Body → Nat) (hless : r.2 = true → measure r.1 < measure b)
    (hsame : r.2 = false → r.1 = b) : r.2 = true ↔ r.1 ≠ b := by
  constructor
  · intro hreport heq
    have hlt := hless hreport
    rw [heq] at hlt
    exact Nat.lt_irrefl _ hlt
  · intro hne
    exact Bool.of_not_eq_false fun hsilent => hne (hsame hsilent)

theorem length_removeBlock_lt (hx : x ∈ b.blocks) :
    (b.removeBlock x.id).blocks.length < b.blocks.length := by
  have hlength := List.length_eraseP_of_mem (p := fun y : Block => y.id = x.id) hx (by simp)
  have := List.length_pos_of_mem hx
  show (b.blocks.eraseP _).length < _
  omega

/-- Several blocks may share a number here, so the number of blocks is what gets smaller. -/
theorem removeUnreachable_reported :
    (removeUnreachable b).2 = true ↔ (removeUnreachable b).1 ≠ b := by
  refine reported_iff (·.blocks.length) (fun hreport => ?_) removeUnreachable_of_unchanged
  have hcut : ((deadEdges b).foldl (fun c e => dropIncoming c e.2 e.1) b).ids = b.ids :=
    (map_foldl_dropIncoming (fun _ _ => rfl) (deadEdges b) b).1
  have hlength := congrArg List.length hcut
  rw [Body.ids, Body.ids, List.length_map, List.length_map] at hlength
  rw [removeUnreachable_fst]
  cases hdead : (FlowGraph.ofBody b).order.filter (· ∉ (FlowGraph.ofBody b).reachable) with
  | nil =>
    simp only [removeUnreachable, hdead] at hreport
    cases hreport
  | cons u dead =>
    have hu : u ∈ (FlowGraph.ofBody b).order := (List.mem_filter.mp (hdead ▸ List.mem_cons_self)).1
    rw [FlowGraph.order_ofBody, ← hcut] at hu
    obtain ⟨x, hx, rfl⟩ := Body.mem_ids.mp hu
    refine lt_of_le_of_lt ?_ ((length_removeBlock_lt hx).trans_eq hlength)
    exact (sublist_foldl_removeBlock dead _).1.length_le

theorem removeTrivialPhis_reported :
    (removeTrivialPhis b).2 = true ↔ (removeTrivialPhis b).1 ≠ b := by
  refine reported_iff size (fun hreport => ?_) removeTrivialPhis_of_unchanged
  have hsize := (removeTrivialPhis_shrinks b).2
  rw [hreport] at hsize
  exact hsize

theorem length_blocks_joinBlocks (b : Body) (id : BlockId) (y : Block) :
    (joinBlocks b id y).blocks.length = (b.removeBlock y.id).blocks.length := by
  have hrename : ∀ (ids : List BlockId) (c : Body),
      (ids.foldl (fun c s => renameIncoming c s y.id id) c).blocks.length = c.blocks.length := by
    intro ids
    induction ids with
    | nil => exact fun c => rfl
    | cons s ids ih => exact fun c => (ih _).trans length_modifyFirst
  exact length_modifyFirst.trans (hrename y.successors (b.removeBlock y.id))

/-- Several blocks may share a number here, so the number of blocks is what gets smaller: the block that
is joined to another one is gone, whatever else bears its number. -/
theorem mergeBlocks_reported : (mergeBlocks b).2 = true ↔ (mergeBlocks b).1 ≠ b := by
  refine reported_iff (·.blocks.length) (fun hreport => ?_) mergeBlocks_of_unchanged
  unfold mergeBlocks at hreport ⊢
  dsimp only at hreport ⊢
  split at hreport
  · next id y hfind =>
    obtain ⟨x, hx, hx'⟩ := List.exists_of_findSome?_eq_some hfind
    obtain ⟨y', hy', heq⟩ := Option.map_eq_some_iff.mp hx'
    obtain ⟨rfl, rfl⟩ := Prod.mk.inj heq
    have hy : y' ∈ b.blocks := by
      unfold follower? at hy'
      split at hy'
      · split at hy'
        · exact List.mem_of_find?_eq_some (Option.filter_eq_some_iff.mp hy').1
        · cases hy'
      · cases hy'
    rw [length_blocks_joinBlocks]
    exact length_removeBlock_lt hy
  · cases hreport

theorem droppedEdge?_isSome : (droppedEdge? x).isSome ↔
    ∃ value s t, s ≠ t ∧ x.term = some (.condBr (.bool value) s t) := by
  unfold droppedEdge?
  constructor
  · intro h
    split at h
    · next target dropped hbranch =>
      obtain ⟨t, hterm, hconst⟩ := Option.bind_eq_some_iff.mp hbranch
      obtain ⟨value, s, u, rfl, hends⟩ := constantBranch?_eq_some.mp hconst
      refine ⟨value, s, u, ?_, hterm⟩
      rintro rfl
      simp_all
    · cases h
  · rintro ⟨value, s, t, hne, hterm⟩
    cases value <;> simp [hterm, constantBranch?, hne, Ne.symm hne]

theorem foldBranches_reported : (foldBranches b).2 = true ↔
    ∃ x ∈ b.blocks, ∃ value s t, s ≠ t ∧ x.term = some (.condBr (.bool value) s t) := by
  have hdropped : (foldBranches b).2 = true ↔ ∃ x ∈ b.blocks, (droppedEdge? x).isSome := by
    simp [foldBranches, Option.isSome_iff_ne_none]
  simp only [hdropped, droppedEdge?_isSome]

/-- A body with a branch on a constant has lost it afterwards, so it is another body. -/
theorem foldBranches_ne : (foldBranches b).1 ≠ b ↔
    ∃ x ∈ b.blocks, ∃ value s t, x.term = some (.condBr (.bool value) s t) := by
  constructor
  · intro hne
    by_contra hdecided
    push Not at hdecided
    refine hne (congrArg Prod.fst (foldBranches_of_decided fun x hx t ht => ?_))
    refine constantBranch?_eq_none.mpr fun value s u heq => ?_
    exact hdecided x hx value s u (ht.trans (congrArg some heq))
  · rintro ⟨x, hx, value, s, t, hterm⟩ heq
    have hterms := (map_foldBranches (g := Block.term) (fun _ _ => rfl) b).1
    rw [heq] at hterms
    have hmem := List.mem_map_of_mem (f := Block.term) hx
    rw [hterms, hterm] at hmem
    obtain ⟨y, _, hy⟩ := List.mem_map.mp hmem
    obtain ⟨u, _, hfolded⟩ := Option.map_eq_some_iff.mp hy
    exact constantBranch?_eq_none.mp (constantBranch?_foldTerminator u) value s t hfolded

/-- The reports of the four steps, for every body. -/
theorem steps_report (b : Body) :
    ((foldBranches b).1 ≠ b ↔ (foldBranches b).2 = true ∨
      ∃ x ∈ b.blocks, ∃ value s, x.term = some (.condBr (.bool value) s s)) ∧
    ((foldBranches b).2 = true ↔
      ∃ x ∈ b.blocks, ∃ value s t, s ≠ t ∧ x.term = some (.condBr (.bool value) s t)) ∧
    ((removeUnreachable b).2 = true ↔ (removeUnreachable b).1 ≠ b) ∧
    ((removeTrivialPhis b).2 = true ↔ (removeTrivialPhis b).1 ≠ b) ∧
    ((mergeBlocks b).2 = true ↔ (mergeBlocks b).1 ≠ b) := by
  refine ⟨?_, foldBranches_reported, removeUnreachable_reported, removeTrivialPhis_reported,
    mergeBlocks_reported⟩
  rw [foldBranches_ne, foldBranches_reported]
  constructor
  · rintro ⟨x, hx, value, s, t, hterm⟩
    by_cases hst : s = t
    · exact .inr ⟨x, hx, value, s, hst ▸ hterm⟩
    · exact .inl ⟨x, hx, value, s, t, hst, hterm⟩
  · rintro (⟨x, hx, value, s, t, _, hterm⟩ | ⟨x, hx, value, s, hterm⟩)
    · exact ⟨x, hx, value, s, t, hterm⟩
    · exact ⟨x, hx, value, s, s, hterm⟩

/-- A branch on a constant that goes to one block either way. -/
def pointless : Body where
  blocks := [⟨0, "entry", [], some (.condBr (.bool true) 1 1)⟩, ⟨1, "next", [], some (.ret none)⟩]
  regTypes := []
  nextBlock := 2

theorem foldBranches_silent :
    (foldBranches pointless).1 ≠ pointless ∧ (foldBranches pointless).2 = false := by
  decide

end SsaCompiler.Optimize
