import Mathlib.Algebra.Order.BigOperators.Group.List
import Mathlib.Algebra.Order.Group.Nat
import Mathlib.Algebra.Ring.Nat
import SsaCompiler.Proofs.Optimizer.Passes

/-!
Loops of passes come to an end. A round that reports a change makes the body smaller, so the loop gets
to a round that reports none. Simplifying the flow then leaves a normal form: branches are decided, all
blocks are reached, no phi has one edge, and no block could be joined to the one before it. A body in
this form is not changed again.
-/
namespace SsaCompiler.Optimize

open Ir

section Sizes

variable {b c : Body} {x y : Block}

/-- What a block adds to the size of its body. -/
def weight (x : Block) : Nat :=
  1 + x.instrs.length + (match x.term with | some (.condBr ..) => 1 | _ => 0)

theorem size_eq_sum (b : Body) : size b = (b.blocks.map weight).sum := by
  unfold size Body.instrCount
  generalize b.blocks = l
  induction l with
  | nil => rfl
  | cons x l ih =>
    simp only [List.length_cons, List.flatMap_cons, List.length_append, List.filter_cons,
      List.map_cons, List.sum_cons, ← ih, weight]
    split <;> simp_all <;> omega

theorem sum_filter (p : Block → Bool) (w : Block → Nat) (l : List Block) :
    ((l.filter p).map w).sum = (l.map fun x => if p x then w x else 0).sum := by
  simpa using (List.sum_map_ite (fun x => p x = true) w (fun _ => 0) l).symm

/-- Changing two members of a list changes the sum by what it changes in them. -/
theorem sum_lt_of_pair {l : List Block} {v w : Block → Nat} (hl : l.Nodup) (hx : x ∈ l) (hy : y ∈ l)
    (hne : y ≠ x) (hrest : ∀ z ∈ l, z ≠ x → z ≠ y → v z = w z) (hlt : v x + v y < w x + w y) :
    (l.map v).sum < (l.map w).sum := by
  have hy' : y ∈ l.erase x := (List.mem_erase_of_ne hne).mpr hy
  have hsame : ((l.erase x).erase y).map v = ((l.erase x).erase y).map w := by
    refine List.map_congr_left fun z hz => ?_
    obtain ⟨hzy, hz⟩ := (hl.erase x).mem_erase_iff.mp hz
    obtain ⟨hzx, hz⟩ := hl.mem_erase_iff.mp hz
    exact hrest z hz hzx hzy
  rw [← List.sum_map_erase v hx, ← List.sum_map_erase v hy', ← List.sum_map_erase w hx,
    ← List.sum_map_erase w hy', hsame]
  omega

/-- A step keeps the numbers of blocks apart, and a change that it reports makes the body smaller. -/
structure Shrinks (b : Body) (r : Body × Bool) : Prop where
  ids : r.1.ids.Nodup
  size : size r.1 + r.2.toNat ≤ size b

theorem Shrinks.of_lt (hc : c.ids.Nodup) (h : Optimize.size c < Optimize.size b) (changed : Bool) :
    Shrinks b (c, changed) := by
  refine ⟨hc, ?_⟩
  have := changed.toNat_le
  show Optimize.size c + changed.toNat ≤ _
  omega

theorem Shrinks.unchanged (hb : b.ids.Nodup) : Shrinks b (b, false) := ⟨hb, Nat.le_refl _⟩

theorem Shrinks.andThen {r r' : Body × Bool} (h : Shrinks b r) (h' : Shrinks r.1 r') :
    Shrinks b (r'.1, r.2 || r'.2) := by
  refine ⟨h'.ids, ?_⟩
  have hor : (r.2 || r'.2).toNat ≤ r.2.toNat + r'.2.toNat := by cases r.2 <;> cases r'.2 <;> decide
  have := h.size
  have := h'.size
  show Optimize.size r'.1 + (r.2 || r'.2).toNat ≤ _
  omega

/-- Pruning does not make a body larger, and it makes it smaller if a block goes or gets lighter. -/
theorem size_pruned {keep : BlockId → Bool} {live : BlockId → BlockId → Bool}
    {τ : Terminator → Terminator} {changed : Bool}
    (hle : ∀ x ∈ b.blocks, weight (x.pruned live τ) ≤ weight x)
    (hlt : changed = true → ∃ x ∈ b.blocks, keep x.id = false ∨ weight (x.pruned live τ) < weight x) :
    size (b.pruned keep live τ) + changed.toNat ≤ size b := by
  have hsum : size (b.pruned keep live τ) =
      (b.blocks.map fun x => if keep x.id then weight (x.pruned live τ) else 0).sum := by
    rw [size_eq_sum, Body.pruned, List.map_map, sum_filter]
    rfl
  have hpoint : ∀ x ∈ b.blocks, (if keep x.id then weight (x.pruned live τ) else 0) ≤ weight x := by
    intro x hx
    split
    · exact hle x hx
    · exact Nat.zero_le _
  rw [hsum, size_eq_sum]
  cases changed with
  | false => exact List.sum_le_sum hpoint
  | true =>
    refine List.sum_lt_sum _ _ hpoint ?_
    obtain ⟨x, hx, hgone | hless⟩ := hlt rfl
    · refine ⟨x, hx, ?_⟩
      simp only [hgone, Bool.false_eq_true, if_false, weight]
      omega
    · refine ⟨x, hx, ?_⟩
      split
      · exact hless
      · omega

end Sizes

section Steps

variable {b c : Body} {x y : Block}

theorem constantBranch?_eq_some {t : Terminator} {e : BlockId × BlockId} :
    constantBranch? t = some e ↔ ∃ value s u, t = .condBr (.bool value) s u ∧
      e = if value then (s, u) else (u, s) := by
  unfold constantBranch?
  split
  · next value s u =>
    simp only [Option.some.injEq, Terminator.condBr.injEq, Value.const.injEq, Constant.bool.injEq]
    constructor
    · rintro rfl
      exact ⟨value, s, u, ⟨rfl, rfl, rfl⟩, rfl⟩
    · rintro ⟨_, _, _, ⟨rfl, rfl, rfl⟩, rfl⟩
      rfl
  · next hother =>
    simp only [reduceCtorEq, false_iff]
    rintro ⟨value, s, u, rfl, _⟩
    exact hother value s u rfl

theorem weight_fold (live : BlockId → BlockId → Bool) (x : Block) :
    weight (x.pruned live foldTerminator) + (droppedEdge? x).isSome.toNat ≤ weight x := by
  have hlen : (x.pruned live foldTerminator).instrs.length = x.instrs.length := List.length_map _
  have hterm : (x.pruned live foldTerminator).term = x.term.map foldTerminator := rfl
  unfold weight droppedEdge?
  rw [hlen, hterm]
  cases x.term with
  | none => rfl
  | some t =>
    cases hc : constantBranch? t with
    | none => simp [foldTerminator, hc]
    | some e =>
      obtain ⟨value, s, u, rfl, _⟩ := constantBranch?_eq_some.mp hc
      have hone := (if e.1 ≠ e.2 then some (x.id, e.2) else none).isSome.toNat_le
      simp only [Option.map_some, Option.bind_some, foldTerminator, hc]
      omega

theorem shrinks_foldBranches (hb : b.ids.Nodup) : Shrinks b (foldBranches b) := by
  have heq := foldBranches_eq hb
  refine ⟨heq ▸ Body.nodup_ids_pruned hb, ?_⟩
  rw [heq]
  refine size_pruned (fun x _ => ?_) fun hchanged => ?_
  · exact Nat.le_of_add_right_le (weight_fold _ x)
  · have hne : decidedEdges b ≠ [] := by simpa [foldBranches, decidedEdges] using hchanged
    obtain ⟨e, he⟩ := List.exists_mem_of_ne_nil _ hne
    obtain ⟨x, hx, hdrop⟩ := List.mem_filterMap.mp he
    have hlt := weight_fold (fun u v => decide ((u, v) ∉ decidedEdges b)) x
    rw [hdrop] at hlt
    exact ⟨x, hx, .inr hlt⟩

theorem shrinks_removeUnreachable (hb : b.ids.Nodup) : Shrinks b (removeUnreachable b) := by
  have heq := removeUnreachable_eq hb
  refine ⟨heq ▸ Body.nodup_ids_pruned hb, ?_⟩
  rw [heq]
  refine size_pruned (fun x _ => ?_) fun hchanged => ?_
  · simp [weight, Block.pruned, Block.mapIncoming]
  · obtain ⟨u, hu, hnot⟩ : ∃ u ∈ (FlowGraph.ofBody b).order, u ∉ (FlowGraph.ofBody b).reachable := by
      simpa [removeUnreachable] using hchanged
    rw [FlowGraph.order_ofBody] at hu
    obtain ⟨x, hx, rfl⟩ := Body.mem_ids.mp hu
    exact ⟨x, hx, .inl (by simp [isReached, hnot])⟩

/-- A block after a register has been replaced by a value. -/
def substituted (r : Reg) (v : Value) (z : Block) : Block :=
  { z.mapOperands (.replace r v) with
    instrs := (z.mapOperands (.replace r v)).instrs.filter (·.result ≠ some r) }

theorem blocks_substitute (b : Body) (r : Reg) (v : Value) :
    (b.substitute r v).blocks = b.blocks.map (substituted r v) := by
  simp [Body.substitute, Body.removeDefinition, Body.filterInstrs, Body.replaceUses,
    Body.mapOperands, substituted]

theorem length_substituted (r : Reg) (v : Value) (z : Block) :
    (substituted r v z).instrs.length = (z.instrs.filter (·.result ≠ some r)).length := by
  show ((z.instrs.map _).filter _).length = _
  rw [List.filter_map, List.length_map]
  rfl

/-- Only the number of instructions changes. -/
theorem weight_substituted (r : Reg) (v : Value) (z : Block) :
    weight (substituted r v z) + z.instrs.length =
      weight z + (substituted r v z).instrs.length := by
  have hterm : (substituted r v z).term = z.term.map (.mapOperands (.replace r v)) := rfl
  unfold weight
  rw [hterm]
  rcases z.term with _ | _ | _ | _ <;> simp [Terminator.mapOperands] <;> omega

/-- Substituting for a register that an instruction defines takes this instruction away. -/
theorem substitute_lt {i : Instr} {r : Reg} (hx : x ∈ b.blocks) (hi : i ∈ x.instrs)
    (hr : i.result = some r) (v : Value) : (b.substitute r v).instrCount < b.instrCount ∧
      size (b.substitute r v) < size b := by
  have hle : ∀ z, (substituted r v z).instrs.length ≤ z.instrs.length := by
    intro z
    rw [length_substituted]
    exact List.length_filter_le _ _
  have hlt : (substituted r v x).instrs.length < x.instrs.length := by
    rw [length_substituted]
    exact List.length_filter_lt_length_iff_exists.mpr ⟨i, hi, by simp [hr]⟩
  refine ⟨?_, ?_⟩
  · unfold Body.instrCount
    rw [blocks_substitute, List.length_flatMap, List.length_flatMap, List.map_map]
    exact List.sum_lt_sum _ _ (fun z _ => hle z) ⟨x, hx, hlt⟩
  · rw [size_eq_sum, size_eq_sum, blocks_substitute, List.map_map]
    refine List.sum_lt_sum _ _ (fun z _ => ?_) ⟨x, hx, ?_⟩
    · have hweight := weight_substituted r v z
      have := hle z
      show weight (substituted r v z) ≤ weight z
      omega
    · have hweight := weight_substituted r v x
      show weight (substituted r v x) < weight x
      omega

theorem replaceTrivialPhi?_shrinks (h : replaceTrivialPhi? b = some c) :
    c.ids = b.ids ∧ c.instrCount < b.instrCount ∧ size c < size b := by
  obtain ⟨x, done, i, rest, r, v, source, hdef, _, rfl⟩ := replaceTrivialPhi?_eq_some h
  refine ⟨?_, substitute_lt hdef.mem (hdef.split ▸ by simp) hdef.result v⟩
  simp [Body.ids, blocks_substitute, substituted, Block.mapOperands]

theorem removeTrivialPhis_shrinks (b : Body) : (removeTrivialPhis b).1.ids = b.ids ∧
    size (removeTrivialPhis b).1 + (removeTrivialPhis b).2.toNat ≤ size b := by
  unfold removeTrivialPhis
  cases hstep : replaceTrivialPhi? b with
  | none =>
    have hround : roundOf replaceTrivialPhi? b = (b, false) := by simp [roundOf, hstep]
    rw [untilStable_of_eq hround]
    exact ⟨rfl, Nat.le_refl _⟩
  | some c =>
    have hround : roundOf replaceTrivialPhi? b = (c, true) := by simp [roundOf, hstep]
    obtain ⟨hids, _, hlt⟩ := replaceTrivialPhi?_shrinks hstep
    have hkept : ∀ n, (untilStable (roundOf replaceTrivialPhi?) n c).ids = b.ids ∧
        size (untilStable (roundOf replaceTrivialPhi?) n c) ≤ size c := by
      refine untilStable_keeps (P := fun d => d.ids = b.ids ∧ size d ≤ size c) (fun a ha => ?_)
        ⟨hids, Nat.le_refl _⟩
      refine roundOf_keeps (P := fun d => d.ids = b.ids ∧ size d ≤ size c) (fun a a' ha hnext => ?_) ha
      obtain ⟨hids, _, hlt⟩ := replaceTrivialPhi?_shrinks hnext
      exact ⟨hids.trans ha.1, by omega⟩
    simp only [untilStable, hround, if_true]
    exact ⟨(hkept _).1, Nat.lt_of_le_of_lt (hkept _).2 hlt⟩

theorem shrinks_removeTrivialPhis (hb : b.ids.Nodup) : Shrinks b (removeTrivialPhis b) :=
  ⟨(removeTrivialPhis_shrinks b).1 ▸ hb, (removeTrivialPhis_shrinks b).2⟩

theorem follower?_eq_some (hb : b.ids.Nodup) :
    follower? b (FlowGraph.ofBody b) x = some y ↔ y ∈ b.blocks ∧ x.term = some (.br y.id) ∧
      y.id ≠ x.id ∧ b.entryId? ≠ some y.id ∧ (FlowGraph.ofBody b).preds y.id = [x.id] ∧
        y.phis = [] := by
  unfold follower?
  constructor
  · intro h
    split at h
    · next s hterm =>
      split at h
      · next hcond =>
        obtain ⟨hblock, hphis⟩ := Option.filter_eq_some_iff.mp h
        obtain ⟨hy, rfl⟩ := (Body.block?_eq_some hb).mp hblock
        exact ⟨hy, hterm, hcond.1, hcond.2.1, hcond.2.2, by simpa using hphis⟩
      · cases h
    · cases h
  · rintro ⟨hy, hterm, hne, hentry, hpreds, hphis⟩
    simp [hterm, hne, hentry, hpreds, Body.block?_of_mem hb hy, hphis]

theorem id_afterJoin (z : Block) : (afterJoin x y z).id = z.id := by
  unfold afterJoin
  dsimp only
  split_ifs <;> rfl

theorem weight_afterJoin (z : Block) : weight (afterJoin x y z) =
    if z.id = x.id then weight y + z.instrs.length else weight z := by
  unfold afterJoin weight
  by_cases hz : z.id ∈ y.successors
  · simp only [hz, if_true, Block.mapIncoming]
    split_ifs
    · dsimp only
      rw [List.length_append, List.length_map]
      omega
    · rw [List.length_map]
  · simp only [hz, if_false]
    split_ifs
    · dsimp only
      rw [List.length_append]
      omega
    · rfl

/-- Joining moves the instructions of a block and saves the branch to it. -/
theorem joinBlocks_shrinks (hb : b.ids.Nodup) (hx : x ∈ b.blocks) (hy : y ∈ b.blocks)
    (hne : y.id ≠ x.id) (hterm : x.term = some (.br y.id)) :
    (joinBlocks b x.id y).ids.Nodup ∧ size (joinBlocks b x.id y) < size b := by
  rw [joinBlocks_eq_map hb hne]
  refine ⟨?_, ?_⟩
  · have hsub : ((b.blocks.filter (·.id ≠ y.id)).map (·.id)).Sublist b.ids :=
      List.filter_sublist.map _
    simp only [Body.ids, List.map_map, Function.comp_def, id_afterJoin]
    exact hb.sublist hsub
  · rw [size_eq_sum, size_eq_sum, List.map_map, sum_filter]
    refine sum_lt_of_pair (List.Nodup.of_map _ hb) hx hy (fun h => hne (h ▸ rfl)) ?_ ?_
    · intro z hz hzx hzy
      have hzx' : z.id ≠ x.id := fun h => hzx (Body.eq_of_id_eq hb hz hx h)
      have hzy' : z.id ≠ y.id := fun h => hzy (Body.eq_of_id_eq hb hz hy h)
      simp [hzx', hzy', weight_afterJoin]
    · have hweight : weight x = 1 + x.instrs.length := by simp [weight, hterm]
      simp only [Ne.symm hne, ne_eq, not_false_eq_true, decide_true, if_true, Function.comp_apply,
        weight_afterJoin, not_true_eq_false, decide_false, Bool.false_eq_true, if_false, hweight]
      omega

theorem shrinks_mergeBlocks (hb : b.ids.Nodup) : Shrinks b (mergeBlocks b) := by
  unfold mergeBlocks
  dsimp only
  split
  · next id y hfind =>
    obtain ⟨x, hx, hx'⟩ := List.exists_of_findSome?_eq_some hfind
    obtain ⟨y', hy', heq⟩ := Option.map_eq_some_iff.mp hx'
    obtain ⟨rfl, rfl⟩ := Prod.mk.inj heq
    obtain ⟨hy, hterm, hne, _⟩ := (follower?_eq_some hb).mp hy'
    obtain ⟨hids, hlt⟩ := joinBlocks_shrinks hb hx hy hne hterm
    exact .of_lt hids hlt true
  · exact .unchanged hb

/-- All four steps of a round. -/
theorem shrinks_simplifyOnce (hb : b.ids.Nodup) : Shrinks b (simplifyOnce b) := by
  have hfold := shrinks_foldBranches hb
  have hremove := hfold.andThen (shrinks_removeUnreachable hfold.ids)
  have hphis := hremove.andThen (shrinks_removeTrivialPhis hremove.ids)
  exact hphis.andThen (shrinks_mergeBlocks hphis.ids)

theorem removeTrivialPhis_settles (b : Body) :
    Settles (roundOf replaceTrivialPhi?) b (removeTrivialPhis b).1 :=
  roundOf_settles (P := fun _ => True) Body.instrCount (fun _ _ h _ => h)
    (fun _ _ _ hstep => (replaceTrivialPhi?_shrinks hstep).2.1) trivial

theorem simplifyFlow_settles (hb : b.ids.Nodup) : Settles simplifyOnce b (simplifyFlow b) := by
  refine untilStable_settles (P := fun a => a.ids.Nodup) size
    (fun a ha => (shrinks_simplifyOnce ha).ids) (fun a ha hchanged => ?_) hb (Nat.lt_succ_self _)
  have hsize := (shrinks_simplifyOnce ha).size
  rw [hchanged] at hsize
  exact hsize

end Steps

end SsaCompiler.Optimize

namespace SsaCompiler.Ir

/-- Nothing is left to simplify in the flow of a body. -/
structure Body.Simplified (b : Body) : Prop where
  /-- No branch depends on a constant. -/
  decided : ∀ x ∈ b.blocks, ∀ value s t, x.term ≠ some (.condBr (.const (.bool value)) s t)
  reached : ∀ x ∈ b.blocks, b.Reaches x.id
  /-- No phi at the top of a block has a result and one edge. -/
  branched : ∀ x ∈ b.blocks, ∀ i ∈ x.phis, ∀ e, i.op = .phi [e] → i.result = none
  /-- A block that only goes on to another one, without a phi at its top, is not the only one to go
  there, unless it goes on to the entry. -/
  parted : ∀ x ∈ b.blocks, ∀ y ∈ b.blocks, x.term = some (.br y.id) → y ≠ x → y.id ≠ b.entry →
    y.phis = [] → ∃ z ∈ b.blocks, z ≠ x ∧ y.id ∈ z.successors

end SsaCompiler.Ir

namespace SsaCompiler.Optimize

open Ir

section NormalForm

variable {b c : Body} {x y : Block}

/-- A body with its branches on constants decided. -/
def decideBranches (b : Body) : Body :=
  { b with blocks := b.blocks.map fun x => { x with term := x.term.map foldTerminator } }

theorem foldBranches_of_unchanged (h : (foldBranches b).2 = false) :
    (foldBranches b).1 = decideBranches b := by
  have hnil : b.blocks.filterMap droppedEdge? = [] := by simpa [foldBranches] using h
  simp only [foldBranches, hnil, List.foldl_nil, decideBranches]

theorem constantBranch?_eq_none {t : Terminator} : constantBranch? t = none ↔
    ∀ value s u, t ≠ .condBr (.const (.bool value)) s u := by
  constructor
  · rintro h value s u rfl
    cases h
  · intro h
    unfold constantBranch?
    split
    · exact absurd rfl (h _ _ _)
    · rfl

theorem constantBranch?_foldTerminator (t : Terminator) :
    constantBranch? (foldTerminator t) = none := by
  unfold foldTerminator
  split
  · rfl
  · next h => exact h

theorem foldBranches_of_decided (h : ∀ x ∈ b.blocks, ∀ t, x.term = some t → constantBranch? t = none) :
    foldBranches b = (b, false) := by
  have hnil : b.blocks.filterMap droppedEdge? = [] := by
    rw [List.filterMap_eq_nil_iff]
    intro x hx
    cases ht : x.term with
    | none => simp [droppedEdge?, ht]
    | some t => simp [droppedEdge?, ht, h x hx t ht]
  have hsame : (b.blocks.map fun x => { x with term := x.term.map foldTerminator }) = b.blocks := by
    refine (List.map_congr_left fun x hx => ?_).trans b.blocks.map_id
    cases ht : x.term with
    | none => rw [id, Option.map_none, ← ht]
    | some t => rw [id, Option.map_some, foldTerminator, h x hx t ht, ← ht]
  simp only [foldBranches, hnil, hsame, List.foldl_nil]
  rfl

theorem removeUnreachable_unchanged :
    (removeUnreachable b).2 = false ↔ ∀ x ∈ b.blocks, b.Reaches x.id := by
  simp only [removeUnreachable, Bool.not_eq_false', List.isEmpty_iff, List.filter_eq_nil_iff,
    FlowGraph.order_ofBody, FlowGraph.mem_reachable_ofBody, decide_eq_true_eq, not_not, Body.mem_ids]
  constructor
  · exact fun h x hx => h _ ⟨x, hx, rfl⟩
  · rintro h _ ⟨x, hx, rfl⟩
    exact h x hx

theorem removeUnreachable_of_unchanged (h : (removeUnreachable b).2 = false) :
    (removeUnreachable b).1 = b := by
  simp only [removeUnreachable, Bool.not_eq_false', List.isEmpty_iff] at h
  simp only [removeUnreachable, h, List.foldl_nil]

theorem removeTrivialPhis_unchanged : (removeTrivialPhis b).2 = false ↔
    ∀ x ∈ b.blocks, ∀ i ∈ x.phis, ∀ e, i.op = .phi [e] → i.result = none := by
  have hphi : ∀ i, trivialPhi? i = none ↔ ∀ e, i.op = .phi [e] → i.result = none := by
    intro i
    unfold trivialPhi?
    split
    · next v source hop => simp [hop]
    · next hop => simpa using fun v source h => absurd h (hop v source)
  simp only [removeTrivialPhis, replaceTrivialPhi?, Option.isSome_map, Option.isSome_eq_false_iff,
    Option.isNone_iff_eq_none, List.findSome?_eq_none_iff, hphi]

theorem removeTrivialPhis_of_unchanged (h : (removeTrivialPhis b).2 = false) :
    (removeTrivialPhis b).1 = b := by
  have hnone : replaceTrivialPhi? b = none := by simpa [removeTrivialPhis] using h
  have hround : roundOf replaceTrivialPhi? b = (b, false) := by simp [roundOf, hnone]
  exact untilStable_of_eq hround _

/-- The only predecessor of a block, however often it goes there. -/
theorem preds_eq_singleton {u v : BlockId} (h : ∀ w, b.Leads w v ↔ w = u) :
    (FlowGraph.ofBody b).preds v = [u] := by
  refine List.perm_singleton.mp ((List.perm_ext_iff_of_nodup ?_ (List.nodup_singleton u)).mpr fun w => ?_)
  · exact FlowGraph.nodup_preds _ v
  · rw [FlowGraph.mem_preds, h w, List.mem_singleton]

theorem entryId?_eq_some (hx : x ∈ b.blocks) : b.entryId? = some b.entry := by
  unfold Body.entry Body.entryId?
  cases hblocks : b.blocks with
  | nil => rw [hblocks] at hx; cases hx
  | cons y l => rfl

theorem mergeBlocks_unchanged (hb : b.ids.Nodup) : (mergeBlocks b).2 = false ↔
    ∀ x ∈ b.blocks, ∀ y ∈ b.blocks, x.term = some (.br y.id) → y ≠ x → y.id ≠ b.entry →
      y.phis = [] → ∃ z ∈ b.blocks, z ≠ x ∧ y.id ∈ z.successors := by
  have hnone : (mergeBlocks b).2 = false ↔
      ∀ x ∈ b.blocks, ∀ y, follower? b (FlowGraph.ofBody b) x ≠ some y := by
    have hfind : (mergeBlocks b).2 = false ↔ (b.blocks.findSome? fun x =>
        (follower? b (FlowGraph.ofBody b) x).map (x.id, ·)) = none := by
      unfold mergeBlocks
      dsimp only
      split <;> simp_all
    rw [hfind, List.findSome?_eq_none_iff]
    simp only [Option.map_eq_none_iff]
    simp only [Option.eq_none_iff_forall_ne_some]
  rw [hnone]
  constructor
  · intro h x hx y hy hterm hne hentry hphis
    by_contra hother
    have hleads : ∀ w, b.Leads w y.id ↔ w = x.id := by
      intro w
      constructor
      · rintro ⟨z, hz, rfl, hzy⟩
        by_contra hzx
        exact hother ⟨z, hz, fun h => hzx (h ▸ rfl), Block.mem_targets.mp hzy⟩
      · rintro rfl
        refine ⟨x, hx, rfl, Block.mem_targets.mpr ?_⟩
        simp [Block.successors, hterm, Terminator.successors]
    refine h x hx y ((follower?_eq_some hb).mpr ⟨hy, hterm, ?_, ?_, preds_eq_singleton hleads, hphis⟩)
    · exact fun hid => hne (Body.eq_of_id_eq hb hy hx hid)
    · rw [entryId?_eq_some hx]
      exact fun hid => hentry (Option.some.inj hid).symm
  · intro h x hx y hfollow
    obtain ⟨hy, hterm, hne, hentry, hpreds, hphis⟩ := (follower?_eq_some hb).mp hfollow
    rw [entryId?_eq_some hx] at hentry
    obtain ⟨z, hz, hzx, hsucc⟩ := h x hx y hy hterm (fun h => hne (h ▸ rfl))
      (fun h => hentry (congrArg some h.symm)) hphis
    have hmem : z.id ∈ (FlowGraph.ofBody b).preds y.id :=
      FlowGraph.mem_preds.mpr ⟨z, hz, rfl, Block.mem_targets.mpr hsucc⟩
    rw [hpreds, List.mem_singleton] at hmem
    exact hzx (Body.eq_of_id_eq hb hz hx hmem)

theorem mergeBlocks_of_unchanged (h : (mergeBlocks b).2 = false) : (mergeBlocks b).1 = b := by
  unfold mergeBlocks at h ⊢
  dsimp only at h ⊢
  split at h
  · cases h
  · rfl

/-- A round that reports no change has decided the branches with equal targets, and nothing else is
left to do. -/
theorem simplified_of_unchanged (hb : b.ids.Nodup) (h : simplifyOnce b = (c, false)) :
    c.Simplified := by
  simp only [simplifyOnce, Prod.mk.injEq, Bool.or_eq_false_iff] at h
  obtain ⟨hc, ⟨⟨hfold, hremove⟩, hphis⟩, hmerge⟩ := h
  have hids := (shrinks_foldBranches hb).ids
  rw [foldBranches_of_unchanged hfold] at hc hremove hphis hmerge hids
  rw [removeUnreachable_of_unchanged hremove] at hc hphis hmerge
  rw [removeTrivialPhis_of_unchanged hphis] at hc hmerge
  rw [mergeBlocks_of_unchanged hmerge] at hc
  subst hc
  refine ⟨?_, removeUnreachable_unchanged.mp hremove, removeTrivialPhis_unchanged.mp hphis,
    (mergeBlocks_unchanged hids).mp hmerge⟩
  intro x hx value s u hterm
  obtain ⟨y, hy, rfl⟩ := List.mem_map.mp hx
  obtain ⟨t, ht, hfolded⟩ := Option.map_eq_some_iff.mp hterm
  exact constantBranch?_eq_none.mp (constantBranch?_foldTerminator t) value s u hfolded

theorem simplifyOnce_of_simplified (hb : b.ids.Nodup) (h : b.Simplified) :
    simplifyOnce b = (b, false) := by
  have hfold : foldBranches b = (b, false) := by
    refine foldBranches_of_decided fun x hx t ht => constantBranch?_eq_none.mpr ?_
    rintro value s u rfl
    exact h.decided x hx value s u ht
  have hremove := removeUnreachable_unchanged.mpr h.reached
  have hphis := removeTrivialPhis_unchanged.mpr h.branched
  have hmerge := (mergeBlocks_unchanged hb).mpr h.parted
  simp only [simplifyOnce, hfold, removeUnreachable_of_unchanged hremove,
    removeTrivialPhis_of_unchanged hphis, mergeBlocks_of_unchanged hmerge, hremove, hphis, hmerge,
    Bool.or_false]

/-- Simplifying the flow comes to an end, in its loop over phis and in its loop over the steps. What it
leaves is simplified, so simplifying it again changes nothing. -/
theorem simplifyFlow_normal (b : Body) (hb : b.ids.Nodup) :
    (∀ c, Settles (roundOf replaceTrivialPhi?) c (removeTrivialPhis c).1) ∧
      Settles simplifyOnce b (simplifyFlow b) ∧ (simplifyFlow b).Simplified ∧
      simplifyFlow (simplifyFlow b) = simplifyFlow b := by
  have hsettles := simplifyFlow_settles hb
  have hkeeps : ∀ a : Body, a.ids.Nodup → (simplifyOnce a).1.ids.Nodup :=
    fun a ha => (shrinks_simplifyOnce ha).ids
  obtain ⟨a, ha, hlast⟩ := hsettles.exists_last hkeeps hb
  have hids : (simplifyFlow b).ids.Nodup := by
    have := hkeeps a ha
    rwa [hlast] at this
  have hsimplified := simplified_of_unchanged ha hlast
  exact ⟨removeTrivialPhis_settles, hsettles, hsimplified,
    untilStable_of_eq (simplifyOnce_of_simplified hids hsimplified) _⟩

/-- Two branches on constants, one of them with equal targets, and a loop that may leave for a block
that is missing. -/
def detour : Body where
  blocks := [⟨0, "entry", [], some (.condBr (.bool true) 1 2)⟩,
    ⟨1, "left", [], some (.condBr (.bool false) 3 3)⟩, ⟨2, "right", [], some (.br 3)⟩,
    ⟨3, "loop", [⟨some 0, .i64, .phi [(.int 1, 1), (.int 2, 2)]⟩,
      ⟨some 1, .i64, .call "step" [.reg 0]⟩], some (.condBr (.param 0) 3 9)⟩]
  regTypes := [.i64, .i64]
  nextBlock := 4

theorem detour_normal : detour.ids.Nodup ∧
    (simplifyFlow detour).blocks = [⟨0, "entry", [], some (.br 3)⟩,
      ⟨3, "loop", [⟨some 1, .i64, .call "step" [.int 1]⟩], some (.condBr (.param 0) 3 9)⟩] ∧
    Settles simplifyOnce detour (simplifyFlow detour) ∧ (simplifyFlow detour).Simplified ∧
    simplifyFlow (simplifyFlow detour) = simplifyFlow detour := by
  have hids : detour.ids.Nodup := by decide
  exact ⟨hids, by decide, (simplifyFlow_normal detour hids).2⟩

end NormalForm

end SsaCompiler.Optimize
