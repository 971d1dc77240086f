import SsaCompiler.Proofs.Optimizer.Passes
import SsaCompiler.Proofs.Validity.Bounds
import SsaCompiler.Proofs.Validity.Guards

/-!
The optimizer keeps divisions guarded. A rewrite may decide the test of a divisor: if the divisor is
a constant other than zero, the division needs no guard, and otherwise the branch leads past the
division until pruning removes the block that divides. No other rewrite opens a way into such a
block.
-/
namespace SsaCompiler

namespace Ir

theorem Instr.op_mapIncoming {F : List (Value × BlockId) → List (Value × BlockId)} {i : Instr}
    (h : (i.mapIncoming F).op.isPhi = false) : (i.mapIncoming F).op = i.op :=
  Op.mapIncoming_of_plain (by simpa [mapIncoming] using h)

namespace Body

variable {b : Body} {x y : Block} {r : Reg} {op : Op} {u : BlockId} {w : Value}
  {T : BlockId → Terminator} {σ : Value → Value} {p : Instr → Bool} {keep : BlockId → Bool}
  {live : BlockId → BlockId → Bool} {τ : Terminator → Terminator}

theorem Always.mapOperands (h : b.Always r op) : (b.mapOperands σ).Always r (op.mapOperands σ) := by
  intro x' hx' i' hi' hres
  obtain ⟨x, hx, rfl⟩ := List.mem_map.mp hx'
  obtain ⟨i, hi, rfl⟩ := List.mem_map.mp hi'
  exact congrArg (Op.mapOperands σ) (h x hx i hi hres)

theorem Always.filterInstrs (h : b.Always r op) : (b.filterInstrs p).Always r op := by
  intro x' hx' i hi
  obtain ⟨x, hx, rfl⟩ := List.mem_map.mp hx'
  exact h x hx i (List.mem_filter.mp hi).1

theorem Always.pruned (h : b.Always r op) (hplain : op.isPhi = false) :
    (b.pruned keep live τ).Always r op := by
  intro x' hx' i' hi' hres
  obtain ⟨x, hx, _, rfl⟩ := mem_blocks_pruned.mp hx'
  obtain ⟨i, hi, rfl⟩ := List.mem_map.mp hi'
  obtain rfl := h x hx i hi hres
  exact Op.mapIncoming_of_plain hplain

/-- The instructions of a body with two blocks joined, of which the second has no phis. -/
theorem mem_instrs_joined {q' : Block} {i' : Instr} (hq' : q' ∈ (b.joined x y).blocks)
    (hi' : i' ∈ q'.instrs) : (∃ q ∈ b.blocks, q.id = q'.id ∧ ∃ i ∈ q.instrs, ∃ F,
      i' = i.mapIncoming F) ∨ i' ∈ y.instrs := by
  obtain ⟨q, hq, _, rfl⟩ := mem_blocks_joined.mp hq'
  rw [Block.instrs_joined] at hi'
  rcases List.mem_append.mp hi' with hi' | hi'
  · obtain ⟨i, hi, rfl⟩ := List.mem_map.mp hi'
    exact .inl ⟨q, hq, Block.id_joined.symm, i, hi, _, rfl⟩
  · split at hi'
    · exact .inr hi'
    · cases hi'

theorem Always.joined (h : b.Always r op) (hplain : op.isPhi = false) (hy : y ∈ b.blocks) :
    (b.joined x y).Always r op := by
  intro q' hq' i' hi' hres
  rcases mem_instrs_joined hq' hi' with ⟨q, hq, _, i, hi, F, rfl⟩ | hi'
  · obtain rfl := h q hq i hi hres
    exact Op.mapIncoming_of_plain hplain
  · exact h y hy i' hi' hres

/-- Control enters the block `v` only by the terminators `T o` that lead to another block `o` as
well. -/
structure EnteredBy (b : Body) (T : BlockId → Terminator) (v : BlockId) : Prop where
  inner : v ≠ b.entry
  branches : ∀ p ∈ b.blocks, v ∈ p.targets → ∃ o, p.term = some (T o) ∧ o ≠ v

theorem EnteredOn.entered (h : b.EnteredOn w u) : b.EnteredBy (.condBr w · u) u :=
  ⟨h.inner, h.branches⟩

theorem EnteredBy.on (h : b.EnteredBy (.condBr w · u) u) : b.EnteredOn w u := ⟨h.inner, h.branches⟩

theorem EnteredIf.entered (h : b.EnteredIf w u) : b.EnteredBy (.condBr w u ·) u :=
  ⟨h.inner, h.branches⟩

theorem EnteredBy.if (h : b.EnteredBy (.condBr w u ·) u) : b.EnteredIf w u := ⟨h.inner, h.branches⟩

theorem EnteredBy.mapOperands (h : b.EnteredBy T u) :
    (b.mapOperands σ).EnteredBy (fun o => (T o).mapOperands σ) u := by
  refine ⟨(sameFlow_mapOperands σ b).entry ▸ h.inner, fun p' hp' hmem => ?_⟩
  obtain ⟨p, hp, rfl⟩ := List.mem_map.mp hp'
  obtain ⟨t', ht', hsucc⟩ := Block.exists_term hmem
  obtain ⟨t, ht, rfl⟩ := Option.map_eq_some_iff.mp ht'
  obtain ⟨o, ho, hne⟩ := h.branches p hp ((Block.mem_targets_of_term ht).mpr (by simpa using hsucc))
  exact ⟨o, by simp [Block.mapOperands, ho], hne⟩

theorem EnteredBy.filterInstrs (h : b.EnteredBy T u) : (b.filterInstrs p).EnteredBy T u := by
  refine ⟨(sameFlow_filterInstrs p b).entry ▸ h.inner, fun q' hq' hmem => ?_⟩
  obtain ⟨q, hq, rfl⟩ := List.mem_map.mp hq'
  exact h.branches q hq hmem

/-- Pruning gives up ways into a block, and keeps the branches that still lead there. -/
theorem EnteredBy.pruned (h : b.EnteredBy T u) (hentry : (b.pruned keep live τ).entry = b.entry)
    (hsucc : ∀ t, ∀ s ∈ (τ t).successors, s ∈ t.successors)
    (hτ : ∀ o, o ≠ u → u ∈ (τ (T o)).successors → τ (T o) = T o) :
    (b.pruned keep live τ).EnteredBy T u := by
  refine ⟨hentry ▸ h.inner, fun q' hq' hmem => ?_⟩
  obtain ⟨q, hq, _, rfl⟩ := mem_blocks_pruned.mp hq'
  obtain ⟨t', ht', hmem⟩ := Block.exists_term hmem
  obtain ⟨t, ht, rfl⟩ := Option.map_eq_some_iff.mp ht'
  obtain ⟨o, ho, hne⟩ := h.branches q hq ((Block.mem_targets_of_term ht).mpr (hsucc t u hmem))
  obtain rfl := Option.some.inj (ht.symm.trans ho)
  exact ⟨o, by rw [ht', hτ o hne hmem], hne⟩

theorem EnteredBy.joined (h : b.EnteredBy T u) (hfollow : b.Follow x y) :
    (b.joined x y).EnteredBy T u := by
  refine ⟨hfollow.entry_eq ▸ h.inner, fun q' hq' hmem => ?_⟩
  obtain ⟨q, hq, _, rfl⟩ := mem_blocks_joined.mp hq'
  rw [Block.targets_joined] at hmem
  rw [Block.term_joined]
  split at hmem
  case isTrue hid =>
    rw [if_pos hid]
    exact h.branches y hfollow.second hmem
  case isFalse hid =>
    rw [if_neg hid]
    exact h.branches q hq hmem

/-- A block that is joined is not entered by a branch. -/
theorem EnteredBy.not_follow (h : b.EnteredBy T y.id) (hT : ∀ o, T o ≠ .br y.id) :
    ¬ b.Follow x y := by
  intro hfollow
  obtain ⟨o, ho, _⟩ := h.branches x hfollow.first
    ((Block.mem_targets_of_term hfollow.term).mpr (by simp [Terminator.successors]))
  exact hT o (Option.some.inj (ho.symm.trans hfollow.term))

end Body

end Ir

namespace Optimize

open Ir

variable {b c : Body} {f : Function} {m : Module} {lax : Bool} {x y : Block}
  {done rest : List Instr} {i : Instr} {r z : Reg} {u : BlockId} {d v w : Value}

theorem careful_mono (h : b.Careful false) : b.Careful lax := by
  intro x hx i hi l d hop
  rcases h x hx i hi l d hop with hnonzero | hguard | ⟨hlax, _⟩
  · exact .inl hnonzero
  · exact .inr (.inl hguard)
  · cases hlax

section Operands

variable {σ : Value → Value}

theorem testsZero_mapOperands (hσ : ∀ c, σ (.const c) = .const c) (h : b.TestsZero z d) :
    (b.mapOperands σ).TestsZero z (σ d) := by
  have h' := Body.Always.mapOperands (σ := σ) h
  rwa [Op.mapOperands, hσ] at h'

theorem enteredOn_mapOperands (h : b.EnteredOn w u) : (b.mapOperands σ).EnteredOn (σ w) u :=
  h.entered.mapOperands.on

/-- Every division of the new body was one of the old body. -/
theorem division_mapOperands {l' d' : Value} {x' : Block} {i' : Instr}
    (hx : x' ∈ (b.mapOperands σ).blocks) (hi : i' ∈ x'.instrs) (hop : i'.op = .binary .fdiv l' d') :
    ∃ x ∈ b.blocks, x'.id = x.id ∧ ∃ i ∈ x.instrs, ∃ l d, i.op = .binary .fdiv l d ∧ d' = σ d := by
  obtain ⟨x, hx', rfl⟩ := List.mem_map.mp hx
  obtain ⟨i, hi', rfl⟩ := List.mem_map.mp hi
  refine ⟨x, hx', rfl, i, hi', ?_⟩
  simp only [Instr.mapOperands] at hop
  cases hold : i.op <;> rw [hold] at hop <;> cases hop
  exact ⟨_, _, rfl, rfl⟩

theorem nonzero_map (hσ : ∀ c, σ (.const c) = .const c) (h : d.Nonzero) : (σ d).Nonzero := by
  obtain ⟨c, rfl, hc⟩ := h
  exact ⟨c, hσ _, hc⟩

/-- Values that are neither constants nor registers make no difference. -/
theorem careful_mapOperands (h : b.Careful lax) (hσ : ∀ c, σ (.const c) = .const c)
    (hreg : ∀ r, σ (.reg r) = .reg r) : (b.mapOperands σ).Careful lax := by
  intro x' hx' i' hi' l' d' hop'
  obtain ⟨x, hx, hid, i, hi, l, d, hop, rfl⟩ := division_mapOperands hx' hi' hop'
  rw [hid]
  rcases h x hx i hi l d hop with hnonzero | ⟨z, htest, hz⟩ | ⟨hlax, hz⟩
  · exact .inl (nonzero_map hσ hnonzero)
  · refine .inr (.inl ⟨z, testsZero_mapOperands hσ htest, ?_⟩)
    exact hreg z ▸ enteredOn_mapOperands (σ := σ) hz
  · have hz' := enteredOn_mapOperands (σ := σ) hz
    rw [hσ] at hz'
    exact .inr (.inr ⟨hlax, hz'⟩)

variable {p : Instr → Bool}

theorem careful_filterInstrs (h : b.Careful lax) : (b.filterInstrs p).Careful lax := by
  intro x' hx' i hi l d hop
  obtain ⟨x, hx, rfl⟩ := List.mem_map.mp hx'
  rcases h x hx i (List.mem_filter.mp hi).1 l d hop with hnonzero | ⟨z, htest, hz⟩ | ⟨hlax, hz⟩
  · exact .inl hnonzero
  · exact .inr (.inl ⟨z, Body.Always.filterInstrs htest, hz.entered.filterInstrs.on⟩)
  · exact .inr (.inr ⟨hlax, hz.entered.filterInstrs.on⟩)

end Operands

section Substituting

/-- Where the test itself gets a known value, another test of the divisor takes its place, or the
divisor is a constant. -/
theorem guard_known (hb : b.Regular f m) (hdef : b.Defines x done i rest r)
    (hknown : Known b x done i r v) (htest : b.TestsZero r d) :
    (∃ q, v = .reg q ∧ b.TestsZero q d) ∨ d.Nonzero ∨ v = .bool true := by
  have hi : i ∈ x.instrs := by simp [hdef.split]
  have hop := htest x hdef.mem i hi hdef.result
  cases hknown with
  | folded hsimp =>
    rw [hop] at hsimp
    simp only [simplify?, foldFcmp] at hsimp
    split at hsimp
    case h_1 c c' hc' =>
      cases hc'
      obtain rfl := Option.some.inj hsimp
      cases hzero : FloatPred.oeq.onFloats c .zero with
      | true => exact .inr (.inr rfl)
      | false => exact .inr (.inl ⟨c, rfl, hzero⟩)
    case h_2 => cases hsimp
  | @repeated y before after j q hnum hdef' hsame havail =>
    refine .inl ⟨q, rfl, fun x' hx' i' hi' hres => ?_⟩
    obtain ⟨done', rest', hsplit⟩ := List.append_of_mem hi'
    have hdef'' : b.Defines x' done' i' rest' q := ⟨hx', hsplit, hres⟩
    obtain ⟨_, _, rfl, _⟩ := hdef'.unique hb.valid.unique hdef''
    exact hsame.trans hop
  | onlyEdge hphi =>
    rw [hphi] at hop
    cases hop

theorem replace_const (r : Reg) (v : Value) (c : Constant) :
    Value.replace r v (.const c) = .const c := by simp [Value.replace]

/-- Known values keep divisions guarded. Branches are decided only where tests are folded, that is,
not in the place of phis. -/
theorem careful_substitute (h : b.Careful lax) (hb : b.Regular f m)
    (hdef : b.Defines x done i rest r) (hknown : Known b x done i r v)
    (hlax : i.op.isPhi = true ∨ lax = true) : (b.substitute r v).Careful lax := by
  refine careful_filterInstrs ?_
  intro x' hx' i' hi' l' d' hop'
  obtain ⟨y, hy, hid, j, hj, l, d, hop, rfl⟩ := division_mapOperands hx' hi' hop'
  rw [hid]
  rcases h y hy j hj l d hop with hnonzero | ⟨z, htest, hz⟩ | ⟨hlax, hz⟩
  · exact .inl (nonzero_map (replace_const r v) hnonzero)
  · have hz' := enteredOn_mapOperands (σ := Value.replace r v) hz
    by_cases hr : z = r
    · subst hr
      have hself : Value.replace z v (.reg z) = v := by simp [Value.replace]
      rw [hself] at hz'
      rcases guard_known hb hdef hknown htest with ⟨q, rfl, hq⟩ | hnonzero | rfl
      · exact .inr (.inl ⟨q, testsZero_mapOperands (replace_const z _) hq, hz'⟩)
      · exact .inl (nonzero_map (replace_const z v) hnonzero)
      · refine .inr (.inr ⟨hlax.resolve_left ?_, hz'⟩)
        rw [htest x hdef.mem i (by simp [hdef.split]) hdef.result]
        simp [Op.isPhi]
    · have hother : Value.replace r v (.reg z) = .reg z := by simp [Value.replace, hr]
      rw [hother] at hz'
      exact .inr (.inl ⟨z, testsZero_mapOperands (replace_const r v) htest, hz'⟩)
  · exact .inr (.inr ⟨hlax, enteredOn_mapOperands (w := .bool true) hz⟩)

end Substituting

section Pruning

variable {keep : BlockId → Bool} {live : BlockId → BlockId → Bool} {τ : Terminator → Terminator}

theorem careful_pruned (h : b.Careful lax) (hentry : (b.pruned keep live τ).entry = b.entry)
    (hsucc : ∀ t, ∀ s ∈ (τ t).successors, s ∈ t.successors)
    (hτ : ∀ w t u, w ≠ .bool false → t ≠ u → u ∈ (τ (.condBr w t u)).successors →
      τ (.condBr w t u) = .condBr w t u) :
    (b.pruned keep live τ).Careful lax := by
  have hentered : ∀ {w u}, w ≠ .bool false → b.EnteredOn w u →
      (b.pruned keep live τ).EnteredOn w u := fun hw hu =>
    (hu.entered.pruned hentry hsucc fun t => hτ _ t _ hw).on
  intro x' hx' i' hi' l d hop
  obtain ⟨x, hx, _, rfl⟩ := Body.mem_blocks_pruned.mp hx'
  obtain ⟨i, hi, rfl⟩ := List.mem_map.mp hi'
  have hold := (Instr.op_mapIncoming (hop ▸ rfl)).symm.trans hop
  rcases h x hx i hi l d hold with hnonzero | ⟨z, htest, hz⟩ | ⟨hlax, hz⟩
  · exact .inl hnonzero
  · exact .inr (.inl ⟨z, Body.Always.pruned htest rfl, hentered (by simp) hz⟩)
  · exact .inr (.inr ⟨hlax, hentered (by simp) hz⟩)

/-- Once branches are decided and every block can be reached, every division has its guard. -/
theorem careful_of_reached (h : b.Careful lax) (hreach : ∀ x ∈ b.blocks, b.Reaches x.id)
    (hdecided : ∀ p ∈ b.blocks, ∀ t u, p.term ≠ some (.condBr (.bool true) t u)) :
    b.Careful false := by
  intro x hx i hi l d hop
  rcases h x hx i hi l d hop with hnonzero | hguard | ⟨_, hentered⟩
  · exact .inl hnonzero
  · exact .inr (.inl hguard)
  · obtain ⟨_, ⟨p, hp, rfl, hedge⟩, _⟩ :=
      Reach.entered (hreach x hx) (Ne.symm hentered.inner)
    obtain ⟨t, ht, _⟩ := hentered.branches p hp hedge
    exact absurd ht (hdecided p hp t x.id)

theorem foldTerminator_condBr {t : BlockId} (hw : w ≠ .bool false) (hne : t ≠ u)
    (hmem : u ∈ (foldTerminator (.condBr w t u)).successors) :
    foldTerminator (.condBr w t u) = .condBr w t u := by
  by_cases htrue : w = .bool true
  · subst htrue
    exact absurd (by simpa [foldTerminator, constantBranch?, Terminator.successors] using hmem) hne.symm
  · have hnone : constantBranch? (.condBr w t u) = none := by
      unfold constantBranch?
      split
      case h_1 taken _ _ heq =>
        cases heq
        cases taken with
        | true => exact absurd rfl htrue
        | false => exact absurd rfl hw
      case h_2 => rfl
    simp [foldTerminator, hnone]

theorem foldTerminator_ne (t : Terminator) (s u : BlockId) :
    foldTerminator t ≠ .condBr (.bool true) s u := by
  unfold foldTerminator
  split
  · exact fun h => nomatch h
  case h_2 hnone =>
    rintro rfl
    cases hnone

/-- Pruning removes the blocks whose guards were decided against them. -/
theorem careful_prune (h : b.Careful lax) (hb : b.Regular f m) :
    (removeUnreachable (foldBranches b).1).1.Careful false := by
  have hremoved : (removeUnreachable (foldBranches b).1).1.Careful lax := by
    refine prune_induction (Q := Body.Careful lax) hb h fun hτ _ hne hprunes hc => ?_
    rcases hτ with rfl | rfl
    · exact careful_pruned hc (hprunes.entry_eq hne) (fun t s hs => successors_foldTerminator hs)
        fun w t u hw hne hmem => foldTerminator_condBr hw hne hmem
    · exact careful_pruned hc (hprunes.entry_eq hne) (fun t s hs => hs) fun w t u _ _ _ => rfl
  refine careful_of_reached hremoved (regular_removeUnreachable hb).reached ?_
  · intro p' hp' t u
    rw [removeUnreachable_eq (wellFormed_foldBranches hb).1] at hp'
    obtain ⟨q, hq, _, rfl⟩ := Body.mem_blocks_pruned.mp hp'
    rw [foldBranches_eq hb.ids] at hq
    obtain ⟨p, _, _, rfl⟩ := Body.mem_blocks_pruned.mp hq
    intro hterm
    simp only [Block.pruned, Option.map_id, id] at hterm
    obtain ⟨t', _, ht'⟩ := Option.map_eq_some_iff.mp hterm
    exact foldTerminator_ne t' t u ht'

end Pruning

section Joining

theorem careful_joined (h : b.Careful lax) (hfollow : b.Follow x y) :
    (b.joined x y).Careful lax := by
  have hplain : ∀ {w}, ¬ b.EnteredOn w y.id := fun hy =>
    hy.entered.not_follow (by simp) hfollow
  intro q' hq' i' hi' l d hop
  rcases Body.mem_instrs_joined hq' hi' with ⟨q, hq, hid, i, hi, F, rfl⟩ | hi'
  · rw [← hid]
    have hold := (Instr.op_mapIncoming (hop ▸ rfl)).symm.trans hop
    rcases h q hq i hi l d hold with hnonzero | ⟨z, htest, hz⟩ | ⟨hlax, hz⟩
    · exact .inl hnonzero
    · exact .inr (.inl ⟨z, Body.Always.joined htest rfl hfollow.second,
        (hz.entered.joined hfollow).on⟩)
    · exact .inr (.inr ⟨hlax, (hz.entered.joined hfollow).on⟩)
  · rcases h y hfollow.second i' hi' l d hop with hnonzero | ⟨z, _, hz⟩ | ⟨_, hz⟩
    · exact .inl hnonzero
    · exact absurd hz hplain
    · exact absurd hz hplain

end Joining

/-- Every rewrite keeps divisions guarded, up to branches that are decided. -/
theorem Rewrite.careful (h : Rewrite b c) (hb : b.Regular f m) (hc : b.Careful true) :
    c.Careful true := by
  cases h with
  | substitute hdef hknown => exact careful_substitute hc hb hdef hknown (.inr rfl)
  | drop _ _ => exact careful_filterInstrs hc
  | prune => exact careful_mono (careful_prune hc hb)
  | join hfollow => exact careful_joined hc hfollow

theorem Rewrites.careful (h : Rewrites b c) (hb : b.Regular f m) (hc : b.Careful true) :
    c.Regular f m ∧ c.Careful true := by
  induction h with
  | refl => exact ⟨hb, hc⟩
  | tail _ hstep ih => exact ⟨hstep.regular ih.1, hstep.careful ih.1 ih.2⟩

/-- A regular body with guarded divisions. -/
structure Safe (lax : Bool) (f : Function) (m : Module) (b : Body) : Prop where
  regular : b.Regular f m
  careful : b.Careful lax

theorem Safe.loosen (h : Safe false f m b) : Safe true f m b := ⟨h.regular, careful_mono h.careful⟩

theorem Safe.derived (h : Safe true f m b) (hc : Derived f m b c) : Safe true f m c :=
  ⟨hc.regular, (hc.rewrites.careful h.regular h.careful).2⟩

theorem safe_mergeBlocks (h : Safe lax f m b) : Safe lax f m (mergeBlocks b).1 := by
  rcases mergeBlocks_cases h.regular with heq | ⟨x, y, hfollow, heq⟩
  · rwa [heq]
  · rw [heq]
    exact ⟨hfollow.regular h.regular, careful_joined h.careful hfollow⟩

theorem safe_removeTrivialPhis (h : Safe lax f m b) : Safe lax f m (removeTrivialPhis b).1 := by
  refine untilStable_keeps (fun a ha => roundOf_keeps (fun a a' ha hstep => ?_) ha) h _
  have hregular := (replaceTrivialPhi?_rewrite hstep).regular ha.regular
  obtain ⟨x, done, i, rest, r, v, source, hdef, hop, rfl⟩ := replaceTrivialPhi?_eq_some hstep
  exact ⟨hregular, careful_substitute ha.careful ha.regular hdef (.onlyEdge hop)
    (.inl (by simp [hop, Op.isPhi]))⟩

/-- One round of simplifying the flow gives every division its guard again. -/
theorem safe_simplifyOnce (h : Safe lax f m b) : Safe false f m (simplifyOnce b).1 := by
  have hprune : Safe false f m (removeUnreachable (foldBranches b).1).1 :=
    ⟨regular_removeUnreachable h.regular, careful_prune h.careful h.regular⟩
  exact safe_mergeBlocks (safe_removeTrivialPhis hprune)

theorem safe_simplifyFlow (h : Safe true f m b) : Safe false f m (simplifyFlow b) := by
  unfold simplifyFlow untilStable
  dsimp only
  split
  · exact untilStable_keeps (fun a ha => safe_simplifyOnce ha) (safe_simplifyOnce h) _
  · exact safe_simplifyOnce h

theorem safe_runPasses (h : Safe false f m b) : Safe false f m (runPasses standardPasses b) := by
  have hcombine := h.loosen.derived (combineInstrs_derived (.refl h.regular))
  have hnumber := hcombine.derived (numberValues_derived (.refl hcombine.regular))
  simp only [runPasses, standardPasses, List.foldl_cons, List.foldl_nil, Pass.run]
  exact safe_simplifyFlow hnumber

/-- The optimizer keeps divisions guarded. -/
theorem safe_optimizeBody (n : Nat) (h : Safe false f m b) :
    Safe false f m (optimizeBody standardPasses n b) := by
  induction n generalizing b with
  | zero => exact h
  | succ n ih =>
    unfold optimizeBody
    dsimp only
    split
    · exact h
    · exact ih (safe_runPasses h)

end Optimize

end SsaCompiler
