import SsaCompiler.Proofs.Optimizer.Guards

/-!
The optimizer keeps indices within arrays. As long as a counter is a register, neither the next count
nor its test can be folded, and both are only replaced by equal computations. The block that uses the
next count leads back to the counter, so the counter does not lose that edge while the block is there.
-/
namespace SsaCompiler.Optimize

open Ir

variable {b b' : Body} {f : Function} {m : Module} {x y : Block} {done rest : List Instr}
  {i j : Instr} {r c n z : Reg} {h u : BlockId} {v w : Value} {len : Nat} {op : Op}
  {incoming : List (Value × BlockId)}

/-- A change that keeps computations, the ways into a block and the way out of it. -/
theorem climbs_of (hclimbs : b.Climbs len h c n u)
    (halways : ∀ r op, op.isPhi = false → b.Always r op → b'.Always r op)
    (hentered : ∀ z, b.EnteredIf (.reg z) u → b'.EnteredIf (.reg z) u)
    (hleaves : ∀ p' ∈ b'.blocks, p'.id = u →
      ∃ p ∈ b.blocks, p.id = u ∧ (p.term = some (.br h) → p'.term = some (.br h))) :
    b'.Climbs len h c n u := by
  obtain ⟨z, htest, hz⟩ := hclimbs.test
  refine ⟨halways _ _ rfl hclimbs.next, ⟨z, halways _ _ rfl htest, hentered z hz⟩, ?_⟩
  intro p' hp' hid'
  obtain ⟨p, hp, hid, hterm⟩ := hleaves p' hp' hid'
  exact hterm (hclimbs.leaves p hp hid)

/-- A loop still counts when its counter has some of its edges, or other edges that start at zero. -/
theorem counts_of {incoming' : List (Value × BlockId)} (hcounts : b.Counts len h c incoming)
    (hhome : ∃ x ∈ b'.blocks, x.id = h ∧ ∃ i ∈ x.instrs, i.result = some c ∧ i.op = .phi incoming')
    (hedges : ∀ e ∈ incoming', e.1 = .int 0 ∨
      e ∈ incoming ∧ ∀ n, b.Climbs len h c n e.2 → b'.Climbs len h c n e.2) :
    b'.Counts len h c incoming' := by
  refine ⟨hcounts.positive, hhome, fun e he => ?_⟩
  rcases hedges e he with hzero | ⟨hold, hclimbs⟩
  · exact .inl hzero
  · rcases hcounts.edges e hold with hzero | ⟨n, hn, hn'⟩
    · exact .inl hzero
    · exact .inr ⟨n, hn, hclimbs n hn'⟩

section Operands

variable {σ : Value → Value}

/-- Equal computations may take the place of the next count and of its test. -/
theorem climbs_mapOperands {n' z' : Reg} (hσ : ∀ k, σ (.const k) = .const k)
    (hclimbs : b.Climbs len h c n u) (hc : σ (.reg c) = .reg c) (hn : σ (.reg n) = .reg n')
    (hnext : b.Always n' (.binary .add (.reg c) (.int 1))) (hz : σ (.reg z) = .reg z')
    (htest : b.Always z' (.icmp .slt (.reg n) (.int (Int64.ofNat len))))
    (hentered : b.EnteredIf (.reg z) u) : (b.mapOperands σ).Climbs len h c n' u := by
  refine ⟨?_, ⟨z', ?_, hz ▸ hentered.entered.mapOperands.if⟩, ?_⟩
  · simpa [Op.mapOperands, hc, hσ] using hnext.mapOperands (σ := σ)
  · simpa [Op.mapOperands, hn, hσ] using htest.mapOperands (σ := σ)
  · intro p' hp' hid
    obtain ⟨p, hp, rfl⟩ := List.mem_map.mp hp'
    simp [Block.mapOperands, hclimbs.leaves p hp hid, Terminator.mapOperands]

/-- Every address of an element in the new body was one in the old body. -/
theorem elementPtr_mapOperands {x' : Block} {i' : Instr} {base' v' : Value}
    (hx : x' ∈ (b.mapOperands σ).blocks) (hi : i' ∈ x'.instrs)
    (hop : i'.op = .elementPtr base' v') :
    ∃ x ∈ b.blocks, x'.id = x.id ∧ ∃ i ∈ x.instrs, ∃ base v, i.op = .elementPtr base v ∧
      base' = σ base ∧ v' = σ v := by
  obtain ⟨x, hx', rfl⟩ := List.mem_map.mp hx
  obtain ⟨i, hi', rfl⟩ := List.mem_map.mp hi
  refine ⟨x, hx', rfl, i, hi', ?_⟩
  simp only [Instr.mapOperands] at hop
  cases hold : i.op <;> rw [hold] at hop <;> cases hop
  exact ⟨_, _, rfl, rfl, rfl⟩

theorem within_map (hσ : ∀ k, σ (.const k) = .const k) (hv : v.Within len) : (σ v).Within len := by
  obtain ⟨i, hi, rfl⟩ := hv
  exact ⟨i, hi, hσ _⟩

end Operands

section Substituting

/-- The phi that a counter is. -/
theorem exists_defines_counter (hcounts : b.Counts len h c incoming) :
    ∃ x done i rest, b.Defines x done i rest c ∧ x.id = h ∧ i.op = .phi incoming := by
  obtain ⟨x, hx, hid, i, hi, hres, hop⟩ := hcounts.home
  obtain ⟨done, rest, hsplit⟩ := List.append_of_mem hi
  exact ⟨x, done, i, rest, ⟨hx, hsplit, hres⟩, hid, hop⟩

/-- A counter that control comes back to has no known value. -/
theorem counter_not_known (hb : b.Regular f m) (hdef : b.Defines x done i rest c)
    (hop : i.op = .phi incoming) (hnext : b.Always n (.binary .add (.reg c) (.int 1)))
    (hmem : (.reg n, u) ∈ incoming) : ¬ Known b x done i c v := by
  intro hknown
  cases hknown with
  | folded hsimp =>
    rw [hop] at hsimp
    obtain ⟨hreg, _, hall⟩ := foldPhi_cases hsimp
    rcases hall _ hmem with heq | heq
    · exact hreg n heq.symm
    · obtain rfl : n = c := Value.reg.inj heq
      exact absurd (hnext.of_defines hdef) (by simp [hop])
  | repeated hnum _ _ _ =>
    rw [hop] at hnum
    cases hnum
  | @onlyEdge _ source hphi =>
    obtain rfl : incoming = [(v, source)] := Op.phi.inj (hop.symm.trans hphi)
    obtain ⟨rfl, _⟩ : .reg n = v ∧ u = source := by simpa using hmem
    -- the next count would be available at the top of the block, and with it the counter
    have havail := hnext.avail_operand (q := c) hb rfl (by simp [Op.operands]) hdef.mem
      (List.nil_append _).symm (edge_avail hb hdef hphi)
    exact hdef.not_avail_self hb.valid.unique (havail.mono fun _ hj => absurd hj (by simp))

/-- Only an equal computation is known to give what a computation gives that cannot be folded. -/
theorem known_always (hb : b.Regular f m) (hdef : b.Defines x done i rest r)
    (hknown : Known b x done i r v) (halways : b.Always r op) (hplain : op.isPhi = false)
    (hfold : simplify? r op = none) : ∃ q, v = .reg q ∧ b.Always q op := by
  obtain rfl := halways.of_defines hdef
  cases hknown with
  | folded hsimp =>
    rw [hfold] at hsimp
    cases hsimp
  | @repeated y before after j q hnum hdef' hsame havail =>
    exact ⟨q, rfl, hsame ▸ Body.always_of_defines hb.valid.unique hdef'⟩
  | onlyEdge hphi =>
    rw [hphi] at hplain
    cases hplain

theorem replace_always (hb : b.Regular f m) (hdef : b.Defines x done i rest r)
    (hknown : Known b x done i r v) (halways : b.Always n op) (hplain : op.isPhi = false)
    (hfold : ∀ r, simplify? r op = none) :
    ∃ n', Value.replace r v (.reg n) = .reg n' ∧ b.Always n' op := by
  by_cases hr : n = r
  · subst hr
    obtain ⟨q, rfl, hq⟩ := known_always hb hdef hknown halways hplain (hfold n)
    exact ⟨q, by simp [Value.replace], hq⟩
  · exact ⟨n, by simp [Value.replace, hr], halways⟩

/-- Arrays stay indexed by their places if a counter is left alone and a computation that cannot be
folded only makes way for an equal one. -/
theorem bounded_mapOperands {σ : Value → Value} (hbounded : b.Bounded f)
    (hσ : ∀ k, σ (.const k) = .const k) (htype : ∀ v, f.typeOf (σ v) = f.typeOf v)
    (hcounter : ∀ len h c incoming n u, b.Counts len h c incoming → (.reg n, u) ∈ incoming →
      σ (.reg c) = .reg c)
    (hplain : ∀ n op, b.Always n op → op.isPhi = false → (∀ r, simplify? r op = none) →
      ∃ n', σ (.reg n) = .reg n' ∧ b.Always n' op) : (b.mapOperands σ).Bounded f := by
  intro x' hx' i' hi' base' v' hop'
  obtain ⟨x, hx, hid, i, hi, base, v, hop, rfl, rfl⟩ := elementPtr_mapOperands hx' hi' hop'
  obtain ⟨elem, len, hty, hplaces⟩ := hbounded x hx i hi base v hop
  refine ⟨elem, len, (htype base).trans hty, ?_⟩
  rw [hid]
  rcases hplaces with hwithin | ⟨h, c, incoming, n, hcounts, rfl, hmem⟩
  · exact .inl (within_map hσ hwithin)
  have hc := hcounter _ _ _ _ _ _ hcounts hmem
  -- each next count makes way for one that climbs as well
  have hnext : ∀ n u, b.Climbs len h c n u →
      ∃ n', σ (.reg n) = .reg n' ∧ (b.mapOperands σ).Climbs len h c n' u := by
    intro n u hclimbs
    obtain ⟨z, htest, hz⟩ := hclimbs.test
    obtain ⟨n', hn, hn'⟩ := hplain n _ hclimbs.next rfl fun _ => rfl
    obtain ⟨z', hz', htest'⟩ := hplain z _ htest rfl fun _ => rfl
    exact ⟨n', hn, climbs_mapOperands hσ hclimbs hc hn hn' hz' htest' hz⟩
  obtain ⟨n', hn, _⟩ := hnext n x.id (hcounts.climbs hmem)
  refine .inr ⟨h, c, incoming.map fun e => (σ e.1, e.2), n', ⟨hcounts.positive, ?_, ?_⟩, hn,
    List.mem_map_of_mem hmem⟩
  · obtain ⟨y, hy, hyid, j, hj, hres, hphi⟩ := hcounts.home
    exact ⟨_, List.mem_map_of_mem hy, hyid, _, List.mem_map_of_mem hj, hres,
      by simp [Instr.mapOperands, hphi, Op.mapOperands]⟩
  · intro e' he'
    obtain ⟨e, he, rfl⟩ := List.mem_map.mp he'
    rcases hcounts.edges e he with hzero | ⟨q, hq, hclimbs⟩
    · exact .inl (by simp only [hzero, hσ])
    · obtain ⟨q', hq', hclimbs'⟩ := hnext q e.2 hclimbs
      exact .inr ⟨q', by simp only [hq, hq'], hclimbs'⟩

/-- Values that are neither constants nor registers make no difference. -/
theorem bounded_mapOperands_of_reg {σ : Value → Value} (hbounded : b.Bounded f)
    (hσ : ∀ k, σ (.const k) = .const k) (hreg : ∀ r, σ (.reg r) = .reg r)
    (htype : ∀ v, f.typeOf (σ v) = f.typeOf v) : (b.mapOperands σ).Bounded f :=
  bounded_mapOperands hbounded hσ htype (fun _ _ c _ _ _ _ _ => hreg c)
    fun n _ halways _ _ => ⟨n, hreg n, halways⟩

end Substituting

section Dropping

variable {p : Instr → Bool}

theorem climbs_filterInstrs (hclimbs : b.Climbs len h c n u) :
    (b.filterInstrs p).Climbs len h c n u := by
  refine climbs_of hclimbs (fun _ _ _ halways => halways.filterInstrs)
    (fun _ hz => hz.entered.filterInstrs.if) ?_
  · intro p' hp' hid
    obtain ⟨q, hq, rfl⟩ := List.mem_map.mp hp'
    exact ⟨q, hq, hid, fun hterm => hterm⟩

/-- Where the next count is used, the counter is used to compute it. -/
theorem counter_used (hb : b.Regular f m) (hx : x ∈ b.blocks) (hi : i ∈ x.instrs)
    (hplain : i.op.isPhi = false) (huse : .reg n ∈ i.op.operands)
    (hnext : b.Always n (.binary .add (.reg c) (.int 1))) : c ∈ b.uses := by
  obtain ⟨done, rest, hsplit⟩ := List.append_of_mem hi
  obtain ⟨hres, _⟩ := (hb.valid.uses x hx).plain done i rest hsplit hplain n huse
  obtain ⟨y, hy, hn⟩ := Body.mem_results.mp hres
  obtain ⟨before, j, after, hdef⟩ := Body.exists_defines hy hn
  refine Body.mem_uses.mpr ⟨y, hy, .inl ⟨j, by simp [hdef.split], ?_⟩⟩
  rw [hnext.of_defines hdef]
  simp [Op.operands]

theorem bounded_filterInstrs (hbounded : b.Bounded f) (hb : b.Regular f m)
    (hp : b.DropsUnused p) : (b.filterInstrs p).Bounded f := by
  intro x' hx' i hi base v hop
  obtain ⟨x, hx, rfl⟩ := List.mem_map.mp hx'
  have hi := (List.mem_filter.mp hi).1
  obtain ⟨elem, len, hty, hplaces⟩ := hbounded x hx i hi base v hop
  refine ⟨elem, len, hty, ?_⟩
  rcases hplaces with hwithin | ⟨h, c, incoming, n, hcounts, rfl, hmem⟩
  · exact .inl hwithin
  refine .inr ⟨h, c, incoming, n, counts_of hcounts ?_ ?_, rfl, hmem⟩
  · obtain ⟨y, hy, hyid, j, hj, hres, hphi⟩ := hcounts.home
    have hkept : p j = true := by
      by_contra hdropped
      obtain ⟨r, hr, hunused⟩ := hp y hy j hj (by simpa using hdropped)
      obtain rfl : c = r := Option.some.inj (hres.symm.trans hr)
      exact hunused (counter_used hb hx hi (by simp [hop, Op.isPhi]) (by simp [hop, Op.operands])
        (hcounts.climbs hmem).next)
    exact ⟨_, List.mem_map_of_mem hy, hyid, j, List.mem_filter.mpr ⟨hj, hkept⟩, hres, hphi⟩
  · exact fun e he => .inr ⟨he, fun n hclimbs => climbs_filterInstrs hclimbs⟩

/-- Known values keep indices within arrays. -/
theorem bounded_substitute (hbounded : b.Bounded f) (hb : b.Regular f m)
    (hdef : b.Defines x done i rest r) (hknown : Known b x done i r v) :
    (b.substitute r v).Bounded f := by
  have hstands := hknown.standsFor hb hdef
  have hadmits := hstands.admits hb hdef
  have hunused := Body.not_mem_uses_replaceUses (b := b) (hstands.ne hb.valid.unique hdef)
  refine bounded_filterInstrs (m := m) ?_ (hb.mapOperands (hadmits.valid hb.valid))
    (Body.dropsUnused_definition hunused)
  refine bounded_mapOperands hbounded (replace_const r v) hadmits.type ?_ ?_
  · intro len h c incoming n u hcounts hmem
    by_cases hr : c = r
    · subst hr
      obtain ⟨y, before, j, after, hdef', _, hop⟩ := exists_defines_counter hcounts
      obtain ⟨rfl, rfl, rfl, rfl⟩ := hdef.unique hb.valid.unique hdef'
      exact absurd hknown (counter_not_known hb hdef hop (hcounts.climbs hmem).next hmem)
    · simp [Value.replace, hr]
  · exact fun n op halways hplain hfold => replace_always hb hdef hknown halways hplain hfold

end Dropping

section Pruning

variable {keep : BlockId → Bool} {live : BlockId → BlockId → Bool} {τ : Terminator → Terminator}

theorem climbs_pruned (hclimbs : b.Climbs len h c n u)
    (hentry : (b.pruned keep live τ).entry = b.entry)
    (hsucc : ∀ t, ∀ s ∈ (τ t).successors, s ∈ t.successors) (hbr : ∀ s, τ (.br s) = .br s)
    (hτ : ∀ z s e, τ (.condBr (.reg z) s e) = .condBr (.reg z) s e) :
    (b.pruned keep live τ).Climbs len h c n u := by
  refine climbs_of hclimbs (fun _ _ hplain halways => halways.pruned hplain)
    (fun z hz => (hz.entered.pruned hentry hsucc fun o _ _ => hτ z u o).if) ?_
  · intro q' hq' hid
    obtain ⟨q, hq, _, rfl⟩ := Body.mem_blocks_pruned.mp hq'
    exact ⟨q, hq, hid, fun hterm => by simp [Block.pruned, hterm, hbr]⟩

/-- A block that uses the next count leads to the counter, which stays with the edge from there. -/
theorem bounded_pruned (hbounded : b.Bounded f) (hprunes : b.Prunes f keep live τ)
    (hids : b.ids.Nodup) (hne : b.blocks ≠ [])
    (hsucc : ∀ t, ∀ s ∈ (τ t).successors, s ∈ t.successors) (hbr : ∀ s, τ (.br s) = .br s)
    (hτ : ∀ z s e, τ (.condBr (.reg z) s e) = .condBr (.reg z) s e) :
    (b.pruned keep live τ).Bounded f := by
  intro x' hx' i' hi' base v hop
  obtain ⟨x, hx, hkeep, rfl⟩ := Body.mem_blocks_pruned.mp hx'
  obtain ⟨i, hi, rfl⟩ := List.mem_map.mp hi'
  have hold := (Instr.op_mapIncoming (hop ▸ rfl)).symm.trans hop
  obtain ⟨elem, len, hty, hplaces⟩ := hbounded x hx i hi base v hold
  refine ⟨elem, len, hty, ?_⟩
  rcases hplaces with hwithin | ⟨h, c, incoming, n, hcounts, rfl, hmem⟩
  · exact .inl hwithin
  have hterm := (hcounts.climbs hmem).leaves x hx rfl
  have hback : h ∈ (τ (.br h)).successors := by simp [hbr, Terminator.successors]
  have hkept : keep h := (hprunes.targets x hx hkeep _ hterm h hback).2
  have hleads : b.Leads x.id h :=
    ⟨x, hx, rfl, (Block.mem_targets_of_term hterm).mpr (by simp [Terminator.successors])⟩
  have hlive : live x.id h :=
    (hprunes.live _ _ hleads hkept).mpr ((Body.leads_pruned hids hx hkeep hterm).mpr hback)
  refine .inr ⟨h, c, incoming.filter fun e => live e.2 h, n, counts_of hcounts ?_ ?_, rfl,
    List.mem_filter.mpr ⟨hmem, hlive⟩⟩
  · obtain ⟨y, hy, rfl, j, hj, hres, hphi⟩ := hcounts.home
    exact ⟨_, Body.mem_blocks_pruned.mpr ⟨y, hy, hkept, rfl⟩, rfl, _, List.mem_map_of_mem hj, hres,
      by simp [Instr.mapIncoming, hphi, Op.mapIncoming]⟩
  · exact fun e he => .inr ⟨(List.mem_filter.mp he).1,
      fun n hclimbs => climbs_pruned hclimbs (hprunes.entry_eq hne) hsucc hbr hτ⟩

theorem bounded_prune (hbounded : b.Bounded f) (hb : b.Regular f m) :
    (removeUnreachable (foldBranches b).1).1.Bounded f := by
  refine prune_induction (Q := Body.Bounded f) hb hbounded fun hτ hids hne hprunes hc => ?_
  rcases hτ with rfl | rfl
  · exact bounded_pruned hc hprunes hids hne (fun t s hs => successors_foldTerminator hs)
      (fun _ => rfl) fun _ _ _ => rfl
  · exact bounded_pruned hc hprunes hids hne (fun _ _ hs => hs) (fun _ => rfl) fun _ _ _ => rfl

end Pruning

section Joining

theorem climbs_joined (hclimbs : b.Climbs len h c n u) (hfollow : b.Follow x y)
    (hb : b.Regular f m) (hne : h ≠ y.id) : (b.joined x y).Climbs len h c n u := by
  refine climbs_of hclimbs (fun _ _ hplain halways => halways.joined hplain hfollow.second)
    (fun _ hz => (hz.entered.joined hfollow).if) ?_
  · intro q' hq' hid
    obtain ⟨q, hq, _, rfl⟩ := Body.mem_blocks_joined.mp hq'
    rw [Block.id_joined] at hid
    refine ⟨q, hq, hid, fun hterm => ?_⟩
    -- the block before the joined one goes there, and not to where the loop begins
    have hother : q.id ≠ x.id := by
      intro heq
      obtain rfl := Body.eq_of_id_eq hb.ids hq hfollow.first heq
      rw [hfollow.term] at hterm
      exact hne (Terminator.br.inj (Option.some.inj hterm)).symm
    rw [Block.term_joined, if_neg hother]
    exact hterm

theorem bounded_joined (hbounded : b.Bounded f) (hb : b.Regular f m) (hfollow : b.Follow x y) :
    (b.joined x y).Bounded f := by
  have hplain : ∀ {w}, ¬ b.EnteredIf w y.id := fun hy =>
    hy.entered.not_follow (by simp) hfollow
  intro q' hq' i' hi' base v hop
  rcases Body.mem_instrs_joined hq' hi' with ⟨q, hq, hid, i, hi, F, rfl⟩ | hi'
  · rw [← hid]
    have hold := (Instr.op_mapIncoming (hop ▸ rfl)).symm.trans hop
    obtain ⟨elem, len, hty, hplaces⟩ := hbounded q hq i hi base v hold
    refine ⟨elem, len, hty, ?_⟩
    rcases hplaces with hwithin | ⟨h, c, incoming, n, hcounts, rfl, hmem⟩
    · exact .inl hwithin
    obtain ⟨z, hz, rfl, j, hj, hres, hphi⟩ := hcounts.home
    have hne : z.id ≠ y.id := by
      intro heq
      obtain rfl := Body.eq_of_id_eq hb.ids hz hfollow.second heq
      simpa [hphi, Op.isPhi] using hfollow.plain j hj
    have hsource : ∀ n u, b.Climbs len z.id c n u → u ≠ y.id := by
      rintro n _ hclimbs rfl
      obtain ⟨_, _, hentered⟩ := hclimbs.test
      exact hplain hentered
    refine .inr ⟨z.id, c, renamedSource y.id x.id incoming, n, counts_of hcounts ?_ ?_, rfl, ?_⟩
    · refine ⟨_, Body.mem_blocks_joined.mpr ⟨z, hz, hne, rfl⟩, Block.id_joined,
        j.mapIncoming (renamedSource y.id x.id), ?_, hres, ?_⟩
      · rw [Block.instrs_joined]
        exact List.mem_append_left _ (List.mem_map_of_mem hj)
      · simp [Instr.mapIncoming, hphi, Op.mapIncoming]
    · intro e' he'
      obtain ⟨e, he, rfl⟩ := List.mem_map.mp he'
      rcases hcounts.edges e he with hzero | ⟨k, hk, hclimbs⟩
      · left
        split <;> exact hzero
      · rw [if_neg (hsource k e.2 hclimbs)]
        exact .inr ⟨he, fun n hclimbs => climbs_joined hclimbs hfollow hb hne⟩
    · refine List.mem_map.mpr ⟨_, hmem, ?_⟩
      rw [if_neg (hsource n q.id (hcounts.climbs hmem))]
  · obtain ⟨elem, len, hty, hplaces⟩ := hbounded y hfollow.second i' hi' base v hop
    refine ⟨elem, len, hty, ?_⟩
    rcases hplaces with hwithin | ⟨h, c, incoming, n, hcounts, rfl, hmem⟩
    · exact .inl hwithin
    · obtain ⟨_, _, hentered⟩ := (hcounts.climbs hmem).test
      exact absurd hentered hplain

end Joining

/-- Every rewrite keeps indices within arrays. -/
theorem Rewrite.bounded (h : Rewrite b b') (hb : b.Regular f m) (hbounded : b.Bounded f) :
    b'.Bounded f := by
  cases h with
  | substitute hdef hknown => exact bounded_substitute hbounded hb hdef hknown
  | drop hunused _ => exact bounded_filterInstrs hbounded hb hunused
  | prune => exact bounded_prune hbounded hb
  | join hfollow => exact bounded_joined hbounded hb hfollow

theorem Rewrites.bounded (h : Rewrites b b') (hb : b.Regular f m) (hbounded : b.Bounded f) :
    b'.Regular f m ∧ b'.Bounded f := by
  induction h with
  | refl => exact ⟨hb, hbounded⟩
  | tail _ hstep ih => exact ⟨hstep.regular ih.1, hstep.bounded ih.1 ih.2⟩

end SsaCompiler.Optimize
