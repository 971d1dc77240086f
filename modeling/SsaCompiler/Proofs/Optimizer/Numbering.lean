import SsaCompiler.Proofs.Optimizer.Thinning

/-!
Numbering values is complete. It comes to an end, and then no computation repeats one that control has
passed before it. What it took away were repetitions: each of them computes, with the operands as they
are in the end, what a computation that stays computes before it.

The search looks at one list of computations in reverse postorder. That it misses no pair rests on the
order: a block never stands behind one that it dominates.
-/
namespace SsaCompiler.Ir

open Optimize

/-- Two instructions that are not the same computation. -/
def Instr.Differs (i j : Instr) : Prop :=
  i.result.isSome → j.result.isSome → isNumberable i.op → i.op ≠ j.op

namespace Body

/-- No computation repeats one that control has passed before it, higher up in its block or in another
block that dominates it. Of blocks that control cannot get to this says nothing. -/
structure Numbered (b : Body) : Prop where
  inside : ∀ x ∈ b.blocks, b.Reaches x.id → x.instrs.Pairwise Instr.Differs
  across : ∀ x ∈ b.blocks, ∀ y ∈ b.blocks, b.Reaches y.id → x.id ≠ y.id → b.Dominates x.id y.id →
    ∀ i ∈ x.instrs, ∀ j ∈ y.instrs, i.Differs j

/-- With `σ` applied to operands, the instruction that defines `r` computes what the one that defines `q`
computes, and control has passed that one before. -/
def Repeats (b : Body) (σ : Value → Value) (r q : Reg) : Prop :=
  ∃ x done i rest y before j after, b.Defines x done i rest r ∧ b.Defines y before j after q ∧
    isNumberable i.op ∧ j.op.mapOperands σ = i.op.mapOperands σ ∧ b.Reaches x.id ∧
    b.AvailIn x.id done q

variable {b : Body} {y : Block} {i : Instr} {done rest : List Instr} {q r s : Reg}
  {σ τ : Value → Value} {gone : Reg → Bool}

theorem Repeats.comp (h : b.Repeats σ r q) (τ : Value → Value) : b.Repeats (τ ∘ σ) r q := by
  obtain ⟨x, done, i, rest, y, before, j, after, hdef, hdef', hnum, hop, hrest⟩ := h
  refine ⟨x, done, i, rest, y, before, j, after, hdef, hdef', hnum, ?_, hrest⟩
  rw [← Op.mapOperands_mapOperands, hop, Op.mapOperands_mapOperands]

theorem Repeats.trans (hu : b.results.Nodup) (h : b.Repeats σ s r) (h' : b.Repeats σ r q) :
    b.Repeats σ s q := by
  obtain ⟨x, done, i, rest, y, before, j, after, hdef, hdefr, hnum, hop, hreach, havail⟩ := h
  obtain ⟨y', before', j', after', z, done', k, rest', hdefr', hdefq, _, hop', _, havail'⟩ := h'
  obtain ⟨rfl, rfl, rfl, rfl⟩ := hdefr.unique hu hdefr'
  exact ⟨x, done, i, rest, z, done', k, rest', hdef, hdefq, hnum, hop'.trans hop, hreach,
    hdefr.avail_trans hu havail' hdef.mem hreach hdef.split havail⟩

theorem Repeats.ne (hu : b.results.Nodup) (h : b.Repeats σ r q) : q ≠ r := by
  obtain ⟨x, done, i, rest, _, _, _, _, hdef, _, _, _, _, havail⟩ := h
  rintro rfl
  exact hdef.not_avail_self hu havail

/-- A definition in a thinned body comes from one with more instructions before it. -/
theorem Defines.of_thinned (h : (b.thinned σ gone).Defines y done i rest r) :
    ∃ x done' j rest', b.Defines x done' j rest' r ∧ x.id = y.id ∧ i = j.mapOperands σ ∧
      j.stays gone ∧ ∀ q ∈ definedBy done, q ∈ definedBy done' := by
  obtain ⟨x, hx, hid, hinstrs⟩ := mem_blocks_thinned h.mem
  obtain ⟨front, back, hfilter, rfl, hback⟩ := List.map_eq_append_iff.mp (hinstrs.symm.trans h.split)
  obtain ⟨j, tail, rfl, rfl, _⟩ := List.map_eq_cons_iff.mp hback
  obtain ⟨l, l', hsplit, hl, hl'⟩ := List.filter_eq_append_iff.mp hfilter
  obtain ⟨mid, rest', rfl, _, hstays, _⟩ := List.filter_eq_cons_iff.mp hl'
  refine ⟨x, l ++ mid, j, rest', ⟨hx, by simp [hsplit], h.result⟩, hid.symm, rfl, hstays, ?_⟩
  intro q hq
  rw [definedBy_map_mapOperands, ← hl] at hq
  exact definedBy_subset (fun k hk => List.mem_append_left _ (List.mem_filter.mp hk).1) hq

theorem AvailIn.of_thinned {place : BlockId} {done' : List Instr}
    (h : (b.thinned σ gone).AvailIn place done q)
    (hdone : q ∈ definedBy done → q ∈ definedBy done') : b.AvailIn place done' q := by
  rcases h with hq | ⟨z, hz, hq, hne, hdom⟩
  · exact .inl (hdone hq)
  · obtain ⟨x, hx, hid, hinstrs⟩ := mem_blocks_thinned hz
    rw [hinstrs, definedBy_map_mapOperands] at hq
    rw [(sameFlow_thinned σ gone b).dominates] at hdom
    exact .inr ⟨x, hx, definedBy_subset (fun k hk => (List.mem_filter.mp hk).1) hq, hid ▸ hne,
      hid ▸ hdom⟩

end Body

end SsaCompiler.Ir

namespace SsaCompiler.Optimize

open Ir

variable {b c : Body} {σ : Value → Value} {gone : Reg → Bool}

section Search

variable {doms : List (BlockId × List BlockId)} {earlier cs : List Computation}

/-- Where nothing is found, no computation repeats one before it in the list. -/
theorem repeated?_eq_none (h : repeated? doms earlier cs = none) :
    (∀ e ∈ earlier, ∀ c ∈ cs, e.op = c.op → e.block ∉ (doms.lookup c.block).getD []) ∧
      cs.Pairwise fun e c => e.op = c.op → e.block ∉ (doms.lookup c.block).getD [] := by
  induction cs generalizing earlier with
  | nil => simp
  | cons c cs ih =>
    unfold repeated? at h
    dsimp only at h
    split at h
    · cases h
    · next hfind =>
      have hfirst : ∀ e ∈ earlier, e.op = c.op → e.block ∉ (doms.lookup c.block).getD [] := by
        simpa using hfind
      obtain ⟨hbefore, hlater⟩ := ih h
      refine ⟨fun e he => List.forall_mem_cons.mpr ⟨hfirst e he, hbefore e (by simp [he])⟩, ?_⟩
      exact List.pairwise_cons.mpr ⟨hbefore c (by simp), hlater⟩

theorem mem_dominators_getD {u v : BlockId} (hv : v ∈ b.ids) (hreach : b.Reaches v) (hu : u ∈ b.ids)
    (hdom : b.Dominates u v) : u ∈ ((FlowGraph.ofBody b).dominators.lookup v).getD [] := by
  obtain ⟨row, hrow⟩ := Option.isSome_iff_exists.mp
    (FlowGraph.lookup_dominators_ofBody.mpr ⟨hv, hreach⟩)
  rw [hrow]
  exact (FlowGraph.mem_dominators_ofBody hrow u).mpr ⟨hu, hdom⟩

/-- Where nothing is found, nothing is repeated. -/
theorem numbered_of_none (hb : b.ids.Nodup) (h : mergeFirst? b = none) : b.Numbered := by
  have hnone : repeated? (FlowGraph.ofBody b).dominators []
      (computations b (FlowGraph.ofBody b).reversePostorder) = none := by
    simpa [mergeFirst?, mergeRepeated?] using h
  have hpairs := (repeated?_eq_none hnone).2
  obtain ⟨hinside, hacross⟩ := List.pairwise_flatMap.mp hpairs
  have horder : ∀ {v}, b.Reaches v → v ∈ (FlowGraph.ofBody b).reversePostorder := by
    intro v hv
    rw [FlowGraph.mem_reversePostorder, FlowGraph.leads_ofBody_eq]
    exact hv
  have hcomputes : ∀ {i : Instr} (id : BlockId), i.result.isSome → isNumberable i.op →
      ∃ r, computation? id i = some ⟨id, i.op, r⟩ := by
    intro i id hres hnum
    obtain ⟨r, hr⟩ := Option.isSome_iff_exists.mp hres
    exact ⟨r, computation?_eq_some.mpr ⟨hnum, rfl, rfl, hr⟩⟩
  have hlist : ∀ x ∈ b.blocks, (b.block? x.id).elim [] (·.instrs) = x.instrs := by
    intro x hx
    rw [Body.block?_of_mem hb hx, Option.elim_some]
  refine ⟨fun x hx hreach => ?_, fun x hx y hy hreach hne hdom i hi j hj hresi hresj hnum heq => ?_⟩
  · have hall := hinside x.id (horder hreach)
    rw [hlist x hx, List.pairwise_filterMap] at hall
    refine hall.imp fun {i j} hij hresi hresj hnum heq => ?_
    obtain ⟨r, hi⟩ := hcomputes x.id hresi hnum
    obtain ⟨q, hj⟩ := hcomputes x.id hresj (heq ▸ hnum)
    have hid := Body.id_mem_ids hx
    exact hij _ hi _ hj heq (mem_dominators_getD hid hreach hid (.refl b x.id))
  · have hbefore : [x.id, y.id].Sublist (FlowGraph.ofBody b).reversePostorder := by
      refine FlowGraph.before_of_dom ?_ ?_ hne
      · rw [FlowGraph.leads_ofBody_eq]
        exact hdom
      · rw [FlowGraph.leads_ofBody_eq]
        exact hreach
    have hpair := List.pairwise_iff_forall_sublist.mp hacross hbefore
    rw [hlist x hx, hlist y hy] at hpair
    obtain ⟨r, hri⟩ := hcomputes x.id hresi hnum
    obtain ⟨q, hqj⟩ := hcomputes y.id hresj (heq ▸ hnum)
    exact hpair _ (List.mem_filterMap.mpr ⟨i, hi, hri⟩) _ (List.mem_filterMap.mpr ⟨j, hj, hqj⟩) heq
      (mem_dominators_getD (Body.id_mem_ids hy) hreach (Body.id_mem_ids hx) hdom)

end Search

/-- `c` is what merging has made of `b` so far. -/
structure Merging (b : Body) (σ : Value → Value) (gone : Reg → Bool) (c : Body) : Prop where
  eq : c = b.thinned σ gone
  /-- Only registers whose definitions are gone are replaced. -/
  fixed : ∀ v, σ v ≠ v → ∃ r, v = .reg r ∧ gone r = true
  /-- A register whose definition is gone repeats the register that stands for it. -/
  merged : ∀ r, gone r = true → ∃ q, σ (.reg r) = .reg q ∧ gone q = false ∧ b.Repeats σ r q

theorem Merging.refl (b : Body) : Merging b (fun v => v) (fun _ => false) b :=
  ⟨b.thinned_none.symm, fun _ hne => absurd rfl hne, fun _ hgone => by cases hgone⟩

theorem mergeFirst?_thinned (hb : b.ids.Nodup) (h : mergeFirst? (b.thinned σ gone) = some c) :
    ∃ r q, b.Repeats σ r q ∧ gone r = false ∧ gone q = false ∧
      c = (b.thinned σ gone).substitute r (.reg q) := by
  have hstays : ∀ {i : Instr} {r}, i.stays gone → isNumberable i.op → i.result = some r →
      gone r = false := by
    intro i r hi hnum hr
    simpa [Instr.stays, isNumberable_pure hnum, hr] using hi
  have hids : (b.thinned σ gone).ids.Nodup := (Body.sameFlow_thinned σ gone b).ids ▸ hb
  obtain ⟨x', done', i', _, r, y', before', j', _, q, hdef, hdef', hnum, hop, hreach, havail, rfl⟩ :=
    mergeFirst?_eq_some hids h
  obtain ⟨x, done, i, rest, hdefi, hid, rfl, hi, hdone⟩ := hdef.of_thinned
  obtain ⟨y, before, j, after, hdefj, _, rfl, hj, _⟩ := hdef'.of_thinned
  have hnumi : isNumberable i.op := by simpa [Instr.mapOperands] using hnum
  have hnumj : isNumberable j.op := by
    rw [← hop] at hnum
    simpa [Instr.mapOperands] using hnum
  rw [← hid, (Body.sameFlow_thinned σ gone b).reaches] at hreach
  refine ⟨r, q, ⟨x, done, i, rest, y, before, j, after, hdefi, hdefj, hnumi, hop, hreach, ?_⟩,
    hstays hi hnumi hdefi.result, hstays hj hnumj hdefj.result, rfl⟩
  exact (hid ▸ havail).of_thinned (hdone q)

theorem Merging.step (hb : b.ids.Nodup) (hu : b.results.Nodup) (h : Merging b σ gone c) {c' : Body}
    (hstep : mergeFirst? c = some c') : ∃ σ' gone', Merging b σ' gone' c' := by
  obtain ⟨rfl, hfixed, hmerged⟩ := h
  obtain ⟨r, q, hrep, hr, hq, rfl⟩ := mergeFirst?_thinned hb hstep
  have hpure : ∀ x ∈ b.blocks, ∀ i ∈ x.instrs, i.result = some r → i.op.isPure := by
    obtain ⟨x, done, i, rest, _, _, _, _, hdef, _, hnum, _⟩ := hrep
    intro y hy j hj hres
    rw [Body.eq_of_result hu hy hj hdef.mem (hdef.split ▸ by simp) hres hdef.result]
    exact isNumberable_pure hnum
  have hrfixed : σ (.reg r) = .reg r := by
    by_contra hne
    obtain ⟨s, hs, hgone⟩ := hfixed _ hne
    rw [← Value.reg.inj hs, hr] at hgone
    cases hgone
  have hqstays : (gone q || decide (q = r)) = false := by simp [hq, hrep.ne hu]
  refine ⟨_, _, Body.thinned_substitute hpure, fun v hne => ?_, fun s hs => ?_⟩
  · rcases Value.changed_of_replace hne with rfl | hold
    · exact ⟨r, rfl, by simp⟩
    · obtain ⟨s, rfl, hgone⟩ := hfixed v hold
      exact ⟨s, rfl, by simp [hgone]⟩
  · by_cases hsr : s = r
    · subst hsr
      exact ⟨q, by simp [Value.replace, hrfixed], hqstays, hrep.comp _⟩
    · obtain ⟨p, hp, hpstays, hrep'⟩ := hmerged s (by simpa [hsr] using hs)
      -- the register that stood for `s` may be the one that is merged now
      by_cases hpr : p = r
      · subst hpr
        exact ⟨q, by simp [Value.replace, hp], hqstays, (hrep'.trans hu hrep).comp _⟩
      · exact ⟨p, by simp [Value.replace, hp, hpr], by simp [hpstays, hpr], hrep'.comp _⟩

/-- Numbering values comes to an end. Nothing is repeated then, and all that is gone was. -/
theorem numberValues_complete (b : Body) (hb : b.ids.Nodup) (hu : b.results.Nodup) :
    Settles (roundOf mergeFirst?) b (numberValues b) ∧ (numberValues b).Numbered ∧
      ∃ σ gone, numberValues b = b.thinned σ gone ∧
        (∀ v, σ v ≠ v → ∃ r, v = .reg r ∧ gone r = true) ∧
        ∀ r, gone r = true → ∃ q, σ (.reg r) = .reg q ∧ gone q = false ∧ b.Repeats σ r q := by
  let Reached : Body → Prop := fun c => ∃ σ gone, Merging b σ gone c
  have hkeeps : ∀ a a', Reached a → mergeFirst? a = some a' → Reached a' :=
    fun _ _ ⟨_, _, h⟩ hstep => h.step hb hu hstep
  have hstart : Reached b := ⟨_, _, .refl b⟩
  have hids : ∀ a, Reached a → a.ids.Nodup := by
    rintro a ⟨σ, gone, h⟩
    rw [h.eq, (Body.sameFlow_thinned σ gone b).ids]
    exact hb
  rw [numberValues_eq]
  have hsettles := roundOf_settles Body.instrCount hkeeps (fun a a' ha hstep => ?_) hstart
  · have hend := untilStable_keeps (fun a ha => roundOf_keeps hkeeps ha) hstart (b.instrCount + 1)
    obtain ⟨σ, gone, h⟩ := id hend
    exact ⟨hsettles, numbered_of_none (hids _ hend) hsettles.step_eq_none, σ, gone, h.eq, h.fixed,
      h.merged⟩
  · obtain ⟨x, done, i, rest, r, _, _, _, _, q, hdef, _, _, _, _, _, rfl⟩ :=
      mergeFirst?_eq_some (hids a ha) hstep
    exact (substitute_lt hdef.mem (hdef.split ▸ by simp) hdef.result _).1

/-- A loop that computes a square anew in every round. Once the square is the one from the entry, the two
sums in the round are the same. -/
def squares : Body where
  blocks := [⟨0, "entry", [⟨some 0, .i64, .binary .mul (.param 0) (.param 0)⟩], some (.br 1)⟩,
    ⟨1, "head", [⟨some 1, .i64, .phi [(.int 0, 0), (.reg 6, 2)]⟩,
      ⟨some 2, .i64, .binary .mul (.param 0) (.param 0)⟩,
      ⟨some 3, .i1, .icmp .slt (.reg 1) (.reg 2)⟩], some (.condBr (.reg 3) 2 3)⟩,
    ⟨2, "round", [⟨some 4, .i64, .binary .add (.reg 1) (.reg 0)⟩,
      ⟨some 5, .i64, .binary .add (.reg 1) (.reg 2)⟩,
      ⟨some 6, .i64, .call "step" [.reg 4, .reg 5]⟩], some (.br 1)⟩,
    ⟨3, "end", [], some (.ret (some (.reg 2)))⟩]
  regTypes := [.i64, .i64, .i64, .i1, .i64, .i64, .i64]
  nextBlock := 4

theorem squares_complete : squares.ids.Nodup ∧ squares.results.Nodup ∧
    (numberValues squares).blocks =
      [⟨0, "entry", [⟨some 0, .i64, .binary .mul (.param 0) (.param 0)⟩], some (.br 1)⟩,
        ⟨1, "head", [⟨some 1, .i64, .phi [(.int 0, 0), (.reg 6, 2)]⟩,
          ⟨some 3, .i1, .icmp .slt (.reg 1) (.reg 0)⟩], some (.condBr (.reg 3) 2 3)⟩,
        ⟨2, "round", [⟨some 4, .i64, .binary .add (.reg 1) (.reg 0)⟩,
          ⟨some 6, .i64, .call "step" [.reg 4, .reg 4]⟩], some (.br 1)⟩,
        ⟨3, "end", [], some (.ret (some (.reg 0)))⟩] ∧
    Settles (roundOf mergeFirst?) squares (numberValues squares) ∧ (numberValues squares).Numbered := by
  have hids : squares.ids.Nodup := by decide
  have hresults : squares.results.Nodup := by decide
  have hall := numberValues_complete squares hids hresults
  exact ⟨hids, hresults, by decide, hall.1, hall.2.1⟩

end SsaCompiler.Optimize
