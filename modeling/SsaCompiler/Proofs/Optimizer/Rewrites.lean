import SsaCompiler.Optimize.Combine
import SsaCompiler.Optimize.Number
import SsaCompiler.Proofs.Optimizer.Joining

/-!
The rewrites that all passes are made of. There are four: putting a known value in the place of a
definition, dropping pure instructions that nothing uses, pruning, and joining two blocks. Each of
them keeps a body regular.
-/
namespace SsaCompiler.Optimize

open Ir

/-- Why the instruction `i` behind `done` in `x`, which defines `r`, is known to give `v`. -/
inductive Known (b : Body) (x : Block) (done : List Instr) (i : Instr) (r : Reg) : Value → Prop
  | folded {v : Value} : simplify? r i.op = some v → Known b x done i r v
  | repeated {y : Block} {before after : List Instr} {j : Instr} {q : Reg} :
      isNumberable i.op → b.Defines y before j after q → j.op = i.op →
      b.AvailIn x.id done q → Known b x done i r (.reg q)
  | onlyEdge {v : Value} {source : BlockId} : i.op = .phi [(v, source)] → Known b x done i r v

inductive Rewrite (b : Body) : Body → Prop
  | substitute {x : Block} {done rest : List Instr} {i : Instr} {r : Reg} {v : Value} :
      b.Defines x done i rest r → Known b x done i r v → Rewrite b (b.substitute r v)
  | drop {p : Instr → Bool} : b.DropsUnused p →
      (∀ x ∈ b.blocks, ∀ i ∈ x.instrs, p i = false → i.op.isPure) → Rewrite b (b.filterInstrs p)
  | prune : Rewrite b (removeUnreachable (foldBranches b).1).1
  | join {x y : Block} : b.Follow x y → Rewrite b (b.joined x y)

section Folding

variable {op : BinOp} {l r v : Value}

/-- A folded operation is a constant of its type or one of its operands. -/
theorem foldBinary_cases (h : foldBinary op l r = some v) :
    (∃ c : Constant, v = .const c ∧ c.ty = op.ty) ∨ v = l ∨ v = r := by
  unfold foldBinary at h
  split at h
  · obtain ⟨n, hn, rfl⟩ := Option.map_eq_some_iff.mp h
    refine .inl ⟨.int n, rfl, ?_⟩
    cases op <;> simp [BinOp.onInts?, BinOp.ty, BinOp.isFloat, Constant.ty] at hn ⊢
  · obtain ⟨x, hx, rfl⟩ := Option.map_eq_some_iff.mp h
    refine .inl ⟨.float x, rfl, ?_⟩
    cases op <;> simp [BinOp.onFloats?, BinOp.ty, BinOp.isFloat, Constant.ty] at hx ⊢
  · right
    split at h
    · exact .inl (Option.some.inj h).symm
    · split at h
      · exact .inr (Option.some.inj h).symm
      · split at h
        · exact .inl (Option.some.inj h).symm
        · split at h
          · exact .inr (Option.some.inj h).symm
          · simp at h

theorem foldIcmp_cases {pred : IntPred} (h : foldIcmp pred l r = some v) : ∃ c, v = .bool c := by
  unfold foldIcmp at h
  split at h
  · exact ⟨_, (Option.some.inj h).symm⟩
  · exact ⟨_, (Option.some.inj h).symm⟩
  · obtain ⟨c, _, rfl⟩ := Option.map_eq_some_iff.mp h
    exact ⟨c, rfl⟩
  · simp at h

theorem foldFcmp_cases {pred : FloatPred} (h : foldFcmp pred l r = some v) :
    ∃ c, v = .bool c := by
  unfold foldFcmp at h
  split at h
  · exact ⟨_, (Option.some.inj h).symm⟩
  · simp at h

/-- A folded phi has edges that carry its value, which is no register, or its own result. -/
theorem foldPhi_cases {r : Reg} {incoming : List (Value × BlockId)}
    (h : foldPhi r incoming = some v) :
    (∀ q, v ≠ .reg q) ∧ (∃ e ∈ incoming, e.1 = v) ∧
      ∀ e ∈ incoming, e.1 = v ∨ e.1 = .reg r := by
  unfold foldPhi at h
  split at h
  · simp at h
  · rename_i w ws hws
    split at h
    · rename_i hcond
      obtain ⟨hreg, hall⟩ := hcond
      obtain rfl := Option.some.inj h
      have hmem : w ∈ (incoming.map (·.1)).filter (· ≠ .reg r) := hws ▸ List.mem_cons_self
      obtain ⟨e, he, hew⟩ := List.mem_map.mp (List.mem_filter.mp hmem).1
      refine ⟨?_, ⟨e, he, hew⟩, ?_⟩
      · rintro q rfl
        simp [Value.reg?] at hreg
      · intro e he
        by_cases hself : e.1 = .reg r
        · exact .inr hself
        · have hmem : e.1 ∈ (incoming.map (·.1)).filter (· ≠ .reg r) := by
            simp only [List.mem_filter, ne_eq, hself, not_false_eq_true, decide_true, and_true]
            exact List.mem_map_of_mem he
          rw [hws] at hmem
          rcases List.mem_cons.mp hmem with heq | hmem
          · exact .inl heq
          · exact .inl (hall _ hmem)
    · simp at h

end Folding

variable {b b' : Body} {f : Function} {m : Module} {x : Block} {done rest : List Instr} {i : Instr}
  {r : Reg} {v : Value}

theorem isNumberable_pure {op : Op} (h : isNumberable op) : op.isPure := by
  cases op <;> simp_all [isNumberable, Op.isPure]

theorem simplify?_pure {op : Op} (h : simplify? r op = some v) : op.isPure := by
  cases op <;> simp_all [simplify?, Op.isPure]

theorem Known.pure (h : Known b x done i r v) : i.op.isPure := by
  cases h with
  | folded hsimp => exact simplify?_pure hsimp
  | repeated hnum _ _ _ => exact isNumberable_pure hnum
  | onlyEdge hop => simp [hop, Op.isPure]

/-- The operands of an instruction other than a phi exist and are available before it. -/
theorem operand_standsFor (hb : b.Regular f m) (hdef : b.Defines x done i rest r)
    (hplain : i.op.isPhi = false) (hv : v ∈ i.op.operands) (hty : f.typeOf v = i.ty) :
    b.StandsFor f m x done r v := by
  have hi : i ∈ x.instrs := by simp [hdef.split]
  have hcheck := (hb.valid.shape x hdef.mem).typed i hi
  refine ⟨?_, (Function.checkOp_eq_ok.mp hcheck).1 v hv, ?_⟩
  · rw [hty, (hb.typed x hdef.mem i hi r hdef.result).1]
  · rintro q rfl
    exact ((hb.valid.uses x hdef.mem).plain done i rest hdef.split hplain q hv).2
      (hb.reached x hdef.mem)

theorem const_standsFor (hb : b.Regular f m) (hdef : b.Defines x done i rest r) {c : Constant}
    (hty : c.ty = i.ty) : b.StandsFor f m x done r (.const c) := by
  have hi : i ∈ x.instrs := by simp [hdef.split]
  refine ⟨?_, rfl, fun q hq => ?_⟩
  · rw [(hb.typed x hdef.mem i hi r hdef.result).1]
    exact hty
  · cases hq

/-- What the only edge into a block carries is available at the start of the block. -/
theorem edge_avail (hb : b.Regular f m) (hdef : b.Defines x done i rest r) {source : BlockId}
    {q : Reg} (hop : i.op = .phi [(.reg q, source)]) : b.AvailIn x.id [] q := by
  have hi : i ∈ x.instrs := by simp [hdef.split]
  have hedge : ∀ p, b.Leads p x.id ↔ p = source := by
    intro p
    rw [← ((hb.valid.shape x hdef.mem).edges i hi _ hop).2 p]
    simp
  obtain ⟨y, hy, hq, hdom⟩ := (hb.valid.uses x hdef.mem).phi (hb.reached x hdef.mem) i hi _ hop q
    source (by simp)
  have hentry : b.entry ≠ x.id := by
    intro heq
    exact hb.valid.start source (heq ▸ (hedge source).mpr rfl)
  refine .inr ⟨y, hy, hq, ?_, ?_⟩
  · intro hid
    obtain ⟨u, hu, hpath⟩ := Reach.entered (hb.reached x hdef.mem) hentry
    rw [(hedge u).mp hu] at hpath
    exact hdom (hid ▸ hpath)
  · refine Dom.of_preds hentry fun u hu => ?_
    rw [(hedge u).mp hu]
    exact hdom

theorem edge_standsFor (hb : b.Regular f m) (hdef : b.Defines x done i rest r) {source : BlockId}
    (hop : i.op = .phi [(v, source)]) : b.StandsFor f m x done r v := by
  have hi : i ∈ x.instrs := by simp [hdef.split]
  obtain ⟨hex, htyped⟩ := Function.checkOp_eq_ok.mp ((hb.valid.shape x hdef.mem).typed i hi)
  rw [hop] at hex htyped
  refine ⟨?_, hex v (by simp [Op.operands]), ?_⟩
  · rw [(hb.typed x hdef.mem i hi r hdef.result).1]
    exact htyped (v, source) (by simp)
  · rintro q rfl
    exact (edge_avail hb hdef hop).mono fun _ hi => absurd hi (by simp)

/-- Equal computations have results of one type. -/
theorem ty_eq_of_op_eq {y : Block} {before after : List Instr} {j : Instr} {q : Reg}
    (hb : b.Regular f m) (hdef : b.Defines x done i rest r) (hdef' : b.Defines y before j after q)
    (hnum : isNumberable i.op) (hop : j.op = i.op) : j.ty = i.ty := by
  have hi : i ∈ x.instrs := by simp [hdef.split]
  have hj : j ∈ y.instrs := by simp [hdef'.split]
  have hti := (Function.checkOp_eq_ok.mp ((hb.valid.shape x hdef.mem).typed i hi)).2
  have htj := (Function.checkOp_eq_ok.mp ((hb.valid.shape y hdef'.mem).typed j hj)).2
  have hci := (hb.typed x hdef.mem i hi r hdef.result).2
  have hcj := (hb.typed y hdef'.mem j hj q hdef'.result).2
  rw [hop] at htj hcj
  cases hiop : i.op with
  | binary op l r =>
    rw [hiop] at hti htj
    rw [hti.2.2, htj.2.2]
  | icmp pred l r => rw [hci (by simp [hiop, Op.isCompare]), hcj (by simp [hiop, Op.isCompare])]
  | fcmp pred l r => rw [hci (by simp [hiop, Op.isCompare]), hcj (by simp [hiop, Op.isCompare])]
  | elementPtr base index =>
    rw [hiop] at hti htj
    obtain ⟨elem, n, hbase, _, hty⟩ := hti
    obtain ⟨elem', n', hbase', _, hty'⟩ := htj
    obtain ⟨rfl, _⟩ : elem' = elem ∧ n' = n := by simpa [hbase] using hbase'.symm
    rw [hty, hty']
  | _ => simp [hiop, isNumberable] at hnum

/-- A known value may stand for the definition. -/
theorem Known.standsFor (hb : b.Regular f m) (hdef : b.Defines x done i rest r)
    (h : Known b x done i r v) : b.StandsFor f m x done r v := by
  have hi : i ∈ x.instrs := by simp [hdef.split]
  have hcheck := Function.checkOp_eq_ok.mp ((hb.valid.shape x hdef.mem).typed i hi)
  have htyped := hb.typed x hdef.mem i hi r hdef.result
  cases h with
  | folded hsimp =>
    cases hop : i.op with
    | binary op l r' =>
      rw [hop] at hsimp hcheck
      obtain ⟨hl, hr, hty⟩ := hcheck.2
      rcases foldBinary_cases hsimp with ⟨c, rfl, hc⟩ | rfl | rfl
      · exact const_standsFor hb hdef (hc.trans hty.symm)
      · exact operand_standsFor hb hdef (by simp [hop, Op.isPhi]) (by simp [hop, Op.operands])
          (hl.trans hty.symm)
      · exact operand_standsFor hb hdef (by simp [hop, Op.isPhi]) (by simp [hop, Op.operands])
          (hr.trans hty.symm)
    | icmp pred l r' =>
      rw [hop] at hsimp
      obtain ⟨c, rfl⟩ := foldIcmp_cases hsimp
      exact const_standsFor hb hdef (htyped.2 (by simp [hop, Op.isCompare])).symm
    | fcmp pred l r' =>
      rw [hop] at hsimp
      obtain ⟨c, rfl⟩ := foldFcmp_cases hsimp
      exact const_standsFor hb hdef (htyped.2 (by simp [hop, Op.isCompare])).symm
    | phi incoming =>
      rw [hop] at hsimp hcheck
      obtain ⟨hreg, ⟨e, he, rfl⟩, _⟩ := foldPhi_cases hsimp
      refine ⟨?_, hcheck.1 e.1 (List.mem_map_of_mem he), fun q hq => absurd hq (hreg q)⟩
      rw [htyped.1]
      exact hcheck.2 e he
    | _ => simp [hop, simplify?] at hsimp
  | @repeated y before after j q hnum hdef' hsame havail =>
    have hj : j ∈ y.instrs := by simp [hdef'.split]
    refine ⟨?_, rfl, ?_⟩
    · rw [htyped.1, (hb.typed y hdef'.mem j hj q hdef'.result).1]
      exact ty_eq_of_op_eq hb hdef hdef' hnum hsame
    · rintro q' hq'
      obtain rfl := Value.reg.inj hq'
      exact havail
  | onlyEdge hop => exact edge_standsFor hb hdef hop

/-- Every rewrite keeps a body regular. -/
theorem Rewrite.regular (h : Rewrite b b') (hb : b.Regular f m) : b'.Regular f m := by
  cases h with
  | substitute hdef hknown => exact hb.substitute hdef (hknown.standsFor hb hdef)
  | drop hp _ => exact hb.filterInstrs hp
  | prune => exact regular_removeUnreachable hb
  | join hfollow => exact hfollow.regular hb

end SsaCompiler.Optimize
