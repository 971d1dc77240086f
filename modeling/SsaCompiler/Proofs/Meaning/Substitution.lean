import SsaCompiler.Proofs.Execution.Simulation
import SsaCompiler.Proofs.Optimizer.Rewrites

/-!
Replacing the uses of a register by a value keeps the outcome of runs, if the value is the one of
the register wherever the register is available.
-/
namespace SsaCompiler.Ir

variable {α μ : Type}

/-- A phi behind the top of a block cannot be run. -/
theorem Instr.exec_phi {env : Environment α μ} {ev : Value → Option (Val α)} {w : μ} {i : Instr}
    (h : i.op.isPhi) : i.exec env ev w = none := by
  obtain ⟨incoming, hop⟩ := Op.isPhi_iff.mp h
  simp [exec, hop, Op.value?]

theorem Instr.isPhi_of_exec {env : Environment α μ} {ev : Value → Option (Val α)} {w : μ}
    {i : Instr} {e : Effect α μ} (h : i.exec env ev w = some e) : i.op.isPhi = false := by
  cases hphi : i.op.isPhi with
  | false => rfl
  | true => simp [exec_phi hphi] at h

/-- The run in the body with changed operands. -/
def Config.mapOperands (σ : Value → Value) (c : Config α μ) : Config α μ :=
  { c with block := c.block.mapOperands σ, rest := c.rest.map (Instr.mapOperands σ) }

namespace Config

variable {env : Environment α μ} {b : Body} {args : List (Val α)} {c c' : Config α μ}
  {o : Outcome α μ} {σ : Value → Value}

theorem rest_mapOperands {i : Instr} {rest : List Instr} (h : c.rest = i :: rest) :
    (c.mapOperands σ).rest = i.mapOperands σ :: rest.map (Instr.mapOperands σ) := by
  simp [mapOperands, h]

theorem enter_mapOperands (env : Environment α μ) (args : List (Val α)) (c : Config α μ)
    (y : Block) (σ : Value → Value)
    (h : ∀ i ∈ y.phis, ∀ incoming, i.op = .phi incoming → ∀ v, (v, c.block.id) ∈ incoming →
      c.eval env args (σ v) = c.eval env args v) :
    (c.mapOperands σ).enter env args (y.mapOperands σ) = (c.enter env args y).mapOperands σ := by
  have hphi : ∀ i : Instr, (i.mapOperands σ).op.isPhi = i.op.isPhi :=
    fun i => Op.isPhi_mapOperands σ i.op
  simp only [enter, mapOperands, Config.mk.injEq, true_and, and_true]
  refine ⟨dropWhile_map_phis hphi y.instrs, ?_⟩
  have hphis : (y.mapOperands σ).phis = y.phis.map (Instr.mapOperands σ) :=
    takeWhile_map_phis hphi y.instrs
  rw [hphis]
  exact phiRegs_map (fun _ => rfl) fun i hi => Op.phiValue?_mapOperands (h i hi)

end Config

namespace Body

variable {env : Environment α μ} {b : Body} {args : List (Val α)} {f : Function} {m : Module}
  {x0 : Block} {done0 rest0 : List Instr} {i0 : Instr} {r : Reg} {v : Value}
  {c c' : Config α μ} {done : List Instr} {o : Outcome α μ}

/-- The register has the value of `v`. -/
def Equals (env : Environment α μ) (args : List (Val α)) (r : Reg) (v : Value) (ρ : Regs α) :
    Prop := ρ r = v.eval env args ρ

theorem eval_replace (hc : c.Holds b r (Equals env args r v)) (hat : c.At b done) {u : Value}
    (hu : u = .reg r → b.AvailIn c.block.id done r) :
    c.eval env args (Value.replace r v u) = c.eval env args u := by
  unfold Value.replace
  split
  · rename_i heq
    subst heq
    exact (hc done hat (hu rfl)).symm
  · rfl

theorem step_replaceUses (hb : b.Regular f m) (hat : c.At b done)
    (hc : c.Holds b r (Equals env args r v)) (hstep : c.Step env b args c') :
    (c.mapOperands (Value.replace r v)).Step env (b.replaceUses r v) args
      (c'.mapOperands (Value.replace r v)) := by
  have hreach := hb.reached _ hat.mem
  have huses := hb.valid.uses _ hat.mem
  cases hstep with
  | @instr i rest a w calls regs hrest hexec hwrite =>
    have hplain := huses.plain done i rest (by rw [hat.split, hrest]) (Instr.isPhi_of_exec hexec)
    refine .instr (Config.rest_mapOperands hrest) ?_ hwrite
    refine (Instr.exec_mapOperands (fun u hu => ?_) _).trans hexec
    exact eval_replace hc hat fun heq => (hplain r (heq ▸ hu)).2 hreach
  | @jump t y hrest hterm hgoes hy =>
    obtain ⟨hy, _⟩ := (block?_eq_some hb.ids).mp hy
    have hall : c.At b c.block.instrs := ⟨hat.mem, by simp [hrest]⟩
    have hout : ∀ {u : Value}, (u = .reg r → b.AvailOut c.block.id r) →
        c.eval env args (Value.replace r v u) = c.eval env args u :=
      fun hu => eval_replace hc hall fun heq => (hu heq).inside hb.ids hat.mem
    have henter := Config.enter_mapOperands env args c y (Value.replace r v)
      fun i hi incoming hop u hmem => hout fun heq =>
        (hb.valid.uses y hy).phi (hb.reached y hy) i (List.takeWhile_subset _ hi) incoming hop r _
          (heq ▸ hmem)
    rw [← henter]
    refine .jump (by simp [Config.mapOperands, hrest])
      (by simp [Config.mapOperands, Block.mapOperands, hterm]; rfl) ?_ ?_
    · refine (Terminator.goesTo?_mapOperands fun u hu => ?_).trans hgoes
      exact hout fun heq => huses.term t hterm r (heq ▸ hu)
    · refine (block?_eq_some ?_).mpr ⟨List.mem_map_of_mem hy, rfl⟩
      exact (sameFlow_mapOperands _ b).ids ▸ hb.ids

theorem ends_replaceUses (hb : b.Regular f m) (hat : c.At b done)
    (hc : c.Holds b r (Equals env args r v)) (hends : c.Ends env args o) :
    (c.mapOperands (Value.replace r v)).Ends env args o := by
  have huses := hb.valid.uses _ hat.mem
  cases hends with
  | ret hrest hterm =>
    exact .ret (by simp [Config.mapOperands, hrest])
      (by simp [Config.mapOperands, Block.mapOperands, hterm, Terminator.mapOperands])
  | @retValue u a hrest hterm heval =>
    have hall : c.At b c.block.instrs := ⟨hat.mem, by simp [hrest]⟩
    refine .retValue (v := Value.replace r v u) (by simp [Config.mapOperands, hrest])
      (by simp [Config.mapOperands, Block.mapOperands, hterm, Terminator.mapOperands]) ?_
    refine (eval_replace hc hall fun heq => ?_).trans heval
    exact (huses.term _ hterm r (by simp [Terminator.operands, heq])).inside hb.ids hat.mem
  | @stop i rest w calls hrest hexec =>
    have hplain := huses.plain done i rest (by rw [hat.split, hrest]) (Instr.isPhi_of_exec hexec)
    refine .stop (Config.rest_mapOperands hrest) ?_
    refine (Instr.exec_mapOperands (fun u hu => ?_) _).trans hexec
    exact eval_replace hc hat fun heq => (hplain r (heq ▸ hu)).2 (hb.reached _ hat.mem)

/-- Uses may be replaced if the values are equal wherever the register is available. -/
theorem runs_replaceUses {I : Config α μ → Prop} {w : μ} (hb : b.Regular f m)
    (hdef : b.Defines x0 done0 i0 rest0 r)
    (hfact : b.Fact env args I x0 done0 i0 r (Equals env args r v))
    (hstart : ∀ x ∈ b.blocks, x.id = b.entry → I (x.start w))
    (hI : ∀ c c' : Config α μ, I c → (∃ done, c.At b done) → c.Step env b args c' → I c')
    (h : b.Runs env args w o) : (b.replaceUses r v).Runs env args w o := by
  obtain ⟨x, hx, hrun⟩ := h
  have hmem : x ∈ b.blocks := List.mem_of_mem_head? hx
  have hentry : x.id = b.entry := (entry_of_head hx).symm
  refine ⟨x.mapOperands (Value.replace r v), by simp [replaceUses, mapOperands, hx], ?_⟩
  let R (c d : Config α μ) : Prop := I c ∧ (∃ done, c.At b done) ∧
    c.Holds b r (Equals env args r v) ∧ d = c.mapOperands (Value.replace r v)
  refine hrun.simulate (R := R) ?_ ?_ ⟨hstart x hmem hentry, ⟨_, .start hmem w⟩, ?_, rfl⟩
  · rintro c _ c' ⟨hc, ⟨done, hat⟩, hholds, rfl⟩ hstep
    refine .inr ⟨_, step_replaceUses hb hat hholds hstep, ?_⟩
    exact ⟨hI c c' hc ⟨done, hat⟩ hstep, hstep.at hb.ids hat,
      hfact.step hb hdef hc hat hholds hstep, rfl⟩
  · rintro c _ o ⟨_, ⟨done, hat⟩, hholds, rfl⟩ hends
    exact ends_replaceUses hb hat hholds hends
  · exact Fact.start b hentry w

end Body

end SsaCompiler.Ir
