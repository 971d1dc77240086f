import SsaCompiler.Proofs.Execution.Machine
import SsaCompiler.Proofs.Validity.Availability

/-!
Facts about registers that hold wherever a register is available. A fact that speaks of a register
and of what is available at its definition, and that the definition establishes, stays true until
the definition is run again: nothing that it speaks of is defined anew in between.
-/
namespace SsaCompiler.Ir

variable {α μ : Type}

section Registers

variable {regs regs' : Regs α} {i : Instr} {v : Option (Val α)} {q r : Reg}

theorem Instr.write_other (h : i.write regs v = some regs') (hq : i.result ≠ some q) :
    regs' q = regs q := by
  unfold write at h
  split at h
  · rw [← Option.some.inj h]
  · rename_i s a hs
    rw [← Option.some.inj h]
    refine if_neg fun heq => hq ?_
    rw [heq, hs]
  · cases h

theorem Instr.write_result (h : i.write regs v = some regs') (hr : i.result = some r) :
    regs' r = v := by
  unfold write at h
  rw [hr] at h
  cases v with
  | none => cases h
  | some a =>
    rw [← Option.some.inj h]
    exact if_pos rfl

variable {ev : Value → Option (Val α)} {source : BlockId} {phis : List Instr}

theorem phiRegs_other (hq : q ∉ definedBy phis) : phiRegs ev source phis regs q = regs q := by
  unfold phiRegs
  split
  · rename_i j hfind
    have hres := List.find?_some hfind
    exact absurd (mem_definedBy.mpr ⟨j, List.mem_of_find?_eq_some hfind, by simpa using hres⟩) hq
  · rfl

theorem phiRegs_result (hnd : (definedBy phis).Nodup) (hi : i ∈ phis) (hr : i.result = some r) :
    phiRegs ev source phis regs r = i.op.phiValue? ev source := by
  unfold phiRegs
  split
  · rename_i j hfind
    have hres : j.result = some r := by simpa using List.find?_some hfind
    obtain ⟨before, after, hsplit⟩ := List.append_of_mem hi
    obtain ⟨before', after', hsplit'⟩ := List.append_of_mem (List.mem_of_find?_eq_some hfind)
    rw [(Body.split_unique hnd hsplit hsplit' hr hres).2.1]
  · rename_i hnone
    have hres := List.find?_eq_none.mp hnone i hi
    simp [hr] at hres

end Registers

/-- Where control may go, it goes along an edge. -/
theorem Terminator.goesTo?_mem {ev : Value → Option (Val α)} {t : Terminator} {s : BlockId}
    (h : t.goesTo? ev = some s) : s ∈ t.successors := by
  cases t with
  | br s' => simpa [goesTo?, successors, eq_comm] using h
  | condBr c t e =>
    simp only [goesTo?] at h
    split at h
    · simp [successors, ← Option.some.inj h]
    · simp [successors, ← Option.some.inj h]
    · cases h
  | ret v => cases h

namespace Config

variable {env : Environment α μ} {b : Body} {args : List (Val α)} {c c' : Config α μ}
  {done : List Instr} {o : Outcome α μ}

/-- A run stands in a block of the body, behind its first instructions `done`. -/
structure At (b : Body) (c : Config α μ) (done : List Instr) : Prop where
  mem : c.block ∈ b.blocks
  split : c.block.instrs = done ++ c.rest

theorem At.unique {done' : List Instr} (h : c.At b done) (h' : c.At b done') : done = done' :=
  List.append_cancel_right (h.split.symm.trans h'.split)

theorem At.start {x : Block} (hx : x ∈ b.blocks) (w : μ) : (x.start w : Config α μ).At b [] :=
  ⟨hx, rfl⟩

theorem at_enter {y : Block} (hy : y ∈ b.blocks) : (c.enter env args y).At b y.phis :=
  ⟨hy, (List.takeWhile_append_dropWhile).symm⟩

/-- Where a step leads to. -/
theorem Step.at (hb : b.ids.Nodup) (h : c.Step env b args c') (hat : c.At b done) :
    ∃ done', c'.At b done' := by
  cases h with
  | @instr i rest v w calls regs hrest _ _ =>
    exact ⟨done ++ [i], hat.mem, by simp [hat.split, hrest]⟩
  | jump _ _ _ hy => exact ⟨_, at_enter ((Body.block?_eq_some hb).mp hy).1⟩

theorem At.leads {t : Terminator} {s : BlockId} (hat : c.At b done) (ht : c.block.term = some t)
    (hs : t.goesTo? (c.eval env args) = some s) : b.Leads c.block.id s :=
  ⟨c.block, hat.mem, rfl, (Block.mem_targets_of_term ht).mpr (Terminator.goesTo?_mem hs)⟩

end Config

/-- The fact `P` holds if a register is available. -/
def Config.Holds (b : Body) (r : Reg) (P : Regs α → Prop) (c : Config α μ) : Prop :=
  ∀ done, c.At b done → b.AvailIn c.block.id done r → P c.regs

/-- A fact about the register that is defined behind `done0` in `x0`: it speaks of that register and
of registers available there, and the definition establishes it in all states that satisfy `I`. -/
structure Body.Fact (env : Environment α μ) (b : Body) (args : List (Val α))
    (I : Config α μ → Prop) (x0 : Block) (done0 : List Instr) (i0 : Instr) (r : Reg)
    (P : Regs α → Prop) : Prop where
  reads : ∀ ρ ρ' : Regs α, ρ' r = ρ r → (∀ q, b.AvailIn x0.id done0 q → ρ' q = ρ q) → P ρ → P ρ'
  exec : ∀ c : Config α μ, I c → c.block = x0 → c.At b done0 → ∀ rest v w calls regs,
    c.rest = i0 :: rest → i0.exec env (c.eval env args) c.world = some (.next v w calls) →
    i0.write c.regs v = some regs → P regs
  phi : ∀ c : Config α μ, I c → b.Leads c.block.id x0.id → c.rest = [] → i0 ∈ x0.phis →
    c.At b c.block.instrs → (b.AvailOut c.block.id r → P c.regs) → P (c.enter env args x0).regs

namespace Body.Fact

variable {env : Environment α μ} {b : Body} {args : List (Val α)} {I : Config α μ → Prop}
  {f : Function} {m : Module} {x0 : Block} {done0 rest0 : List Instr} {i0 : Instr} {r : Reg}
  {P : Regs α → Prop} {c c' : Config α μ} {done : List Instr}

theorem start (b : Body) {x : Block} (hx : x.id = b.entry) (w : μ) :
    (x.start w : Config α μ).Holds b r P := by
  intro done hat havail
  obtain rfl : done = [] := hat.unique (Config.At.start hat.mem w)
  rw [show (x.start w : Config α μ).block.id = b.entry from hx] at havail
  exact absurd havail Body.not_avail_entry

/-- A step keeps a fact where its register is available. -/
theorem step (h : b.Fact env args I x0 done0 i0 r P) (hb : b.Regular f m)
    (hdef : b.Defines x0 done0 i0 rest0 r) (hI : I c) (hat : c.At b done) (hc : c.Holds b r P)
    (hstep : c.Step env b args c') : c'.Holds b r P := by
  intro done' hat' havail
  cases hstep with
  | @instr i rest v w calls regs hrest hexec hwrite =>
    have hsplit : c.block.instrs = done ++ i :: rest := by rw [hat.split, hrest]
    obtain rfl : done' = done ++ [i] := by
      have hsplit' := hat'.split
      rw [hsplit] at hsplit'
      have happend : done' ++ rest = done ++ [i] ++ rest := by simpa using hsplit'.symm
      exact List.append_cancel_right happend
    by_cases hres : i.result = some r
    · obtain ⟨hx, hdone, rfl, _⟩ := hdef.unique hb.valid.unique ⟨hat.mem, hsplit, hres⟩
      exact h.exec c hI hx.symm (hdone ▸ hat) rest v w calls regs hrest hexec hwrite
    · have hold : b.AvailIn c.block.id done r := by
        refine havail.imp (fun hr => ?_) id
        rw [definedBy_append, definedBy_cons, List.mem_append] at hr
        rcases hr with hr | hr
        · exact hr
        · simp [hres] at hr
      refine h.reads c.regs regs (Instr.write_other hwrite hres) (fun q hq => ?_) (hc done hat hold)
      refine Instr.write_other hwrite fun hres' => ?_
      exact hdef.avail_asymm hb.valid.unique hq ⟨hat.mem, hsplit, hres'⟩
        (hb.reached _ hat.mem) hold
  | @jump t y hrest hterm hgoes hy =>
    obtain ⟨hy, _⟩ := (block?_eq_some hb.ids).mp hy
    obtain rfl := hat'.unique (Config.at_enter hy)
    have hlead := hat.leads hterm hgoes
    have hall : c.At b c.block.instrs := ⟨hat.mem, by simp [hrest]⟩
    have hphis : ∀ {q}, q ∈ definedBy y.phis → q ∈ definedBy y.instrs :=
      fun hq => definedBy_subset (fun _ hi => List.takeWhile_subset _ hi) hq
    have hout : b.AvailOut c.block.id r → P c.regs :=
      fun hr => hc _ hall (hr.inside hb.ids hat.mem)
    by_cases hr : r ∈ definedBy y.phis
    · obtain rfl := definition_unique hb.valid.unique hdef.mem hy hdef.mem_definedBy (hphis hr)
      obtain ⟨j, hj, hres⟩ := mem_definedBy.mp hr
      obtain ⟨before, after, hsplit⟩ := List.append_of_mem (List.takeWhile_subset _ hj)
      obtain ⟨_, _, rfl, _⟩ := hdef.unique hb.valid.unique ⟨hy, hsplit, hres⟩
      exact h.phi c hI hlead hrest hj hall hout
    · have hbefore : b.AvailIn y.id [] r := havail.imp (fun h' => absurd h' hr) id
      refine h.reads c.regs _ (phiRegs_other hr) (fun q hq => phiRegs_other fun hq' => ?_)
        (hout (hbefore.before_edge hlead))
      obtain ⟨before, j, after, hdefq⟩ := exists_defines hy (hphis hq')
      exact hdef.avail_asymm hb.valid.unique hq hdefq (hb.reached y hy)
        (hbefore.mono fun _ hi => absurd hi (by simp))

end Body.Fact

end SsaCompiler.Ir
