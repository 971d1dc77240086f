import SsaCompiler.Proofs.Meaning.Substitution

/-!
Dropping what a run does not need keeps its outcome: pure instructions whose results nothing uses,
edges that are never taken with the blocks behind them, and the jump to a block that is joined to
the one before it.
-/
namespace SsaCompiler.Ir

variable {α μ : Type} {env : Environment α μ} {args : List (Val α)}

section DeadCode

/-- A pure instruction changes nothing but its register. -/
theorem Instr.exec_pure {ev : Value → Option (Val α)} {w w' : μ} {i : Instr} {v : Option (Val α)}
    {calls : List (Call α)} (hpure : i.op.isPure)
    (h : i.exec env ev w = some (.next v w' calls)) : w' = w ∧ calls = [] := by
  rw [exec_of_pure hpure] at h
  obtain ⟨a, _, heq⟩ := Option.map_eq_some_iff.mp h
  obtain ⟨_, rfl, rfl⟩ := Effect.next.inj heq
  exact ⟨rfl, rfl⟩

theorem Instr.exec_pure_ne_stop {ev : Value → Option (Val α)} {w w' : μ} {i : Instr}
    {calls : List (Call α)} (hpure : i.op.isPure) : i.exec env ev w ≠ some (.stop w' calls) := by
  intro h
  rw [exec_of_pure hpure] at h
  obtain ⟨a, _, heq⟩ := Option.map_eq_some_iff.mp h
  cases heq

theorem Instr.write_agree {i : Instr} {ρ ρ1 : Regs α} (ρ' : Regs α) {v : Option (Val α)}
    (h : i.write ρ v = some ρ1) :
    ∃ ρ1', i.write ρ' v = some ρ1' ∧ ∀ q, ρ' q = ρ q → ρ1' q = ρ1 q := by
  unfold write at *
  split at h
  · exact ⟨ρ', rfl, fun q hq => by rw [hq, ← Option.some.inj h]⟩
  · rename_i r a _
    refine ⟨_, rfl, fun q hq => ?_⟩
    rw [← Option.some.inj h]
    dsimp only
    rw [hq]
  · cases h

/-- Dropping instructions keeps the top of a block apart from its rest. -/
theorem PhisFirst.filter_phis {is : List Instr} (h : PhisFirst is) (p : Instr → Bool) :
    (is.filter p).takeWhile (·.op.isPhi) = (is.takeWhile (·.op.isPhi)).filter p ∧
      (is.filter p).dropWhile (·.op.isPhi) = (is.dropWhile (·.op.isPhi)).filter p := by
  induction is with
  | nil => simp
  | cons i is ih =>
    rw [phisFirst_cons] at h
    cases hphi : i.op.isPhi with
    | true =>
      obtain ⟨htake, hdrop⟩ := ih (by simpa [hphi] using h)
      cases hp : p i with
      | true => simp [hphi, hp, htake, hdrop]
      | false => simp [hphi, hp, htake, hdrop]
    | false =>
      have hplain : ∀ j ∈ (i :: is).filter p, j.op.isPhi = false := by
        intro j hj
        rcases List.mem_cons.mp (List.mem_filter.mp hj).1 with rfl | hj
        · exact hphi
        · simp only [hphi, Bool.false_eq_true, if_false] at h
          exact h j hj
      have htop : ∀ {l : List Instr}, (∀ j ∈ l, j.op.isPhi = false) →
          l.takeWhile (·.op.isPhi) = [] ∧ l.dropWhile (·.op.isPhi) = l := by
        intro l hl
        cases l with
        | nil => simp
        | cons j l => simp [hl j (by simp)]
      obtain ⟨htake, hdrop⟩ := htop hplain
      rw [htake, hdrop]
      simp [hphi]

variable {b : Body} {f : Function} {m : Module} {p : Instr → Bool} {o : Outcome α μ} {w : μ}

/-- The same state without the dropped instructions, up to registers that nothing uses. -/
structure Config.Reduces (b : Body) (p : Instr → Bool) (c d : Config α μ) : Prop where
  at_ : ∃ done, c.At b done
  block : d.block = { c.block with instrs := c.block.instrs.filter p }
  rest : d.rest = c.rest.filter p
  regs : ∀ q ∈ b.uses, d.regs q = c.regs q
  world : d.world = c.world
  calls : d.calls = c.calls

theorem Config.Reduces.eval {c d : Config α μ} (h : c.Reduces b p d) {v : Value}
    (hv : ∀ q, v = .reg q → q ∈ b.uses) : d.eval env args v = c.eval env args v := by
  cases v with
  | reg q => exact h.regs q (hv q rfl)
  | _ => rfl

theorem Config.Reduces.step {c d c' : Config α μ} (h : c.Reduces b p d) (hb : b.Regular f m)
    (hp : b.DropsUnused p) (hpure : ∀ x ∈ b.blocks, ∀ i ∈ x.instrs, p i = false → i.op.isPure)
    (hstep : c.Step env b args c') :
    c'.Reduces b p d ∨ ∃ d', d.Step env (b.filterInstrs p) args d' ∧ c'.Reduces b p d' := by
  obtain ⟨done, hat⟩ := h.at_
  have hat' := hstep.at hb.ids hat
  cases hstep with
  | @instr i rest v w calls regs hrest hexec hwrite =>
    have hi : i ∈ c.block.instrs := by simp [hat.split, hrest]
    cases hpi : p i with
    | false =>
      obtain ⟨rfl, rfl⟩ := Instr.exec_pure (hpure _ hat.mem i hi hpi) hexec
      obtain ⟨r, hr, hunused⟩ := hp _ hat.mem i hi hpi
      refine .inl ⟨hat', h.block, ?_, fun q hq => ?_, h.world, by simp [h.calls]⟩
      · simp [h.rest, hrest, hpi]
      · have hother : i.result ≠ some q := by
          rw [hr]
          rintro heq
          exact hunused (Option.some.inj heq ▸ hq)
        exact (h.regs q hq).trans (Instr.write_other hwrite hother).symm
    | true =>
      obtain ⟨regs', hwrite', hagree⟩ := Instr.write_agree d.regs hwrite
      refine .inr ⟨⟨d.block, rest.filter p, regs', w, d.calls ++ calls⟩, ?_, ?_⟩
      · refine .instr (by simp [h.rest, hrest, hpi]) ?_ hwrite'
        rw [h.world, ← hexec]
        refine Instr.exec_congr (fun u hu => h.eval fun q hq => ?_) _
        exact Body.mem_uses.mpr ⟨_, hat.mem, .inl ⟨i, hi, hq ▸ hu⟩⟩
      · exact ⟨hat', h.block, rfl, fun q hq => hagree q (h.regs q hq), rfl, by simp [h.calls]⟩
  | @jump t y hrest hterm hgoes hy =>
    obtain ⟨hy, _⟩ := (Body.block?_eq_some hb.ids).mp hy
    obtain ⟨htake, hdrop⟩ := (hb.valid.shape y hy).phisFirst.filter_phis p
    refine .inr ⟨d.enter env args { y with instrs := y.instrs.filter p }, ?_, ?_⟩
    · refine .jump (by simp [h.rest, hrest]) (by simp [h.block, hterm]; rfl) ?_ ?_
      · rw [← hgoes]
        refine Terminator.goesTo?_congr fun u hu => h.eval fun q hq => ?_
        exact Body.mem_uses.mpr ⟨_, hat.mem, .inr ⟨t, hterm, hq ▸ hu⟩⟩
      · refine (Body.block?_eq_some ?_).mpr ⟨List.mem_map_of_mem hy, rfl⟩
        exact (Body.sameFlow_filterInstrs p b).ids ▸ hb.ids
    · refine ⟨hat', rfl, hdrop, fun q hq => ?_, h.world, h.calls⟩
      have hsource : d.block.id = c.block.id := by rw [h.block]
      -- the phi that defines a used register stays
      have hfind : (y.phis.filter p).find? (fun i => decide (i.result = some q)) =
          y.phis.find? (fun i => decide (i.result = some q)) := by
        refine find?_filter_of_imp fun i hi hres => ?_
        cases hpi : p i with
        | true => rfl
        | false =>
          obtain ⟨r, hr, hunused⟩ := hp y hy i (List.takeWhile_subset _ hi) hpi
          obtain rfl : r = q := by simpa [hr] using hres
          exact absurd hq hunused
      have hphis : ({ y with instrs := y.instrs.filter p } : Block).phis = y.phis.filter p := htake
      simp only [Config.enter, phiRegs, hphis, hfind, hsource]
      cases hi : y.phis.find? (fun i => decide (i.result = some q)) with
      | none => exact h.regs q hq
      | some i =>
        have hmem := List.mem_of_find?_eq_some hi
        refine Op.phiValue?_congr fun incoming hop v hv => h.eval fun s hs => ?_
        refine Body.mem_uses.mpr ⟨y, hy, .inl ⟨i, List.takeWhile_subset _ hmem, ?_⟩⟩
        rw [hop]
        exact List.mem_map.mpr ⟨_, hv, hs⟩

theorem Config.Reduces.ends {c d : Config α μ} (h : c.Reduces b p d)
    (hpure : ∀ x ∈ b.blocks, ∀ i ∈ x.instrs, p i = false → i.op.isPure)
    (hends : c.Ends env args o) : d.Ends env args o := by
  obtain ⟨done, hat⟩ := h.at_
  cases hends with
  | ret hrest hterm =>
    rw [← h.world, ← h.calls]
    exact .ret (by simp [h.rest, hrest]) (by rw [h.block]; exact hterm)
  | @retValue v a hrest hterm heval =>
    rw [← h.world, ← h.calls]
    refine .retValue (by simp [h.rest, hrest]) (by rw [h.block]; exact hterm) ?_
    refine (h.eval fun q hq => ?_).trans heval
    exact Body.mem_uses.mpr ⟨_, hat.mem, .inr ⟨_, hterm, by simp [Terminator.operands, hq]⟩⟩
  | @stop i rest w calls hrest hexec =>
    have hi : i ∈ c.block.instrs := by simp [hat.split, hrest]
    have hpi : p i = true := by
      cases hpi : p i with
      | true => rfl
      | false => exact absurd hexec (Instr.exec_pure_ne_stop (hpure _ hat.mem i hi hpi))
    rw [← h.calls]
    refine .stop (by rw [h.rest, hrest, List.filter_cons_of_pos hpi]) ?_
    rw [h.world, ← hexec]
    refine Instr.exec_congr (fun u hu => h.eval fun q hq => ?_) _
    exact Body.mem_uses.mpr ⟨_, hat.mem, .inl ⟨i, hi, hq ▸ hu⟩⟩

/-- Pure instructions whose results nothing uses may be dropped. -/
theorem Body.runs_filterInstrs (hb : b.Regular f m) (hp : b.DropsUnused p)
    (hpure : ∀ x ∈ b.blocks, ∀ i ∈ x.instrs, p i = false → i.op.isPure)
    (h : b.Runs env args w o) : (b.filterInstrs p).Runs env args w o := by
  obtain ⟨x, hx, hrun⟩ := h
  have hmem : x ∈ b.blocks := List.mem_of_mem_head? hx
  refine ⟨{ x with instrs := x.instrs.filter p }, by simp [filterInstrs, hx], ?_⟩
  refine hrun.simulate (R := Config.Reduces b p) (fun c d c' h => h.step hb hp hpure)
    (fun c d o h => h.ends hpure) ?_
  exact ⟨⟨_, .start hmem w⟩, rfl, rfl, fun _ _ => rfl, rfl, rfl⟩

end DeadCode

end SsaCompiler.Ir
