import SsaCompiler.Proofs.Execution.Facts

/-!
Carrying runs of one body over to another one. What an instruction, a terminator or a phi does
depends on the values of its operands only, so operands may change as long as their values stay.
-/
namespace SsaCompiler.Ir

variable {α μ : Type}

theorem find?_filter_of_imp {β : Type} {l : List β} {p q : β → Bool} (h : ∀ a ∈ l, q a → p a) :
    (l.filter p).find? q = l.find? q := by
  induction l with
  | nil => rfl
  | cons a l ih =>
    obtain ⟨ha, hl⟩ := List.forall_mem_cons.mp h
    cases hp : p a with
    | true => simp [hp, List.find?_cons, ih hl]
    | false =>
      have hq : q a = false := by
        cases hq : q a with
        | false => rfl
        | true => simp [ha hq] at hp
      simp [hp, hq, ih hl]

section Operands

variable {env : Environment α μ} {ev ev' : Value → Option (Val α)} {σ : Value → Value}

theorem mapM_map_operands {vs : List Value} (h : ∀ v ∈ vs, ev' (σ v) = ev v) :
    (vs.map σ).mapM ev' = vs.mapM ev := by
  induction vs with
  | nil => rfl
  | cons v vs ih =>
    obtain ⟨hv, hvs⟩ := List.forall_mem_cons.mp h
    simp only [List.map_cons, List.mapM_cons, hv, ih hvs]

theorem Op.value?_mapOperands {op : Op} (h : ∀ v ∈ op.operands, ev' (σ v) = ev v) (w : μ)
    (ty : Ty) : (op.mapOperands σ).value? env ev' w ty = op.value? env ev w ty := by
  cases op <;> simp_all [mapOperands, operands, value?]

theorem Instr.exec_mapOperands {i : Instr} (h : ∀ v ∈ i.op.operands, ev' (σ v) = ev v) (w : μ) :
    (i.mapOperands σ).exec env ev' w = i.exec env ev w := by
  obtain ⟨result, ty, op⟩ := i
  cases op with
  | call callee args =>
    have hargs : (args.map σ).mapM ev' = args.mapM ev := mapM_map_operands h
    simp only [exec, mapOperands, Op.mapOperands, hargs]
  | alloca t => rfl
  | store v p =>
    obtain ⟨hv, hp⟩ : ev' (σ v) = ev v ∧ ev' (σ p) = ev p := by simpa [Op.operands] using h
    simp only [exec, mapOperands, Op.mapOperands, hv, hp]
  | phi es => rfl
  | binary op l r => exact congrArg (Option.map _) (Op.value?_mapOperands h w ty)
  | icmp pred l r => exact congrArg (Option.map _) (Op.value?_mapOperands h w ty)
  | fcmp pred l r => exact congrArg (Option.map _) (Op.value?_mapOperands h w ty)
  | load p => exact congrArg (Option.map _) (Op.value?_mapOperands h w ty)
  | elementPtr base index => exact congrArg (Option.map _) (Op.value?_mapOperands h w ty)

theorem Op.value?_congr {op : Op} (h : ∀ v ∈ op.operands, ev' v = ev v) (w : μ) (ty : Ty) :
    op.value? env ev' w ty = op.value? env ev w ty := by
  rw [← value?_mapOperands h w ty, mapOperands_id]

/-- The effect of an instruction depends on the values of its operands. -/
theorem Instr.exec_congr {i : Instr} (h : ∀ v ∈ i.op.operands, ev' v = ev v) (w : μ) :
    i.exec env ev' w = i.exec env ev w := by
  have hid : i.mapOperands (fun v => v) = i := by simp [mapOperands, Op.mapOperands_id]
  rw [← exec_mapOperands h w, hid]

theorem Terminator.goesTo?_mapOperands {t : Terminator} (h : ∀ v ∈ t.operands, ev' (σ v) = ev v) :
    (t.mapOperands σ).goesTo? ev' = t.goesTo? ev := by
  cases t with
  | condBr c t e =>
    have hc : ev' (σ c) = ev c := h c (by simp [operands])
    simp only [mapOperands, goesTo?, hc]
  | _ => rfl

theorem Terminator.goesTo?_congr {t : Terminator} (h : ∀ v ∈ t.operands, ev' v = ev v) :
    t.goesTo? ev' = t.goesTo? ev := by
  cases t with
  | condBr c t e =>
    have hc : ev' c = ev c := h c (by simp [operands])
    simp only [goesTo?, hc]
  | _ => rfl

/-- A pure instruction gives its value and changes nothing else. -/
theorem Instr.exec_of_pure {i : Instr} (h : i.op.isPure) (w : μ) :
    i.exec env ev w = (i.op.value? env ev w i.ty).map fun a => .next (some a) w [] := by
  obtain ⟨result, ty, op⟩ := i
  cases op with
  | call _ _ => cases h
  | store _ _ => cases h
  | alloca _ => cases h
  | _ => rfl

/-- The value of a phi depends on the edge that is taken. -/
theorem Op.phiValue?_mapOperands {op : Op} {source : BlockId}
    (h : ∀ incoming, op = .phi incoming → ∀ v, (v, source) ∈ incoming → ev' (σ v) = ev v) :
    (op.mapOperands σ).phiValue? ev' source = op.phiValue? ev source := by
  cases op with
  | phi incoming =>
    simp only [mapOperands, phiValue?, List.find?_map, Function.comp_def]
    cases hfind : incoming.find? (·.2 = source) with
    | none => rfl
    | some e =>
      have hsource : e.2 = source := by simpa using List.find?_some hfind
      have hmem := List.mem_of_find?_eq_some hfind
      exact h incoming rfl e.1 (hsource ▸ hmem)
  | _ => rfl

theorem Op.phiValue?_congr {op : Op} {source : BlockId}
    (h : ∀ incoming, op = .phi incoming → ∀ v, (v, source) ∈ incoming → ev' v = ev v) :
    op.phiValue? ev' source = op.phiValue? ev source := by
  rw [← phiValue?_mapOperands h, mapOperands_id]

/-- Phis with the same results and values change the registers in the same way. -/
theorem phiRegs_map {T : Instr → Instr} {phis : List Instr} {source source' : BlockId}
    {regs : Regs α} (hres : ∀ i, (T i).result = i.result)
    (h : ∀ i ∈ phis, (T i).op.phiValue? ev' source' = i.op.phiValue? ev source) :
    phiRegs ev' source' (phis.map T) regs = phiRegs ev source phis regs := by
  funext q
  simp only [phiRegs, List.find?_map, Function.comp_def, hres]
  cases hfind : phis.find? fun i => decide (i.result = some q) with
  | none => rfl
  | some i => exact h i (List.mem_of_find?_eq_some hfind)

/-- A change of instructions that keeps phis apart keeps the top of a block apart. -/
theorem takeWhile_map_phis {T : Instr → Instr} (hphi : ∀ i, (T i).op.isPhi = i.op.isPhi)
    (is : List Instr) :
    (is.map T).takeWhile (·.op.isPhi) = (is.takeWhile (·.op.isPhi)).map T := by
  simp only [List.takeWhile_map, Function.comp_def, hphi]

theorem dropWhile_map_phis {T : Instr → Instr} (hphi : ∀ i, (T i).op.isPhi = i.op.isPhi)
    (is : List Instr) :
    (is.map T).dropWhile (·.op.isPhi) = (is.dropWhile (·.op.isPhi)).map T := by
  simp only [List.dropWhile_map, Function.comp_def, hphi]

end Operands

namespace Config

variable {env : Environment α μ} {b b' : Body} {args : List (Val α)} {c d : Config α μ}
  {o : Outcome α μ}

/-- If every step of a run is matched by a step or by standing still, and the end of a run by an
end, then the outcome is matched. -/
theorem Runs.simulate {R : Config α μ → Config α μ → Prop}
    (hstep : ∀ c d c', R c d → c.Step env b args c' →
      R c' d ∨ ∃ d', d.Step env b' args d' ∧ R c' d')
    (hends : ∀ c d o, R c d → c.Ends env args o → d.Ends env args o)
    (hR : R c d) (h : c.Runs env b args o) : d.Runs env b' args o := by
  induction h generalizing d with
  | ends hend => exact .ends (hends _ _ _ hR hend)
  | step hc _ ih =>
    rcases hstep _ _ _ hR hc with hstay | ⟨d', hd, hR'⟩
    · exact ih hstay
    · exact .step hd (ih hR')

end Config

end SsaCompiler.Ir
