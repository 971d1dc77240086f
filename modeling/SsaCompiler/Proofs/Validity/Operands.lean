import SsaCompiler.Proofs.Validity.Types

/-!
The operands of a function that passes the check. What an instruction or a terminator refers to is
there, with two exceptions: the registers of a phi that control cannot get to are not looked at, and
neither is the string that a function returns.
-/
namespace SsaCompiler.Ir

/-- The operand stands for something: it is a constant, or a parameter, a string or a register that
there is. -/
def Function.Denotes (f : Function) (m : Module) (b : Body) : Value → Prop
  | .const _ => True
  | .param i => i < f.params.length
  | .global i => i < m.strings.length
  | .reg r => ∃ x ∈ b.blocks, ∃ i ∈ x.instrs, i.result = some r

instance (f : Function) (m : Module) (b : Body) : (v : Value) → Decidable (f.Denotes m b v)
  | .const _ => isTrue trivial
  | .param i => inferInstanceAs (Decidable (i < f.params.length))
  | .global i => inferInstanceAs (Decidable (i < m.strings.length))
  | .reg r => inferInstanceAs (Decidable (∃ x ∈ b.blocks, ∃ i ∈ x.instrs, i.result = some r))

variable {f : Function} {m : Module} {b : Body} {x : Block}

theorem Body.exists_instr_of_mem_results {r : Reg} (h : r ∈ b.results) :
    ∃ x ∈ b.blocks, ∃ i ∈ x.instrs, i.result = some r := by
  obtain ⟨x, hx, hr⟩ := mem_results.mp h
  exact ⟨x, hx, mem_definedBy.mp hr⟩

/-- A use that passes is one of a register with a definition. -/
theorem Body.mem_results_of_checkUse {doms : List (BlockId × List BlockId)} {r : Reg} {place : BlockId}
    {before : Option Nat} (h : b.checkUse doms r place before = .ok ()) : r ∈ b.results := by
  by_contra hr
  rw [checkUse, definition?_eq_none.mpr hr] at h
  cases h

/-- An operand stands for something if it exists as a parameter or a string, and has a definition as a
register. -/
theorem Function.Exists.denotes {v : Value} (h : f.Exists m v) (hreg : ∀ r, v = .reg r → r ∈ b.results) :
    f.Denotes m b v := by
  obtain ⟨hparam, hglobal⟩ := exists_iff.mp h
  cases v with
  | const c => trivial
  | param i => exact hparam i rfl
  | global i => exact hglobal i rfl
  | reg r => exact Body.exists_instr_of_mem_results (hreg r rfl)

/-- The registers that an instruction uses are defined, unless it is a phi that control cannot get
to. -/
theorem Body.mem_results_of_checkBlockUses
    (h : b.checkBlockUses (FlowGraph.ofBody b).dominators x = .ok ()) (hx : x ∈ b.blocks)
    {i : Instr} (hi : i ∈ x.instrs) (hreach : i.op.isPhi = true → b.Reaches x.id) {r : Reg}
    (hr : .reg r ∈ i.op.operands) : r ∈ b.results := by
  rw [checkBlockUses, seq_eq_ok, forM_eq_ok] at h
  obtain ⟨n, hn⟩ := List.mem_iff_getElem?.mp hi
  have hcheck := h.1 (i, n) (List.mem_zipIdx_iff_getElem?.mpr hn)
  unfold checkInstrUses at hcheck
  cases hop : i.op with
  | phi incoming =>
    have hrow := FlowGraph.lookup_dominators_ofBody.mpr ⟨id_mem_ids hx, hreach (by rw [hop]; rfl)⟩
    simp only [hop, hrow, if_true, forM_eq_ok] at hcheck
    rw [hop] at hr
    obtain ⟨e, he, heq⟩ := List.mem_map.mp hr
    exact mem_results_of_checkUse (checkUses_eq_ok.mp (hcheck e he) r (by simp [heq]))
  | _ =>
    simp only [hop] at hcheck
    rw [hop] at hr
    exact mem_results_of_checkUse (checkUses_eq_ok.mp hcheck r hr)

/-- What a terminator that passes refers to is there, unless it is a string that is returned. -/
theorem Function.denotes_of_checkTerm {t : Terminator} (h : f.checkTerm t = .ok ()) {v : Value}
    (hv : v ∈ t.operands) (hreg : ∀ r, v = .reg r → r ∈ b.results) :
    f.Denotes m b v ∨ ∃ i, v = .global i ∧ t = .ret (some v) := by
  have hparam : ∀ i, v = .param i → f.typeOf v ≠ .void → i < f.params.length := by
    rintro i rfl hty
    by_contra hlt
    exact hty (by simp [typeOf, List.getElem?_eq_none (Nat.le_of_not_lt hlt)])
  cases t with
  | br s => cases hv
  | condBr c s e =>
    obtain rfl := List.mem_singleton.mp hv
    have hty := require_eq_ok.mp h
    left
    cases v with
    | const c => trivial
    | param i => exact hparam i rfl (by rw [hty]; decide)
    | global i => cases hty
    | reg r => exact Body.exists_instr_of_mem_results (hreg r rfl)
  | ret w =>
    cases w with
    | none => cases hv
    | some w =>
      obtain rfl : v = w := by simpa [Terminator.operands] using hv
      obtain ⟨hret, hty⟩ := require_eq_ok.mp h
      cases v with
      | const c => exact .inl trivial
      | param i => exact .inl (hparam i rfl (hty ▸ hret))
      | global i => exact .inr ⟨i, rfl, rfl⟩
      | reg r => exact .inl (Body.exists_instr_of_mem_results (hreg r rfl))

/-- The operands of a function that passes the check stand for something. Excepted are the registers
of phis that control cannot get to, and strings that are returned. Branches lead to blocks of the
function, and phis have their values from such blocks. -/
theorem Function.verified_operands_denote (hbody : f.body = some b) (hverify : f.verify m = .ok ()) :
    ∀ x ∈ b.blocks,
      (∀ i ∈ x.instrs, ∀ v ∈ i.op.operands, f.Denotes m b v ∨
        ∃ r, v = .reg r ∧ i.op.isPhi = true ∧ ¬ b.Reaches x.id) ∧
      (∀ i ∈ x.instrs, ∀ incoming, i.op = .phi incoming → ∀ e ∈ incoming, e.2 ∈ b.ids) ∧
      ∃ t, x.term = some t ∧ (∀ s ∈ t.successors, s ∈ b.ids) ∧
        ∀ v ∈ t.operands, f.Denotes m b v ∨ ∃ i, v = .global i ∧ t = .ret (some v) := by
  obtain ⟨_, _, _, hshape, huses⟩ := (verify_eq_ok hbody).mp hverify
  intro x hx
  obtain ⟨t, hterm, htargets, hcheck⟩ := (hshape x hx).term
  refine ⟨fun i hi v hv => ?_, fun i hi incoming hop e he => (hshape x hx).sources hi hop he,
    t, hterm, htargets, fun v hv => ?_⟩
  · have hexists := (checkOp_eq_ok.mp ((hshape x hx).typed i hi)).1 v hv
    by_cases hstray : ∃ r, v = .reg r ∧ i.op.isPhi = true ∧ ¬ b.Reaches x.id
    · exact .inr hstray
    · refine .inl (hexists.denotes fun r hr => ?_)
      refine Body.mem_results_of_checkBlockUses (huses x hx) hx hi (fun hphi => ?_) (hr ▸ hv)
      by_contra hreach
      exact hstray ⟨r, hr, hphi, hreach⟩
  · have hterms := (seq_eq_ok.mp (huses x hx)).2
    rw [hterm] at hterms
    refine denotes_of_checkTerm hcheck hv fun r hr => ?_
    exact Body.mem_results_of_checkUse (Body.checkUses_eq_ok.mp hterms r (hr ▸ hv))

/-- A loop that control cannot get to, with a phi of a register that nothing defines. -/
def lostBody : Body :=
  ⟨[⟨0, "entry", [⟨some 0, .i64, .call "puts" [.global 0]⟩], some (.condBr (.param 0) 1 2)⟩,
    ⟨1, "then", [], some (.ret (some (.reg 0)))⟩,
    ⟨2, "else", [], some (.ret (some (.const (.int 3))))⟩,
    ⟨3, "lost", [⟨some 1, .i64, .phi [(.reg 2, 3)]⟩], some (.br 3)⟩], [.i64, .i64, .i64], 4⟩

def lost : Function := ⟨"lost", [⟨"p", .i1⟩], .i64, some lostBody⟩

def oneString : Module := ⟨"m", [], ["one"], [.puts]⟩

theorem lost_operands_denote : lost.verify oneString = .ok () ∧
    (∀ v ∈ [.global 0, .param 0, .reg 0], lost.Denotes oneString lostBody v) ∧
    ¬ lost.Denotes oneString lostBody (.reg 2) ∧ ¬ lostBody.Reaches 3 := by
  have hverify : lost.verify oneString = .ok () := by decide
  have hmissing : ¬ lost.Denotes oneString lostBody (.reg 2) := by decide
  refine ⟨hverify, by decide, hmissing, ?_⟩
  obtain ⟨hinstrs, _⟩ := Function.verified_operands_denote rfl hverify lostBody.blocks[3] (by decide)
  obtain ⟨_, _, _, hlost⟩ := (hinstrs _ List.mem_cons_self (.reg 2) (by decide)).resolve_left hmissing
  exact hlost

/-- Returns a string that the module does not have. -/
def strayBody : Body := ⟨[⟨0, "entry", [], some (.ret (some (.global 7)))⟩], [], 1⟩

def stray : Function := ⟨"stray", [], .string, some strayBody⟩

/-- Neither the phis that control cannot get to nor the strings that are returned are checked. -/
theorem verify_accepts_missing_operands :
    (¬ ∀ (f : Function) (m : Module) (b : Body), f.body = some b → f.verify m = .ok () →
      ∀ x ∈ b.blocks, ∀ i ∈ x.instrs, ∀ v ∈ i.op.operands, f.Denotes m b v) ∧
    ¬ ∀ (f : Function) (m : Module) (b : Body), f.body = some b → f.verify m = .ok () →
      ∀ x ∈ b.blocks, ∀ t, x.term = some t → ∀ v ∈ t.operands, f.Denotes m b v := by
  constructor
  · intro h
    have hlost := h lost oneString lostBody rfl (by decide) lostBody.blocks[3] (by decide) _
      List.mem_cons_self (.reg 2) (by decide)
    exact absurd hlost (by decide)
  · intro h
    have hstray := h stray oneString strayBody rfl (by decide) strayBody.blocks[0] (by decide) _ rfl
      (.global 7) (by decide)
    exact absurd hstray (by decide)

end SsaCompiler.Ir
