import SsaCompiler.Proofs.Meaning.Substitution
import Mathlib.Data.List.TakeWhile

/-!
Known values are the values that instructions give. Folding computes what the machine computes, an
equal computation has an equal value as long as both are available, and a phi takes the value of the
edge that control comes along.
-/
namespace SsaCompiler.Optimize

open Ir

variable {α μ : Type} {env : Environment α μ} {args : List (Val α)} {ρ : Regs α}

section Folding

variable {l r v : Value} {a c res : Val α} {op : BinOp} {n : Int64}

theorem onValues?_neutral_right (hn : ∀ k, op.onInts? k n = some k) (hdiv : ¬ (op = .sdiv ∧ n = 0))
    (h : op.onValues? a (.int n) = some res) : a = res := by
  cases a with
  | int k => simpa [BinOp.onValues?, hn] using h
  | undef => simpa [BinOp.onValues?, hdiv] using h
  | _ => simp [BinOp.onValues?] at h

theorem onValues?_neutral_left (hn : ∀ k, op.onInts? n k = some k)
    (h : op.onValues? (.int n) c = some res) : c = res := by
  cases c with
  | int k => simpa [BinOp.onValues?, hn] using h
  | undef => simpa [BinOp.onValues?] using h
  | _ => simp [BinOp.onValues?] at h

theorem foldBinary_sound (h : foldBinary op l r = some v) (hl : l.eval env args ρ = some a)
    (hr : r.eval env args ρ = some c) (hres : op.onValues? a c = some res) :
    v.eval env args ρ = some res := by
  unfold foldBinary at h
  split at h
  · obtain ⟨n, hn, rfl⟩ := Option.map_eq_some_iff.mp h
    obtain rfl := Option.some.inj hl
    obtain rfl := Option.some.inj hr
    simpa [Constant.eval, BinOp.onValues?, hn, Value.eval] using hres
  · obtain ⟨x, hx, rfl⟩ := Option.map_eq_some_iff.mp h
    obtain rfl := Option.some.inj hl
    obtain rfl := Option.some.inj hr
    simpa [Constant.eval, BinOp.onValues?, hx, Value.eval] using hres
  split at h
  · rename_i hcond
    obtain ⟨rfl, hop⟩ := hcond
    obtain rfl := Option.some.inj h
    obtain rfl := Option.some.inj hr
    rw [hl]
    rcases hop with rfl | rfl
    · rw [onValues?_neutral_right (by simp [BinOp.onInts?]) (by simp) hres]
    · rw [onValues?_neutral_right (by simp [BinOp.onInts?]) (by simp) hres]
  split at h
  · rename_i hcond
    obtain ⟨rfl, rfl⟩ := hcond
    obtain rfl := Option.some.inj h
    obtain rfl := Option.some.inj hl
    rw [hr, onValues?_neutral_left (by simp [BinOp.onInts?]) hres]
  split at h
  · rename_i hcond
    obtain ⟨rfl, hop⟩ := hcond
    obtain rfl := Option.some.inj h
    obtain rfl := Option.some.inj hr
    rw [hl]
    rcases hop with rfl | rfl
    · rw [onValues?_neutral_right (by simp [BinOp.onInts?]) (by simp) hres]
    · have hone : ∀ k : Int64, BinOp.sdiv.onInts? k 1 = some k := by
        intro k
        have hcond : ¬ ((1 : Int64) = 0 ∨ k = Int64.minValue ∧ (1 : Int64) = -1) := by
          rintro (h | ⟨_, h⟩) <;> exact absurd h (by decide)
        simp only [BinOp.onInts?, hcond, if_false, Int64.div_one]
      rw [onValues?_neutral_right hone (by decide) hres]
  split at h
  · rename_i hcond
    obtain ⟨rfl, rfl⟩ := hcond
    obtain rfl := Option.some.inj h
    obtain rfl := Option.some.inj hl
    rw [hr, onValues?_neutral_left (by simp [BinOp.onInts?]) hres]
  · cases h

/-- Comparisons of constants are folded rightly, if booleans are only compared for equality. -/
theorem foldIcmp_sound {pred : IntPred} (h : foldIcmp pred l r = some v)
    (horder : pred = .slt ∨ pred = .sgt → ∀ k, l ≠ .bool k) (hl : l.eval env args ρ = some a)
    (hr : r.eval env args ρ = some c) (hres : pred.onValues? env.equal a c = some res) :
    v.eval env args ρ = some res := by
  unfold foldIcmp at h
  split at h
  · obtain rfl := Option.some.inj h
    obtain rfl := Option.some.inj hl
    obtain rfl := Option.some.inj hr
    simpa [Constant.eval, IntPred.onValues?, Value.eval] using hres
  · rename_i p q
    obtain rfl := Option.some.inj h
    obtain rfl := Option.some.inj hl
    obtain rfl := Option.some.inj hr
    rw [← hres]
    cases pred with
    | eq => cases p <;> cases q <;> rfl
    | ne => cases p <;> cases q <;> rfl
    | slt => exact absurd rfl (horder (.inl rfl) p)
    | sgt => exact absurd rfl (horder (.inr rfl) p)
  · rename_i i j
    obtain ⟨k, hk, rfl⟩ := Option.map_eq_some_iff.mp h
    obtain rfl := Option.some.inj hl
    obtain rfl := Option.some.inj hr
    have hsame : env.equal (env.string i) (env.string j) = decide (i = j) := by
      rw [Bool.eq_iff_iff, env.equal_iff, decide_eq_true_iff]
      exact ⟨env.string_injective i j, fun heq => heq ▸ rfl⟩
    rw [← hres]
    cases pred with
    | eq => simp [IntPred.onValues?, hsame, Value.eval, Constant.eval, ← Option.some.inj hk]
    | ne => simp [IntPred.onValues?, hsame, Value.eval, Constant.eval, ← Option.some.inj hk]
    | slt => cases hk
    | sgt => cases hk
  · cases h

theorem foldFcmp_sound {pred : FloatPred} (h : foldFcmp pred l r = some v)
    (hl : l.eval env args ρ = some a) (hr : r.eval env args ρ = some c)
    (hres : pred.onValues? a c = some res) : v.eval env args ρ = some res := by
  unfold foldFcmp at h
  split at h
  · obtain rfl := Option.some.inj h
    obtain rfl := Option.some.inj hl
    obtain rfl := Option.some.inj hr
    simpa [Constant.eval, FloatPred.onValues?, Value.eval] using hres
  · cases h

end Folding

/-- An order is only asked of 64-bit integers. -/
def OrdersInts (f : Function) (i : Instr) : Prop :=
  ∀ pred l r, i.op = .icmp pred l r → pred = .slt ∨ pred = .sgt → f.typeOf l = .i64

variable {b : Body} {f : Function} {m : Module} {x : Block} {done rest : List Instr} {i : Instr}
  {r : Reg} {v : Value} {o : Outcome α μ} {I : Config α μ → Prop}

theorem value?_world {op : Op} {ev : Value → Option (Val α)} {w w' : μ} {ty : Ty}
    (h : isNumberable op) : op.value? env ev w ty = op.value? env ev w' ty := by
  cases op <;> simp_all [isNumberable, Op.value?]

/-- Folding an operation other than a phi gives the value that it computes. -/
theorem simplify?_sound {op : Op} {w : μ} {ty : Ty} {a : Val α} (h : simplify? r op = some v)
    (hnum : isNumberable op)
    (horder : ∀ pred l r, op = .icmp pred l r → pred = .slt ∨ pred = .sgt → ∀ k, l ≠ .bool k)
    (hvalue : op.value? env (Value.eval env args ρ) w ty = some a) :
    v.eval env args ρ = some a := by
  cases op with
  | binary op l r' =>
    simp only [Op.value?, Option.bind_eq_bind, Option.bind_eq_some_iff] at hvalue
    obtain ⟨p, hp, q, hq, hres⟩ := hvalue
    exact foldBinary_sound h hp hq hres
  | icmp pred l r' =>
    simp only [Op.value?, Option.bind_eq_bind, Option.bind_eq_some_iff] at hvalue
    obtain ⟨p, hp, q, hq, hres⟩ := hvalue
    exact foldIcmp_sound h (horder pred l r' rfl) hp hq hres
  | fcmp pred l r' =>
    simp only [Op.value?, Option.bind_eq_bind, Option.bind_eq_some_iff] at hvalue
    obtain ⟨p, hp, q, hq, hres⟩ := hvalue
    exact foldFcmp_sound h hp hq hres
  | elementPtr base index => simp [simplify?] at h
  | _ => simp [isNumberable] at hnum

theorem StandsFor.reads (hv : b.StandsFor f m x done r v) {ρ ρ' : Regs α} (hr : ρ' r = ρ r)
    (havail : ∀ q, b.AvailIn x.id done q → ρ' q = ρ q) (h : Body.Equals env args r v ρ) :
    Body.Equals env args r v ρ' := by
  unfold Body.Equals at *
  rw [hr, h]
  cases v with
  | reg q => exact (havail q (hv.avail q rfl)).symm
  | _ => rfl

theorem isNumberable_plain {op : Op} (h : isNumberable op) : op.isPhi = false := by
  cases op <;> simp_all [isNumberable, Op.isPhi]

/-- A computation establishes that its register has the value of `v`, if `v` has that value. -/
theorem fact_of_computation (hb : b.Regular f m) (hdef : b.Defines x done i rest r)
    (hv : b.StandsFor f m x done r v) (hnum : isNumberable i.op)
    (hvalue : ∀ c : Config α μ, I c → c.block = x → c.At b done → ∀ a,
      i.op.value? env (c.eval env args) c.world i.ty = some a → c.eval env args v = some a) :
    b.Fact env args I x done i r (Body.Equals env args r v) := by
  refine ⟨fun ρ ρ' => StandsFor.reads hv, ?_, ?_⟩
  · intro c hI hx hat rest' a w calls regs _ hexec hwrite
    rw [Instr.exec_of_pure (isNumberable_pure hnum)] at hexec
    obtain ⟨a', ha', heq⟩ := Option.map_eq_some_iff.mp hexec
    obtain ⟨rfl, rfl, rfl⟩ := Effect.next.inj heq
    have hev := hvalue c hI hx hat a' ha'
    unfold Body.Equals
    rw [Instr.write_result hwrite hdef.result, ← hev]
    cases v with
    | reg q =>
      have hne : i.result ≠ some q := by
        rw [hdef.result]
        rintro heq
        exact hv.ne hb.valid.unique hdef (congrArg Value.reg (Option.some.inj heq).symm)
      exact (Instr.write_other hwrite hne).symm
    | _ => rfl
  · intro c _ _ _ hi
    have hphi := List.mem_takeWhile_imp hi
    simp [isNumberable_plain hnum] at hphi

/-- A phi establishes that its register has the value of `v`, if the edge that is taken has. -/
theorem fact_of_phi (hb : b.Regular f m) (hdef : b.Defines x done i rest r)
    (hv : b.StandsFor f m x done r v) (hphi : i.op.isPhi)
    (hvalue : ∀ c : Config α μ, b.Leads c.block.id x.id →
      (b.AvailOut c.block.id r → Body.Equals env args r v c.regs) →
      i.op.phiValue? (c.eval env args) c.block.id = v.eval env args (c.enter env args x).regs) :
    b.Fact env args I x done i r (Body.Equals env args r v) := by
  refine ⟨fun ρ ρ' => StandsFor.reads hv, ?_, ?_⟩
  · intro c _ _ _ rest' a w calls regs _ hexec _
    simp [Instr.exec_phi hphi] at hexec
  · intro c _ hlead _ hi _ hout
    have hnd : (definedBy x.phis).Nodup :=
      ((List.takeWhile_sublist _).filterMap _).nodup (Body.nodup_definedBy hb.valid.unique hdef.mem)
    exact (phiRegs_result hnd hi hdef.result).trans (hvalue c hlead hout)

theorem folded_fact (hb : b.Regular f m) (horder : OrdersInts f i)
    (hdef : b.Defines x done i rest r) (h : simplify? r i.op = some v) :
    b.Fact env args I x done i r (Body.Equals env args r v) := by
  have hv := (Known.folded h).standsFor hb hdef
  cases hnum : isNumberable i.op with
  | true =>
    refine fact_of_computation hb hdef hv hnum fun c _ _ _ a ha => ?_
    refine simplify?_sound h hnum (fun pred l r hop hpred k hk => ?_) ha
    have hty := horder pred l r hop hpred
    rw [hk] at hty
    cases hty
  | false =>
    cases hop : i.op with
    | phi incoming =>
      obtain ⟨hreg, _, hall⟩ := foldPhi_cases (hop ▸ h)
      have hconst : ∀ ρ ρ' : Regs α, v.eval env args ρ = v.eval env args ρ' := by
        intro ρ ρ'
        cases v with
        | reg q => exact absurd rfl (hreg q)
        | _ => rfl
      refine fact_of_phi hb hdef hv (by simp [hop, Op.isPhi]) fun c hlead hout => ?_
      have hi : i ∈ x.instrs := by simp [hdef.split]
      have hedge := (((hb.valid.shape x hdef.mem).edges i hi incoming hop).2 c.block.id).mpr hlead
      obtain ⟨e0, he0, hsource0⟩ := List.mem_map.mp hedge
      cases hfind : incoming.find? (·.2 = c.block.id) with
      | none =>
        have hnone := List.find?_eq_none.mp hfind e0 he0
        simp [hsource0] at hnone
      | some e =>
        have hmem := List.mem_of_find?_eq_some hfind
        have hsource : e.2 = c.block.id := by simpa using List.find?_some hfind
        have hvalue : i.op.phiValue? (c.eval env args) c.block.id = c.eval env args e.1 := by
          simp [hop, Op.phiValue?, hfind]
        rw [hvalue, hconst _ c.regs]
        rcases hall e hmem with heq | heq
        · rw [heq]
          rfl
        · rw [heq]
          refine hout ((hb.valid.uses x hdef.mem).phi (hb.reached x hdef.mem) i hi incoming hop r _ ?_)
          rw [← heq, ← hsource]
          exact hmem
    | _ => simp_all [isNumberable, simplify?]

theorem onlyEdge_fact (hb : b.Regular f m) (hdef : b.Defines x done i rest r) {source : BlockId}
    (hop : i.op = .phi [(v, source)]) :
    b.Fact env args I x done i r (Body.Equals env args r v) := by
  refine fact_of_phi hb hdef (edge_standsFor hb hdef hop) (by simp [hop, Op.isPhi])
    fun c hlead _ => ?_
  have hi : i ∈ x.instrs := by simp [hdef.split]
  have hsource : c.block.id = source := by
    simpa using (((hb.valid.shape x hdef.mem).edges i hi _ hop).2 c.block.id).mpr hlead
  have hvalue : i.op.phiValue? (c.eval env args) c.block.id = c.eval env args v := by
    simp [hop, Op.phiValue?, hsource]
  rw [hvalue]
  cases v with
  | reg q =>
    -- the value comes from another block, so that no phi of this one changes it
    refine (phiRegs_other fun hq => ?_).symm
    have hq' : q ∈ definedBy x.instrs :=
      definedBy_subset (fun _ hi => List.takeWhile_subset _ hi) hq
    rcases edge_avail hb hdef hop with hnil | ⟨y, hy, hqy, hne, _⟩
    · simp at hnil
    · exact hne (congrArg Block.id (Body.definition_unique hb.valid.unique hy hdef.mem hqy hq'))
  | _ => rfl

/-- The register has the value that the instruction would give it now. -/
def Computed (env : Environment α μ) (args : List (Val α)) (i : Instr) (r : Reg) (ρ : Regs α) :
    Prop := ∀ w, ρ r = i.op.value? env (Value.eval env args ρ) w i.ty

/-- Wherever it is available, the result of a computation is what the computation would give. -/
theorem computed_fact (env : Environment α μ) (args : List (Val α)) (hb : b.Regular f m)
    (hdef : b.Defines x done i rest r) (hnum : isNumberable i.op) :
    b.Fact env args I x done i r (Computed env args i r) := by
  have hplain := (hb.valid.uses x hdef.mem).plain done i rest hdef.split (isNumberable_plain hnum)
  have hagree : ∀ {ρ ρ' : Regs α}, (∀ q, b.AvailIn x.id done q → ρ' q = ρ q) →
      ∀ w, i.op.value? env (Value.eval env args ρ') w i.ty =
        i.op.value? env (Value.eval env args ρ) w i.ty := by
    intro ρ ρ' havail w
    refine Op.value?_congr (fun u hu => ?_) w i.ty
    cases u with
    | reg q => exact havail q ((hplain q hu).2 (hb.reached x hdef.mem))
    | _ => rfl
  refine ⟨?_, ?_, ?_⟩
  · intro ρ ρ' hr havail h w
    rw [hr, h w, hagree havail]
  · intro c _ _ _ rest' a w calls regs _ hexec hwrite w'
    rw [Instr.exec_of_pure (isNumberable_pure hnum)] at hexec
    obtain ⟨a', ha', heq⟩ := Option.map_eq_some_iff.mp hexec
    obtain ⟨rfl, rfl, rfl⟩ := Effect.next.inj heq
    rw [Instr.write_result hwrite hdef.result, hagree (ρ := c.regs), ← ha', value?_world hnum]
    · rfl
    · intro q hq
      refine Instr.write_other hwrite fun heq => ?_
      rw [hdef.result] at heq
      exact hdef.not_avail_self hb.valid.unique (Option.some.inj heq ▸ hq)
  · intro c _ _ _ hi
    have hphi := List.mem_takeWhile_imp hi
    simp [isNumberable_plain hnum] at hphi

theorem repeated_fact (env : Environment α μ) (args : List (Val α)) {y : Block}
    {before after : List Instr} {j : Instr} {q : Reg} (hb : b.Regular f m)
    (hdef : b.Defines x done i rest r) (hnum : isNumberable i.op)
    (hdef' : b.Defines y before j after q) (hop : j.op = i.op) (havail : b.AvailIn x.id done q) :
    b.Fact env args (Config.Holds b q (Computed env args j q)) x done i r
      (Body.Equals env args r (.reg q)) := by
  have hv := (Known.repeated hnum hdef' hop havail : Known b x done i r _).standsFor hb hdef
  refine fact_of_computation hb hdef hv hnum fun c hI hx hat a ha => ?_
  have hq := hI done hat (hx ▸ havail) c.world
  rw [hop, ty_eq_of_op_eq hb hdef hdef' hnum hop] at hq
  exact hq.trans ha

/-- Known values may replace the registers they are known for. -/
theorem Known.runs {w : μ} (hb : b.Regular f m)
    (horder : ∀ x ∈ b.blocks, ∀ i ∈ x.instrs, OrdersInts f i) (hdef : b.Defines x done i rest r)
    (h : Known b x done i r v) (hrun : b.Runs env args w o) :
    (b.replaceUses r v).Runs env args w o := by
  cases h with
  | folded hsimp =>
    have hfact : b.Fact env args (fun _ => True) x done i r (Body.Equals env args r v) :=
      folded_fact hb (horder x hdef.mem i (by simp [hdef.split])) hdef hsimp
    exact Body.runs_replaceUses hb hdef hfact (fun _ _ _ => trivial) (fun _ _ _ _ _ => trivial) hrun
  | repeated hnum hdef' hop havail =>
    have hfact := repeated_fact env args hb hdef hnum hdef' hop havail
    have hcomputed := computed_fact env args (I := fun _ => True) hb hdef' (hop ▸ hnum)
    refine Body.runs_replaceUses hb hdef hfact (fun x _ hx => Body.Fact.start b hx w) ?_ hrun
    rintro c c' hI ⟨done, hat⟩ hstep
    exact hcomputed.step hb hdef' trivial hat hI hstep
  | onlyEdge hop =>
    have hfact : b.Fact env args (fun _ => True) x done i r (Body.Equals env args r v) :=
      onlyEdge_fact hb hdef hop
    exact Body.runs_replaceUses hb hdef hfact (fun _ _ _ => trivial) (fun _ _ _ _ _ => trivial) hrun

end SsaCompiler.Optimize
