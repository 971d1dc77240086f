import SsaCompiler.Proofs.Meaning.Known
import SsaCompiler.Proofs.Validity.Bounds

/-!
Runs stay within arrays. The counter of a loop is never negative, and it is less than the number of
elements once control has come back to the loop: the next count was then compared with that number.
So every instruction that a run comes to, if it takes the address of an element, takes one that is
there.
-/
namespace SsaCompiler.Ir

variable {α μ : Type} {env : Environment α μ} {args : List (Val α)} {b : Body} {f : Function}
  {m : Module} {len : Nat} {h u : BlockId} {c n : Reg} {incoming : List (Value × BlockId)}
  {cfg cfg' : Config α μ} {ρ : Regs α} {w : μ}

/-- The number of elements as the test has it, which is never too large. -/
theorem toInt_ofNat_le (len : Nat) : (Int64.ofNat len).toInt ≤ len := by
  rw [Int64.toInt_ofNat', Int.bmod_def]
  simp only [Int64.size]
  omega

/-- The register holds the count of a loop over `len` elements. -/
def Counting (len : Nat) (c : Reg) (ρ : Regs α) : Prop :=
  ∃ k : Int64, ρ c = some (.int k) ∧ 0 ≤ k.toInt ∧ (k = 0 ∨ k.toInt < (Int64.ofNat len).toInt)

/-- The register holds a count for which the test has succeeded. -/
def Passed (len : Nat) (n : Reg) (ρ : Regs α) : Prop :=
  ∃ k : Int64, ρ n = some (.int k) ∧ 0 ≤ k.toInt ∧ k.toInt < (Int64.ofNat len).toInt

/-- The next count does not wrap around. -/
theorem toInt_next {k : Int64} (hk : 0 ≤ k.toInt)
    (hless : k = 0 ∨ k.toInt < (Int64.ofNat len).toInt) : (k + 1).toInt = k.toInt + 1 := by
  have hlen := (Int64.ofNat len).toInt_lt
  have hone : (1 : Int64).toInt = 1 := rfl
  have hbound : k.toInt + 1 < 2 ^ 63 := by
    rcases hless with rfl | hless
    · decide
    · omega
  rw [Int64.toInt_add, hone, Int.bmod_def]
  omega

/-- The test of the next count, if it succeeds. -/
theorem Counting.passed {z : Reg} (hc : Counting len c ρ)
    {ty ty' : Ty} (hnext : ∀ w : μ, ρ n = (Op.binary .add (.reg c) (.int 1)).value? env
      (Value.eval env args ρ) w ty)
    (htest : ∀ w : μ, ρ z = (Op.icmp .slt (.reg n) (.int (Int64.ofNat len))).value? env
      (Value.eval env args ρ) w ty')
    (w : μ) (htrue : ρ z = some (.bool true)) : Passed len n ρ := by
  obtain ⟨k, hk, hpos, hless⟩ := hc
  have hn : ρ n = some (.int (k + 1)) := by
    rw [hnext w]
    simp [Op.value?, Value.eval, hk, Constant.eval, BinOp.onValues?, BinOp.onInts?]
  have hbelow : (k + 1).toInt < (Int64.ofNat len).toInt := by
    rw [htest w] at htrue
    simpa [Op.value?, Value.eval, hn, Constant.eval, IntPred.onValues?, IntPred.onInts,
      Int64.lt_iff_toInt_lt] using htrue
  refine ⟨k + 1, hn, ?_, hbelow⟩
  rw [toInt_next hpos hless]
  omega

/-- Every computation that is available has the value that it would have now. -/
def Config.Current (env : Environment α μ) (args : List (Val α)) (b : Body) (cfg : Config α μ) :
    Prop :=
  ∀ x done i rest r, b.Defines x done i rest r → Optimize.isNumberable i.op = true →
    cfg.Holds b r (Optimize.Computed env args i r)

theorem Config.Current.step (hcur : cfg.Current env args b) (hb : b.Regular f m)
    {done : List Instr} (hat : cfg.At b done) (hstep : cfg.Step env b args cfg') :
    cfg'.Current env args b := by
  intro x done0 i rest r hdef hnum
  have hfact := Optimize.computed_fact (I := fun _ => True) env args hb hdef hnum
  exact hfact.step hb hdef trivial hat (hcur x done0 i rest r hdef hnum) hstep

/-- What holds of the loop that counts in `c` wherever a run stands. -/
structure Config.Tracks (env : Environment α μ) (args : List (Val α)) (b : Body) (len : Nat)
    (h : BlockId) (c : Reg) (cfg : Config α μ) : Prop where
  place : ∃ done, cfg.At b done
  current : cfg.Current env args b
  counter : cfg.Holds b c (Counting len c)
  inside : ∀ n, b.Climbs len h c n cfg.block.id → Passed len n cfg.regs

namespace Body

variable {x : Block} {done rest : List Instr} {i : Instr} {r : Reg} {op : Op}

/-- The value of a computation that is available. -/
theorem Always.computed (halways : b.Always r op)
    (hcur : cfg.Current env args b) (hat : cfg.At b done) (havail : b.AvailIn cfg.block.id done r)
    (hnum : Optimize.isNumberable op = true) :
    ∃ ty, ∀ w, cfg.regs r = op.value? env (Value.eval env args cfg.regs) w ty := by
  obtain ⟨y, hy, hr⟩ := mem_results.mp (havail.mem_results hat.mem hat.split)
  obtain ⟨before, j, after, hdef⟩ := exists_defines hy hr
  obtain rfl := halways.of_defines hdef
  exact ⟨j.ty, hcur y before j after r hdef hnum done hat havail⟩

/-- The branch into a block that uses the next count is taken only if the test has succeeded. -/
theorem Climbs.passed (hclimbs : b.Climbs len h c n u) (hb : b.Regular f m)
    (hcur : cfg.Current env args b) (hcounter : cfg.Holds b c (Counting len c))
    (hat : cfg.At b done) (hrest : cfg.rest = []) {t : Terminator} (hterm : cfg.block.term = some t)
    (hgoes : t.goesTo? (cfg.eval env args) = some u) : Passed len n cfg.regs := by
  obtain ⟨z, htest, hentered⟩ := hclimbs.test
  have hall : cfg.At b cfg.block.instrs := ⟨hat.mem, by simp [hrest]⟩
  have hsplit : cfg.block.instrs = cfg.block.instrs ++ [] := (List.append_nil _).symm
  have hedge := (Block.mem_targets_of_term hterm).mpr (Terminator.goesTo?_mem hgoes)
  obtain ⟨e, hbranch, hne⟩ := hentered.branches _ hat.mem hedge
  have havail := (hentered.avail hb.valid hat.mem hedge).inside hb.ids hat.mem
  have havailn : b.AvailIn cfg.block.id cfg.block.instrs n :=
    htest.avail_operand hb rfl (by simp [Op.operands]) hat.mem hsplit havail
  have havailc : b.AvailIn cfg.block.id cfg.block.instrs c :=
    hclimbs.next.avail_operand hb rfl (by simp [Op.operands]) hat.mem hsplit havailn
  have htrue : cfg.regs z = some (.bool true) := by
    obtain rfl := Option.some.inj (hterm.symm.trans hbranch)
    simp only [Terminator.goesTo?, Config.eval, Value.eval] at hgoes
    split at hgoes
    · assumption
    · exact absurd (Option.some.inj hgoes) hne
    · cases hgoes
  obtain ⟨ty, hnext⟩ := hclimbs.next.computed hcur hall havailn rfl
  obtain ⟨ty', htested⟩ := htest.computed hcur hall havail rfl
  exact (hcounter _ hall havailc).passed hnext htested cfg.world htrue

/-- The next count is not one of the phis of a block. -/
theorem Climbs.not_mem_phis (hclimbs : b.Climbs len h c n u) (hx : x ∈ b.blocks) :
    n ∉ definedBy x.phis := by
  intro hn
  obtain ⟨j, hj, hres⟩ := mem_definedBy.mp hn
  have hphi := List.mem_takeWhile_imp hj
  rw [hclimbs.next x hx j (List.takeWhile_subset _ hj) hres] at hphi
  cases hphi

/-- The phi counts: it starts with zero, and the count that comes back has passed the test. -/
theorem Counts.fact (hcounts : b.Counts len h c incoming) (hb : b.Regular f m)
    (hdef : b.Defines x done i rest c) (hop : i.op = .phi incoming) :
    b.Fact env args (Config.Tracks env args b len h c) x done i c (Counting len c) := by
  refine ⟨?_, ?_, ?_⟩
  · rintro ρ ρ' hsame _ ⟨k, hk, hless⟩
    exact ⟨k, hsame.trans hk, hless⟩
  · intro cfg _ _ _ rest' a w calls regs _ hexec _
    rw [Instr.exec_phi (by simp [hop, Op.isPhi])] at hexec
    cases hexec
  · intro cfg htracks hlead _ hi _ _
    have hmem : i ∈ x.instrs := List.takeWhile_subset _ hi
    have hedge := (((hb.valid.shape x hdef.mem).edges i hmem incoming hop).2 cfg.block.id).mpr hlead
    obtain ⟨e, hfind⟩ : ∃ e, incoming.find? (·.2 = cfg.block.id) = some e := by
      obtain ⟨e, he, hsource⟩ := List.mem_map.mp hedge
      exact Option.isSome_iff_exists.mp (List.find?_isSome.mpr ⟨e, he, by simpa using hsource⟩)
    have hsource : e.2 = cfg.block.id := by simpa using List.find?_some hfind
    have hnd : (definedBy x.phis).Nodup :=
      ((List.takeWhile_sublist _).filterMap _).nodup (nodup_definedBy hb.valid.unique hdef.mem)
    have hvalue : (cfg.enter env args x).regs c = cfg.eval env args e.1 := by
      refine (phiRegs_result hnd hi hdef.result).trans ?_
      simp [hop, Op.phiValue?, hfind]
    rcases hcounts.edges e (List.mem_of_find?_eq_some hfind) with hzero | ⟨n, hn, hclimbs⟩
    · rw [hzero] at hvalue
      exact ⟨0, hvalue, Int.le_refl 0, .inl rfl⟩
    · rw [hsource] at hclimbs
      obtain ⟨k, hk, hpos, hless⟩ := htracks.inside n hclimbs
      rw [hn] at hvalue
      exact ⟨k, hvalue.trans hk, hpos, .inr hless⟩

end Body

namespace Config.Tracks

theorem start {x : Block} (hx : b.blocks.head? = some x) (w : μ) :
    (x.start w : Config α μ).Tracks env args b len h c := by
  have hmem : x ∈ b.blocks := List.mem_of_mem_head? hx
  have hentry : x.id = b.entry := (Body.entry_of_head hx).symm
  refine ⟨⟨_, .start hmem w⟩, fun _ _ _ _ _ _ _ => Body.Fact.start b hentry w,
    Body.Fact.start b hentry w, fun n hclimbs => ?_⟩
  obtain ⟨_, _, hentered⟩ := hclimbs.test
  exact absurd hentry hentered.inner

/-- A step keeps track of the loop. -/
theorem step (htracks : cfg.Tracks env args b len h c) (hb : b.Regular f m)
    (hcounts : b.Counts len h c incoming) (hstep : cfg.Step env b args cfg') :
    cfg'.Tracks env args b len h c := by
  obtain ⟨done, hat⟩ := htracks.place
  obtain ⟨x, hx, _, i, hi, hres, hop⟩ := hcounts.home
  obtain ⟨before, after, hsplit⟩ := List.append_of_mem hi
  have hdef : b.Defines x before i after c := ⟨hx, hsplit, hres⟩
  refine ⟨hstep.at hb.ids hat, htracks.current.step hb hat hstep,
    (hcounts.fact hb hdef hop).step hb hdef htracks hat htracks.counter hstep, ?_⟩
  intro n hclimbs
  cases hstep with
  | @instr j rest v w calls regs hrest _ hwrite =>
    obtain ⟨k, hk, hless⟩ := htracks.inside n hclimbs
    have hother : j.result ≠ some n := fun hres =>
      hclimbs.not_mem_definedBy hb hat.mem
        (mem_definedBy.mpr ⟨j, by simp [hat.split, hrest], hres⟩)
    exact ⟨k, (Instr.write_other hwrite hother).trans hk, hless⟩
  | @jump t y hrest hterm hgoes hy =>
    obtain ⟨hy, _⟩ := (Body.block?_eq_some hb.ids).mp hy
    obtain ⟨k, hk, hless⟩ :=
      hclimbs.passed hb htracks.current htracks.counter hat hrest hterm hgoes
    exact ⟨k, (phiRegs_other (hclimbs.not_mem_phis hy)).trans hk, hless⟩

end Config.Tracks

/-- A run from the first block of a body comes to the state `cfg`. -/
def Body.ComesTo (env : Environment α μ) (b : Body) (args : List (Val α)) (w : μ)
    (cfg : Config α μ) : Prop :=
  ∃ x, b.blocks.head? = some x ∧
    Relation.ReflTransGen (Config.Step env b args) (x.start w) cfg

theorem Body.ComesTo.start {x : Block} (hx : b.blocks.head? = some x) :
    b.ComesTo env args w (x.start w) := ⟨x, hx, .refl⟩

theorem Body.ComesTo.step (hcomes : b.ComesTo env args w cfg) (hstep : cfg.Step env b args cfg') :
    b.ComesTo env args w cfg' := by
  obtain ⟨x, hx, hsteps⟩ := hcomes
  exact ⟨x, hx, hsteps.tail hstep⟩

theorem Body.ComesTo.tracks (hcomes : b.ComesTo env args w cfg) (hb : b.Regular f m)
    (hcounts : b.Counts len h c incoming) : cfg.Tracks env args b len h c := by
  obtain ⟨x, hx, hsteps⟩ := hcomes
  induction hsteps with
  | refl => exact .start hx w
  | tail _ hstep ih => exact ih.step hb hcounts hstep

theorem Body.ComesTo.at (hcomes : b.ComesTo env args w cfg) (hb : b.ids.Nodup) :
    ∃ done, cfg.At b done := by
  obtain ⟨x, hx, hsteps⟩ := hcomes
  induction hsteps with
  | refl => exact ⟨_, .start (List.mem_of_mem_head? hx) w⟩
  | tail _ hstep ih =>
    obtain ⟨done, hat⟩ := ih
    exact hstep.at hb hat

/-- Where a run takes the address of an element, the index is the number of an element. -/
theorem Body.Bounded.index (hbounded : b.Bounded f) (hb : b.Regular f m)
    (hcomes : b.ComesTo env args w cfg) {i : Instr} {rest : List Instr} {base v : Value}
    (hrest : cfg.rest = i :: rest) (hop : i.op = .elementPtr base v) :
    ∃ elem len, f.typeOf base = .ptr (.array elem len) ∧
      ∃ i < len, cfg.eval env args v = some (.int (Int64.ofNat i)) := by
  obtain ⟨done, hat⟩ := hcomes.at hb.ids
  have hi : i ∈ cfg.block.instrs := by simp [hat.split, hrest]
  obtain ⟨elem, len, hty, hplaces⟩ := hbounded _ hat.mem i hi base v hop
  refine ⟨elem, len, hty, ?_⟩
  rcases hplaces with ⟨i, hi, rfl⟩ | ⟨h, c, incoming, n, hcounts, rfl, hmem⟩
  · exact ⟨i, hi, rfl⟩
  · obtain ⟨k, hk, hpos, hless⟩ := (hcomes.tracks hb hcounts).inside n (hcounts.climbs hmem)
    have hbelow := Int.lt_of_lt_of_le hless (toInt_ofNat_le len)
    have hnat : Int64.ofNat k.toInt.toNat = k := by
      rw [← Int64.ofInt_eq_ofNat, Int.toNat_of_nonneg hpos, Int64.ofInt_toInt]
    exact ⟨k.toInt.toNat, by omega, hnat.symm ▸ hk⟩

end SsaCompiler.Ir
