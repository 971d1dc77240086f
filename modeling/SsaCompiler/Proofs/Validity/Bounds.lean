import SsaCompiler.Proofs.Validity.Availability

/-!
Places in arrays. An array is indexed by constants and by the counts of loops. A loop counts from
zero in a phi; the next count is compared with the number of elements before control enters the block
that uses it, and from that block control goes back to the phi.
-/
namespace SsaCompiler.Ir

/-- A constant that is a place in an array of `len` elements, as a number of the index type. -/
def Value.Within (len : Nat) (v : Value) : Prop := ∃ i < len, v = .int (Int64.ofNat i)

namespace Body

/-- Wherever `r` is computed, it is computed by `op`. -/
def Always (b : Body) (r : Reg) (op : Op) : Prop :=
  ∀ x ∈ b.blocks, ∀ i ∈ x.instrs, i.result = some r → i.op = op

/-- Control enters the block `v` only by the first arm of branches on `c`. -/
structure EnteredIf (b : Body) (c : Value) (v : BlockId) : Prop where
  inner : v ≠ b.entry
  branches : ∀ p ∈ b.blocks, v ∈ p.targets → ∃ e, p.term = some (.condBr c v e) ∧ e ≠ v

/-- In the block `u` the register `n` is one more than the counter `c`, and a test has shown that it
is less than `len`. From there control goes to `h`, where the loop begins. -/
structure Climbs (b : Body) (len : Nat) (h : BlockId) (c n : Reg) (u : BlockId) : Prop where
  next : b.Always n (.binary .add (.reg c) (.int 1))
  test : ∃ m, b.Always m (.icmp .slt (.reg n) (.int (Int64.ofNat len))) ∧ b.EnteredIf (.reg m) u
  leaves : ∀ p ∈ b.blocks, p.id = u → p.term = some (.br h)

/-- The block `h` counts in the phi `c` from zero on and as long as the count is less than `len`. -/
structure Counts (b : Body) (len : Nat) (h : BlockId) (c : Reg) (incoming : List (Value × BlockId)) :
    Prop where
  positive : 0 < len
  home : ∃ x ∈ b.blocks, x.id = h ∧ ∃ i ∈ x.instrs, i.result = some c ∧ i.op = .phi incoming
  edges : ∀ e ∈ incoming, e.1 = .int 0 ∨ ∃ n, e.1 = .reg n ∧ b.Climbs len h c n e.2

/-- In the block `u`, `v` is a place in an array of `len` elements: a constant, or the next count of
a loop. -/
def Places (b : Body) (len : Nat) (u : BlockId) (v : Value) : Prop :=
  v.Within len ∨ ∃ h c incoming n, b.Counts len h c incoming ∧ v = .reg n ∧ (v, u) ∈ incoming

/-- Arrays are indexed by their places only. -/
def Bounded (f : Function) (b : Body) : Prop :=
  ∀ x ∈ b.blocks, ∀ i ∈ x.instrs, ∀ base v, i.op = .elementPtr base v →
    ∃ elem len, f.typeOf base = .ptr (.array elem len) ∧ b.Places len x.id v

variable {b : Body} {f : Function} {m : Module} {x y : Block} {done rest : List Instr} {i : Instr}
  {q r c n : Reg} {op : Op} {len : Nat} {h u : BlockId} {incoming : List (Value × BlockId)}

theorem Counts.climbs (hcounts : b.Counts len h c incoming) (hmem : (.reg n, u) ∈ incoming) :
    b.Climbs len h c n u := by
  rcases hcounts.edges _ hmem with hzero | ⟨n', hn, hclimbs⟩
  · cases hzero
  · obtain rfl := Value.reg.inj hn
    exact hclimbs

theorem Always.of_defines (halways : b.Always r op) (hdef : b.Defines x done i rest r) : i.op = op :=
  halways x hdef.mem i (by simp [hdef.split]) hdef.result

theorem always_of_defines (hu : b.results.Nodup) (hdef : b.Defines x done i rest r) :
    b.Always r i.op := by
  intro y hy j hj hres
  obtain ⟨before, after, hsplit⟩ := List.append_of_mem hj
  obtain ⟨_, _, rfl, _⟩ := hdef.unique hu ⟨hy, hsplit, hres⟩
  rfl

/-- What a computation reads is available wherever its result is. -/
theorem Always.avail_operand (hb : b.Regular f m) (halways : b.Always r op)
    (hplain : op.isPhi = false) (hq : .reg q ∈ op.operands) (hx : x ∈ b.blocks)
    (hsplit : x.instrs = done ++ rest) (havail : b.AvailIn x.id done r) :
    b.AvailIn x.id done q := by
  obtain ⟨y, hy, hr⟩ := mem_results.mp (havail.mem_results hx hsplit)
  obtain ⟨before, j, after, hdef⟩ := exists_defines hy hr
  obtain rfl := halways.of_defines hdef
  have hoperand := ((hb.valid.uses y hy).plain before j after hdef.split hplain q hq).2
    (hb.reached y hy)
  exact hdef.avail_trans hb.valid.unique hoperand hx (hb.reached x hx) hsplit havail

theorem Always.avail_out_operand (hb : b.Regular f m) (halways : b.Always r op)
    (hplain : op.isPhi = false) (hq : .reg q ∈ op.operands) (hx : x ∈ b.blocks)
    (havail : b.AvailOut x.id r) : b.AvailOut x.id q :=
  (halways.avail_operand hb hplain hq hx (List.append_nil _).symm
    (havail.inside hb.ids hx)).out hx

/-- The test that leads into a block is available where the branch is. -/
theorem EnteredIf.avail {z : Reg} (hentered : b.EnteredIf (.reg z) u) (hb : b.Valid f m)
    (hx : x ∈ b.blocks) (hedge : u ∈ x.targets) : b.AvailOut x.id z := by
  obtain ⟨e, hterm, _⟩ := hentered.branches x hx hedge
  exact (hb.uses x hx).term _ hterm z (by simp [Terminator.operands])

/-- The block that uses the next count does not compute it: it would then come before every way into
itself. -/
theorem Climbs.not_mem_definedBy (hclimbs : b.Climbs len h c n x.id) (hb : b.Regular f m)
    (hx : x ∈ b.blocks) : n ∉ definedBy x.instrs := by
  intro hn
  obtain ⟨z, htest, hentered⟩ := hclimbs.test
  obtain ⟨_, ⟨p, hp, rfl, hedge⟩, hpath⟩ := Reach.entered (hb.reached x hx) (Ne.symm hentered.inner)
  obtain ⟨y, hy, hdef, hdom⟩ := htest.avail_out_operand (q := n) hb rfl (by simp [Op.operands]) hp
    (hentered.avail hb.valid hp hedge)
  obtain rfl := definition_unique hb.valid.unique hx hy hn hdef
  exact hdom hpath

end Body

end SsaCompiler.Ir
