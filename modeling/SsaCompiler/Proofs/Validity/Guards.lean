import SsaCompiler.Ir.Arith
import SsaCompiler.Proofs.Validity.Availability
import SsaCompiler.Proofs.Validity.Walks

/-!
Guarded divisions. A block that divides floats is guarded if control enters it only by the second
arm of branches on one test of the divisor, or if the divisor is a constant other than zero. In a
valid body this means that every walk to the division has computed the test and has then taken such
a branch.
-/
namespace SsaCompiler.Ir

/-- A constant that is told from zero. -/
def Value.Nonzero (d : Value) : Prop := ∃ c, d = .float c ∧ FloatPred.oeq.onFloats c .zero = false

namespace Body

/-- Wherever `z` is computed, it tells whether `d` is zero. -/
def TestsZero (b : Body) (z : Reg) (d : Value) : Prop :=
  ∀ x ∈ b.blocks, ∀ i ∈ x.instrs, i.result = some z → i.op = .fcmp .oeq d (.float .zero)

/-- Control enters the block `v` only by the second arm of branches on `c`. -/
structure EnteredOn (b : Body) (c : Value) (v : BlockId) : Prop where
  inner : v ≠ b.entry
  branches : ∀ p ∈ b.blocks, v ∈ p.targets → ∃ t, p.term = some (.condBr c t v) ∧ t ≠ v

/-- Control enters the block `v` only where a test has shown that `d` is not zero. -/
def Guarded (b : Body) (v : BlockId) (d : Value) : Prop :=
  ∃ z, b.TestsZero z d ∧ b.EnteredOn (.reg z) v

/-- Every division of floats is guarded. In a body that is `lax`, the branch may have been decided
against the division. -/
def Careful (lax : Bool) (b : Body) : Prop :=
  ∀ x ∈ b.blocks, ∀ i ∈ x.instrs, ∀ l d, i.op = .binary .fdiv l d →
    d.Nonzero ∨ b.Guarded x.id d ∨ lax = true ∧ b.EnteredOn (.bool true) x.id

variable {b : Body} {f : Function} {m : Module} {x : Block} {z : Reg} {d : Value}

/-- A guarded block does not compute the test itself: it would then come before every way into
it. -/
theorem EnteredOn.not_mem_definedBy (h : b.EnteredOn (.reg z) x.id) (hb : b.Valid f m)
    (hx : x ∈ b.blocks) (hreach : b.Reaches x.id) : z ∉ definedBy x.instrs := by
  intro hz
  obtain ⟨u, ⟨p, hp, rfl, hedge⟩, hpath⟩ := Reach.entered hreach (Ne.symm h.inner)
  obtain ⟨t, hterm, _⟩ := h.branches p hp hedge
  obtain ⟨y, hy, hdef, hdom⟩ := (hb.uses p hp).term _ hterm z (by simp [Terminator.operands])
  obtain rfl := definition_unique hb.unique hx hy hz hdef
  exact hdom hpath

/-- What a walk to a guarded division has done. Its last step was the second arm of a branch on a
test of the divisor, the test was computed before, and it is not computed again up to the
division. -/
theorem Guarded.walk {before : List Block} (h : b.Guarded x.id d) (hids : b.ids.Nodup)
    (hb : b.Valid f m) (hwalk : b.Walk (before ++ [x])) :
    ∃ front p z t, before = front ++ [p] ∧ p.term = some (.condBr (.reg z) t x.id) ∧ t ≠ x.id ∧
      (∃ j ∈ trace before, j.result = some z ∧ j.op = .fcmp .oeq d (.float .zero)) ∧
      b.TestsZero z d ∧ z ∉ definedBy x.instrs := by
  obtain ⟨z, htest, hentered⟩ := h
  have hx := hwalk.last_mem
  have hnot := hentered.not_mem_definedBy hb hx hwalk.reaches
  rcases before.eq_nil_or_concat' with rfl | ⟨front, p, rfl⟩
  · have hhead : b.blocks.head? = some x := hwalk.start.symm
    exact absurd (entry_of_head hhead).symm hentered.inner
  · obtain ⟨hfront, _, hedge⟩ := hwalk.back
    have hp := hfront.last_mem
    obtain ⟨t, hterm, hne⟩ := hentered.branches p hp (Block.mem_targets.mpr hedge)
    have havail := (hb.uses p hp).term _ hterm z (by simp [Terminator.operands])
    obtain ⟨j, hj, hres⟩ := mem_definedBy.mp (hfront.defined_out hids havail)
    obtain ⟨y, hy, hjy⟩ := List.mem_flatMap.mp hj
    exact ⟨front, p, z, t, rfl, hterm, hne, ⟨j, hj, hres, htest y (hfront.mem hy) j hjy hres⟩,
      htest, hnot⟩

end Body

end SsaCompiler.Ir
