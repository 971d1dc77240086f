import SsaCompiler.Proofs.Optimizer.Relabeling
import SsaCompiler.Proofs.Optimizer.Settling

/-!
Thinning out a body. Combining instructions and numbering values drop a definition and put a value in its
place, over and over. All these steps together are one substitution of values and one set of registers
whose definitions go.
-/
namespace SsaCompiler.Ir

/-- What changes when one more register is replaced. -/
theorem Value.changed_of_replace {σ : Value → Value} {u v : Value} {r : Reg}
    (h : Value.replace r v (σ u) ≠ u) : u = .reg r ∨ σ u ≠ u := by
  by_contra hboth
  push Not at hboth
  exact h (by simp [Value.replace, hboth.1, hboth.2])

/-- Whether an instruction stays when the pure definitions of the registers in `gone` go. -/
def Instr.stays (gone : Reg → Bool) (i : Instr) : Bool := !(i.op.isPure && i.result.any gone)

namespace Body

variable {b : Body} {x y : Block} {i j : Instr} {r q : Reg} {v : Value} {σ : Value → Value}
  {gone : Reg → Bool}

/-- A body with `σ` applied to its operands, and without the pure definitions of the registers in
`gone`. -/
def thinned (σ : Value → Value) (gone : Reg → Bool) (b : Body) : Body :=
  (b.mapOperands σ).filterInstrs (Instr.stays gone)

/-- A block of a thinned body comes from one with its number, and each of its instructions from one that
stays. -/
theorem mem_blocks_thinned (hy : y ∈ (b.thinned σ gone).blocks) : ∃ x ∈ b.blocks, y.id = x.id ∧
    y.instrs = (x.instrs.filter (Instr.stays gone)).map (Instr.mapOperands σ) := by
  obtain ⟨z, hz, rfl⟩ := List.mem_map.mp hy
  obtain ⟨x, hx, rfl⟩ := List.mem_map.mp hz
  refine ⟨x, hx, rfl, ?_⟩
  simp only [Block.mapOperands, List.filter_map]
  congr 1
  refine List.filter_congr fun i _ => ?_
  simp [Instr.stays, Instr.mapOperands]

theorem sameFlow_thinned (σ : Value → Value) (gone : Reg → Bool) (b : Body) :
    SameFlow b (b.thinned σ gone) :=
  (sameFlow_mapOperands σ b).trans (sameFlow_filterInstrs _ _)

/-- One instruction defines a register. -/
theorem eq_of_result (hu : b.results.Nodup) (hx : x ∈ b.blocks) (hi : i ∈ x.instrs)
    (hy : y ∈ b.blocks) (hj : j ∈ y.instrs) (hir : i.result = some r) (hjr : j.result = some r) :
    i = j := by
  obtain ⟨done, rest, hsplit⟩ := List.append_of_mem hi
  obtain ⟨before, after, hsplit'⟩ := List.append_of_mem hj
  have hdef : b.Defines x done i rest r := ⟨hx, hsplit, hir⟩
  exact (hdef.unique hu ⟨hy, hsplit', hjr⟩).2.2.1

/-- Filters that agree on the instructions of a body leave the same. -/
theorem filterInstrs_congr {p p' : Instr → Bool}
    (h : ∀ x ∈ b.blocks, ∀ i ∈ x.instrs, p i = p' i) : b.filterInstrs p = b.filterInstrs p' := by
  unfold filterInstrs
  congr 1
  refine List.map_congr_left fun x hx => ?_
  rw [List.filter_congr (h x hx)]

theorem filterInstrs_eq_self {p : Instr → Bool} (h : ∀ x ∈ b.blocks, ∀ i ∈ x.instrs, p i = true) :
    b.filterInstrs p = b := by
  have hblocks : (b.blocks.map fun x => { x with instrs := x.instrs.filter p }) = b.blocks := by
    refine (List.map_congr_left fun x hx => ?_).trans b.blocks.map_id
    rw [List.filter_eq_self.mpr (h x hx), id]
  rw [filterInstrs, hblocks]

theorem filterInstrs_filterInstrs (p p' : Instr → Bool) (b : Body) :
    (b.filterInstrs p).filterInstrs p' = b.filterInstrs fun i => p' i && p i := by
  simp [filterInstrs, List.filter_filter]

theorem thinned_none (b : Body) : b.thinned (fun v => v) (fun _ => false) = b := by
  rw [thinned, mapOperands_id]
  exact filterInstrs_eq_self (by simp [Instr.stays])

/-- Putting a value in the place of a pure definition thins the body out further. -/
theorem thinned_substitute
    (hpure : ∀ x ∈ b.blocks, ∀ i ∈ x.instrs, i.result = some r → i.op.isPure) :
    (b.thinned σ gone).substitute r v =
      b.thinned (Value.replace r v ∘ σ) (fun s => gone s || decide (s = r)) := by
  have hstays : ∀ i, Instr.stays gone (i.mapOperands (.replace r v)) = Instr.stays gone i := by
    simp [Instr.stays, Instr.mapOperands]
  unfold thinned substitute removeDefinition replaceUses
  rw [← filterInstrs_mapOperands hstays, mapOperands_mapOperands, filterInstrs_filterInstrs]
  refine filterInstrs_congr fun x' hx' i' hi' => ?_
  have hpure' : i'.result = some r → i'.op.isPure := by
    obtain ⟨x, hx, rfl⟩ := List.mem_map.mp hx'
    obtain ⟨i, hi, rfl⟩ := List.mem_map.mp hi'
    simpa [Instr.mapOperands] using hpure x hx i hi
  unfold Instr.stays
  cases hres : i'.result with
  | none => simp
  | some s =>
    by_cases hsr : s = r
    · simp [hsr, hpure' (hsr ▸ hres)]
    · simp [hsr]

end Body

end SsaCompiler.Ir
