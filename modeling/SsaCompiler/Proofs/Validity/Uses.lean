import SsaCompiler.Proofs.Validity.Places
import SsaCompiler.Proofs.Validity.Substitution

/-!
Replacing the uses of a register and counting uses look at the same places. What a register loses by a
replacement, the register that stands for it gains, and nothing but operands changes.
-/
namespace SsaCompiler.Ir.Body

theorem useCount_eq_count (b : Body) (q : Reg) : b.useCount q = b.operands.count (.reg q) := by
  unfold useCount uses
  induction b.operands with
  | nil => rfl
  | cons u us ih =>
    rw [List.count_cons, ← ih]
    cases u <;> simp [List.filterMap_cons, Value.reg?, List.count_cons]

/-- A register keeps its uses unless it is the one replaced, and the one that replaces it gains those. -/
theorem useCount_replaceUses (b : Body) (r q : Reg) (v : Value) : (b.replaceUses r v).useCount q =
    (if q = r then 0 else b.useCount q) + if v = .reg q then b.useCount r else 0 := by
  simp only [useCount_eq_count, replaceUses, operands_mapOperands]
  induction b.operands with
  | nil => simp
  | cons u us ih =>
    rw [List.map_cons, List.count_cons, ih, List.count_cons, List.count_cons, Value.replace]
    by_cases hu : u = .reg r
    · rw [if_pos hu]
      grind
    · rw [if_neg hu]
      grind

theorem definition?_mapOperands (b : Body) (σ : Value → Value) (q : Reg) :
    (b.mapOperands σ).definition? q = b.definition? q := by
  simp only [definition?, mapOperands, Block.mapOperands, Instr.mapOperands, List.findSome?_map,
    List.findIdx?_map, Function.comp_def]
  rfl

/-- After its uses are replaced by another value, a register has no uses. If the value is a register, it
has the uses of both, and every other register has the uses it had. The body is the same place by
place, but for the operands that were replaced, and registers are defined where they were. -/
theorem replaceUses_moves_uses (b : Body) (r : Reg) (v : Value) (hne : v ≠ .reg r) :
    (b.replaceUses r v).useCount r = 0 ∧
    (∀ s, v = .reg s → (b.replaceUses r v).useCount s = b.useCount r + b.useCount s) ∧
    (∀ q, q ≠ r → v ≠ .reg q → (b.replaceUses r v).useCount q = b.useCount q) ∧
    b.Like (fun old new => (old = .reg r → new = v) ∧ (old ≠ .reg r → new = old))
      (b.replaceUses r v) ∧
    ∀ q, (b.replaceUses r v).definition? q = b.definition? q := by
  simp only [useCount_replaceUses]
  refine ⟨by simp [hne], fun s hs => ?_, fun q hq hv => by simp [hq, hv],
    like_mapOperands fun u _ => ?_, definition?_mapOperands b _⟩
  · subst hs
    have hsr : s ≠ r := fun heq => hne (congrArg Value.reg heq)
    rw [if_neg hsr, if_pos rfl, Nat.add_comm]
  · unfold Value.replace
    by_cases hu : u = .reg r <;> simp [hu]

/-- A register in an argument, in both operands of a product and on an edge of a phi. -/
def squaring : Body :=
  ⟨[⟨0, "entry", [⟨some 0, .i64, .call "f" []⟩, ⟨some 1, .i64, .call "g" [.reg 0]⟩,
    ⟨some 2, .i64, .binary .mul (.reg 0) (.reg 0)⟩], some (.br 1)⟩,
    ⟨1, "end", [⟨some 3, .i64, .phi [(.reg 0, 0)]⟩], some (.ret (some (.reg 1)))⟩], [], 2⟩

theorem squaring_moves_uses : squaring.useCount 0 = 4 ∧ squaring.useCount 1 = 1 ∧
    (squaring.replaceUses 0 (.reg 1)).useCount 0 = 0 ∧
    (squaring.replaceUses 0 (.reg 1)).useCount 1 = 5 := by
  obtain ⟨hnone, hsum, _⟩ := replaceUses_moves_uses squaring 0 (.reg 1) (by decide)
  exact ⟨by decide, by decide, hnone, hsum 1 rfl⟩

end SsaCompiler.Ir.Body
