import SsaCompiler.Ir.Verify
import SsaCompiler.Proofs.Flow.Blocks
import Mathlib.Data.List.Lattice
import Mathlib.Data.List.Pairwise

/-!
The rules of well-formed bodies, stated without the order in which they are checked. A use of a
register asks that its definition lies on every way to the use: in a block that dominates the place
of the use, and in the same block before it. A phi uses its values at the ends of the blocks they
come from.
-/
namespace SsaCompiler.Ir

/-- The registers that instructions define, in order. -/
def definedBy (is : List Instr) : List Reg := is.filterMap (·.result)

theorem mem_definedBy {is : List Instr} {r : Reg} :
    r ∈ definedBy is ↔ ∃ i ∈ is, i.result = some r := List.mem_filterMap

@[simp] theorem definedBy_nil : definedBy [] = [] := rfl

@[simp] theorem definedBy_append (is js : List Instr) :
    definedBy (is ++ js) = definedBy is ++ definedBy js := List.filterMap_append

theorem definedBy_cons (i : Instr) (is : List Instr) :
    definedBy (i :: is) = i.result.toList ++ definedBy is := by
  unfold definedBy
  cases h : i.result with
  | none => simp [h]
  | some r => simp [h]

theorem definedBy_subset {is js : List Instr} (h : ∀ i ∈ is, i ∈ js) {r : Reg}
    (hr : r ∈ definedBy is) : r ∈ definedBy js := by
  obtain ⟨i, hi, hres⟩ := mem_definedBy.mp hr
  exact mem_definedBy.mpr ⟨i, h i hi, hres⟩

theorem Op.isPhi_iff {op : Op} : op.isPhi = true ↔ ∃ incoming, op = .phi incoming := by
  cases op <;> simp [isPhi]

theorem Op.ne_phi {op : Op} (h : op.isPhi = false) (incoming : List (Value × BlockId)) :
    op ≠ .phi incoming := by
  rintro rfl
  simp [isPhi] at h

/-- Nothing but phis stands before a phi. -/
def PhisFirst (is : List Instr) : Prop := is.Pairwise fun i j => j.op.isPhi → i.op.isPhi

theorem phisFirst_cons {i : Instr} {is : List Instr} : PhisFirst (i :: is) ↔
    if i.op.isPhi then PhisFirst is else ∀ j ∈ is, j.op.isPhi = false := by
  unfold PhisFirst
  rw [List.pairwise_cons]
  cases hphi : i.op.isPhi with
  | true => simp
  | false =>
    simp only [Bool.false_eq_true, imp_false, Bool.not_eq_true, if_false, and_iff_left_iff_imp]
    exact fun h => List.pairwise_of_forall_mem_list fun j _ k hk hphi => by simp [h k hk] at hphi

theorem PhisFirst.plain_behind {is : List Instr} (h : PhisFirst is) {i : Instr}
    (hi : i ∈ is.dropWhile (·.op.isPhi)) : i.op.isPhi = false := by
  induction is with
  | nil => simp at hi
  | cons j is ih =>
    rw [phisFirst_cons] at h
    cases hphi : j.op.isPhi with
    | true => exact ih (by simpa [hphi] using h) (by simpa [hphi] using hi)
    | false =>
      have hmem : i = j ∨ i ∈ is := by simpa [hphi] using hi
      rcases hmem with rfl | hmem
      · exact hphi
      · simp only [hphi, Bool.false_eq_true, if_false] at h
        exact h i hmem

namespace Body

variable {b : Body} {x y : Block} {r : Reg} {place : BlockId} {done rest : List Instr} {i : Instr}

/-- `r` is defined wherever control leaves `place`. -/
def AvailOut (b : Body) (place : BlockId) (r : Reg) : Prop :=
  ∃ x ∈ b.blocks, r ∈ definedBy x.instrs ∧ b.Dominates x.id place

/-- `r` is defined behind the first instructions `done` of the block `place`. -/
def AvailIn (b : Body) (place : BlockId) (done : List Instr) (r : Reg) : Prop :=
  r ∈ definedBy done ∨
    ∃ x ∈ b.blocks, r ∈ definedBy x.instrs ∧ x.id ≠ place ∧ b.Dominates x.id place

/-- The edges of a phi are the edges into its block, each once. -/
def OneEdgeEach (b : Body) (place : BlockId) (incoming : List (Value × BlockId)) : Prop :=
  (incoming.map (·.2)).Nodup ∧ ∀ p, p ∈ incoming.map (·.2) ↔ b.Leads p place

/-- The rules for the shape and the types of a block in a function of the given type. -/
structure ShapeOk (f : Function) (m : Module) (b : Body) (x : Block) : Prop where
  term : ∃ t, x.term = some t ∧ (∀ s ∈ t.successors, s ∈ b.ids) ∧ f.checkTerm t = .ok ()
  phisFirst : PhisFirst x.instrs
  edges : ∀ i ∈ x.instrs, ∀ incoming, i.op = .phi incoming → b.OneEdgeEach x.id incoming
  typed : ∀ i ∈ x.instrs, f.checkOp m i.ty i.op = .ok ()

/-- The rules for the uses of registers in a block. -/
structure UsesOk (b : Body) (x : Block) : Prop where
  plain : ∀ done i rest, x.instrs = done ++ i :: rest → i.op.isPhi = false →
    ∀ r, .reg r ∈ i.op.operands → r ∈ b.results ∧ (b.Reaches x.id → b.AvailIn x.id done r)
  phi : b.Reaches x.id → ∀ i ∈ x.instrs, ∀ incoming, i.op = .phi incoming →
    ∀ r source, (.reg r, source) ∈ incoming → b.AvailOut source r
  term : ∀ t, x.term = some t → ∀ r, .reg r ∈ t.operands → b.AvailOut x.id r

/-- The rules for a body of a function. -/
structure Valid (f : Function) (m : Module) (b : Body) : Prop where
  nonempty : b.blocks ≠ []
  start : ∀ u, ¬ b.Leads u b.entry
  unique : b.results.Nodup
  shape : ∀ x ∈ b.blocks, b.ShapeOk f m x
  uses : ∀ x ∈ b.blocks, b.UsesOk x

theorem mem_results : r ∈ b.results ↔ ∃ x ∈ b.blocks, r ∈ definedBy x.instrs := List.mem_flatMap

/-- A register is defined in one block. -/
theorem definition_unique (hu : b.results.Nodup) (hx : x ∈ b.blocks) (hy : y ∈ b.blocks)
    (hrx : r ∈ definedBy x.instrs) (hry : r ∈ definedBy y.instrs) : x = y := by
  by_contra hne
  have hsymm : Std.Symm (Function.onFun List.Disjoint
      fun x : Block => x.instrs.filterMap (·.result)) := ⟨fun _ _ h => h.symm⟩
  exact (List.nodup_flatMap.mp hu).2.forall hx hy hne hrx hry

theorem nodup_definedBy (hu : b.results.Nodup) (hx : x ∈ b.blocks) :
    (definedBy x.instrs).Nodup := (List.nodup_flatMap.mp hu).1 x hx

/-- No register is defined twice if that is so within each block and between any two. -/
theorem nodup_results (hb : b.ids.Nodup) (hself : ∀ x ∈ b.blocks, (definedBy x.instrs).Nodup)
    (hother : ∀ x ∈ b.blocks, ∀ y ∈ b.blocks, x.id ≠ y.id →
      (definedBy x.instrs).Disjoint (definedBy y.instrs)) : b.results.Nodup := by
  refine List.nodup_flatMap.mpr ⟨hself, ?_⟩
  have hdistinct : b.blocks.Pairwise fun x y => x.id ≠ y.id := List.pairwise_map.mp hb
  exact hdistinct.imp_of_mem fun hx hy hne => hother _ hx _ hy hne

/-- Two places in one list of instructions that define the same register are the same. -/
theorem split_unique {is done done' rest rest' : List Instr} {i i' : Instr} {r : Reg}
    (hnd : (definedBy is).Nodup) (h : is = done ++ i :: rest) (h' : is = done' ++ i' :: rest')
    (hi : i.result = some r) (hi' : i'.result = some r) :
    done = done' ∧ i = i' ∧ rest = rest' := by
  have hnot : ∀ {done i rest}, is = done ++ i :: rest → i.result = some r →
      r ∉ definedBy done ∧ r ∉ definedBy rest := by
    intro done i rest heq hres
    rw [heq, definedBy_append, definedBy_cons, hres, List.nodup_append] at hnd
    obtain ⟨_, hright, hdisj⟩ := hnd
    simp only [Option.toList_some, List.singleton_append, List.nodup_cons] at hright
    exact ⟨fun hmem => hdisj r hmem r (by simp) rfl, hright.1⟩
  obtain ⟨hdone, hrest⟩ := hnot h hi
  obtain ⟨hdone', hrest'⟩ := hnot h' hi'
  have heq : done ++ i :: rest = done' ++ i' :: rest' := h.symm.trans h'
  rcases List.append_eq_append_iff.mp heq with ⟨mid, hmid, htail⟩ | ⟨mid, hmid, htail⟩
  · cases mid with
    | nil =>
      simp only [List.append_nil, List.nil_append, List.cons.injEq] at hmid htail
      exact ⟨hmid.symm, htail.1, htail.2⟩
    | cons j js =>
      simp only [List.cons_append, List.cons.injEq] at htail
      refine absurd ?_ hdone'
      rw [hmid]
      exact mem_definedBy.mpr ⟨j, by simp, by rw [← htail.1]; exact hi⟩
  · cases mid with
    | nil =>
      simp only [List.append_nil, List.nil_append, List.cons.injEq] at hmid htail
      exact ⟨hmid, htail.1.symm, htail.2.symm⟩
    | cons j js =>
      simp only [List.cons_append, List.cons.injEq] at htail
      refine absurd ?_ hdone
      rw [hmid]
      exact mem_definedBy.mpr ⟨j, by simp, by rw [← htail.1]; exact hi'⟩

/-- Behind all instructions of a block, what is available is available where control leaves it. -/
theorem AvailIn.out (hx : x ∈ b.blocks) (h : b.AvailIn x.id x.instrs r) : b.AvailOut x.id r := by
  rcases h with hr | ⟨y, hy, hr, _, hdom⟩
  · exact ⟨x, hx, hr, .refl b x.id⟩
  · exact ⟨y, hy, hr, hdom⟩

theorem AvailOut.inside (hb : b.ids.Nodup) (hx : x ∈ b.blocks) (h : b.AvailOut x.id r) :
    b.AvailIn x.id x.instrs r := by
  obtain ⟨y, hy, hr, hdom⟩ := h
  by_cases hid : y.id = x.id
  · rw [eq_of_id_eq hb hy hx hid] at hr
    exact .inl hr
  · exact .inr ⟨y, hy, hr, hid, hdom⟩

theorem AvailIn.mono {done done' : List Instr} (h : b.AvailIn place done r)
    (hsub : ∀ i ∈ done, i ∈ done') : b.AvailIn place done' r :=
  h.imp (definedBy_subset hsub) id

theorem AvailOut.mem_results (h : b.AvailOut place r) : r ∈ b.results := by
  obtain ⟨x, hx, hr, _⟩ := h
  exact Body.mem_results.mpr ⟨x, hx, hr⟩

end Body

end SsaCompiler.Ir
